import Metalogos.Lang.Syntax
import Metalogos.Walk.Reach
import Metalogos.Lib.Dict
import Metalogos.Lib.Text

/-!
# The unchecked-result walk

`walk_stmts_unchecked` keeps, along the text, which variables were bound to the result of a `try` and whether a guard
has shown their `ok` (`tryVars`); the same for values that may be `Unit` (`optVars`). A `.value` of a variable that is
not shown ok is reported.

`fix := false` is the walk as it is. `fix := true` closes its gaps, and nothing else: an `or` shows nothing for its
then side and an `and` nothing for its else side (`guardFacts`), a copy of a variable to itself keeps what is known of
it (`bindUnchecked`), the threshold of a comparison arm is walked (`walkArms`), and a variable that is unchecked at an
end of a branch, an arm or a loop body stays unchecked behind it and in the next iteration (`join`, `loopFrom`).
-/
namespace Metalogos.Check

open Metalogos.Lang Metalogos.Lib Metalogos.Walk

variable {F : Type}

/-! ## Options -/

/-- mirrors src/semantic.rs:11416-11442 -/
def splitArms : List Char → Nat → List Char → List String
  | [], _, cur => [String.ofList (trim cur.reverse)]
  | ch :: rest, depth, cur =>
    if ch = '<' then splitArms rest (depth + 1) (ch :: cur)
    else if ch = '>' then splitArms rest (depth - 1) (ch :: cur)
    else if ch = '|' ∧ depth = 0 then String.ofList (trim cur.reverse) :: splitArms rest depth []
    else splitArms rest depth (ch :: cur)

def unionArmsTop (raw : String) : List String := splitArms raw.toList 0 []

/-- mirrors src/semantic.rs:11444-11450 -/
def rawIsOption (raw : String) : Bool :=
  let arms := unionArmsTop raw
  1 < arms.length && arms.any fun a => a.toList.map Char.toLower = "unit".toList

/-- The declared spellings of patterns and of the registry's rows, and which parameter spellings are precise.
mirrors src/semantic.rs:11380-11413, src/semantic.rs:11452-11461 -/
structure UncheckedCallables where
  returnsRaw : String → Option String
  paramsRaw : String → Option (List String)
  builtinReturnsRaw : String → Option String
  declaredParamPrecise : String → Bool

def UncheckedCallables.builtinReturnsOption (cs : UncheckedCallables) (name : String) : Bool :=
  (cs.builtinReturnsRaw name).any rawIsOption

/-! ## Facts -/

/-- mirrors src/semantic.rs:11463-11470 -/
structure UncheckedFlow where
  tryVars : Dict String Bool
  optVars : Dict String Bool

def UncheckedFlow.start : UncheckedFlow := ⟨.empty, .empty⟩

/-- mirrors src/semantic.rs:11472-11493 -/
structure GuardFacts where
  tryThen : List String
  tryElse : List String
  optThen : List String
  optElse : List String
  negated : Bool

def GuardFacts.none : GuardFacts := ⟨[], [], [], [], false⟩

def GuardFacts.isEmpty (f : GuardFacts) : Bool :=
  f.tryThen.isEmpty && f.tryElse.isEmpty && f.optThen.isEmpty && f.optElse.isEmpty

/-- mirrors src/semantic.rs:11505-11516 -/
def applyFacts (flow : UncheckedFlow) (tryNames optNames : List String) : UncheckedFlow :=
  ⟨tryNames.foldl (fun d n => d.modify n fun _ => true) flow.tryVars,
    optNames.foldl (fun d n => d.modify n fun _ => true) flow.optVars⟩

/-- mirrors src/semantic.rs:11518-11564 -/
def eqGuardFacts (probe lit : Expr F) (eq : Bool) : Option GuardFacts :=
  match probe, lit with
  | .fieldAccess object field, .boolLit value =>
    if field = "ok" then
      match object with
      | .ident name =>
        some (if value = eq then { GuardFacts.none with tryThen := [name] }
          else { GuardFacts.none with tryElse := [name], negated := true })
      | _ => none
    else none
  | .fnCall name [arg] _, .stringLit value =>
    if name = "type_of" ∧ value = "Unit" then
      match arg with
      | .ident v =>
        some (if eq then { GuardFacts.none with optElse := [v], negated := true }
          else { GuardFacts.none with optThen := [v] })
      | _ => none
    else none
  | _, _ => none

/-- A comparison with a literal, in either order. -/
def comparisonFacts (l r : Expr F) (eq : Bool) : GuardFacts :=
  ((eqGuardFacts l r eq).orElse fun _ => eqGuardFacts r l eq).getD .none

/-- `not(..)` of a condition with facts.
mirrors src/semantic.rs:11618-11626 -/
def GuardFacts.flip (f : GuardFacts) : GuardFacts :=
  if f.isEmpty then f else ⟨f.tryElse, f.tryThen, f.optElse, f.optThen, true⟩

/-- `A and B`, given the facts of `A`. -/
def andFacts (fix : Bool) (a : GuardFacts) : GuardFacts :=
  if fix then { a with tryElse := [], optElse := [] } else a

/-- `A or B`. -/
def orFacts (fix : Bool) (a b : GuardFacts) : GuardFacts :=
  { a with
    tryThen := if fix then [] else a.tryThen
    optThen := if fix then [] else a.optThen
    tryElse := a.tryElse ++ b.tryElse
    optElse := a.optElse ++ b.optElse }

/-- The facts of `name(arg)`, given those of `arg`. -/
def callFacts (name : String) (arg : GuardFacts) : GuardFacts := if name = "not" then arg.flip else .none

mutual
/-- mirrors src/semantic.rs:11566-11632 -/
def guardFacts (fix : Bool) : Expr F → GuardFacts
  | .fieldAccess object field =>
    if field = "ok" then
      match object with
      | .ident name => { GuardFacts.none with tryThen := [name] }
      | _ => .none
    else .none
  | .binaryOp l .and _ => andFacts fix (guardFacts fix l)
  | .binaryOp l .or r => orFacts fix (guardFacts fix l) (guardFacts fix r)
  | .binaryOp l .eq r => comparisonFacts l r true
  | .binaryOp l .ne r => comparisonFacts l r false
  | .fnCall name args _ => callFacts name (argFacts fix args)
  | _ => .none

/-- The facts of a single argument. -/
def argFacts (fix : Bool) : List (Expr F) → GuardFacts
  | [arg] => guardFacts fix arg
  | _ => .none
end

/-- mirrors src/semantic.rs:11634-11643 -/
def branchExits (body : List (Stmt F)) : Bool :=
  body.any fun
    | .return_ _ => true
    | .break_ => true
    | .continue_ => true
    | _ => false

/-- mirrors src/semantic.rs:11648-11679 -/
def bindUnchecked (fix : Bool) (cs : UncheckedCallables) (name : String) (value : Expr F) (flow : UncheckedFlow) :
    UncheckedFlow :=
  let dropped : UncheckedFlow := ⟨flow.tryVars.erase name, flow.optVars.erase name⟩
  match value with
  | .try_ _ => { dropped with tryVars := dropped.tryVars.set name false }
  | .ident src =>
    match (if fix then flow else dropped).tryVars.get src with
    | some checked => { dropped with tryVars := dropped.tryVars.set name checked }
    | none =>
      match dropped.optVars.get src with
      | some handled => { dropped with optVars := dropped.optVars.set name handled }
      | none => dropped
  | .fnCall callee _ _ =>
    if (cs.returnsRaw callee).any rawIsOption || cs.builtinReturnsOption callee then
      { dropped with optVars := dropped.optVars.set name false }
    else dropped
  | _ => dropped

/-! ## Findings -/

inductive FindingCode where
  | uncheckedResult
  | uncheckedOption
  deriving DecidableEq, Repr

structure Finding where
  code : FindingCode
  message : String
  deriving DecidableEq, Repr

def optionTail : String :=
  "handle the Unit arm first, or suppress with a reason: // allow(unchecked_option): <reason> (naryad №802)"

/-- mirrors src/semantic.rs:11723-11733 -/
def valueFinding (name : String) : Finding :=
  ⟨.uncheckedResult, "[UNCHECKED_RESULT] the .value of '" ++ name ++ "' is read outside a proven .ok guard — the failed try's value is Unit (the ADR-0142 Struct\x7bok, value, error\x7d): check `if r.ok \x7b ... \x7d` (or early-exit on `r.ok == false`) before reading .value, or suppress with a reason: // allow(unchecked_result): <reason> (naryad №802, ADR-0198)"⟩

/-- mirrors src/semantic.rs:11748-11757 -/
def indexFinding (name : String) : Finding :=
  ⟨.uncheckedResult, "[UNCHECKED_RESULT] the [\"value\"] read of '" ++ name ++ "' is the same unchecked getfield (the failed try's value is Unit): check the .ok guard first, or suppress with a reason: // allow(unchecked_result): <reason> (naryad №802)"⟩

/-- mirrors src/semantic.rs:11758-11767 -/
def indexedOption (name : String) : Finding :=
  ⟨.uncheckedOption, "[UNCHECKED_OPTION] '" ++ name ++ "' may be Unit (the union spelling carries a Unit arm — the ADR-0198 Option<T>) and is indexed where a List is required: handle the Unit arm first (`if type_of(v) == \"Unit\" \x7b ... \x7d`), or suppress with a reason: // allow(unchecked_option): <reason> (naryad №802)"⟩

/-- mirrors src/ast.rs:1969-1986 -/
def binOpSign : BinOp → String
  | .add => "+" | .sub => "-" | .mul => "*" | .div => "/"
  | .gt => ">" | .lt => "<" | .ge => ">=" | .le => "<="
  | .eq => "==" | .ne => "!=" | .and => "and" | .or => "or"

/-- mirrors src/semantic.rs:11802-11812 -/
def operandOption (name op : String) : Finding :=
  ⟨.uncheckedOption, "[UNCHECKED_OPTION] '" ++ name ++ "' may be Unit (the union spelling carries a Unit arm — the ADR-0198 Option<T>) and is used where a value is required ('" ++ op ++ "'): handle the Unit arm first (`if type_of(v) == \"Unit\" \x7b ... \x7d`), project through to_string, or suppress with a reason: // allow(unchecked_option): <reason> (naryad №802)"⟩

/-- mirrors src/semantic.rs:11832-11841 -/
def argumentOption (name ty callee : String) : Finding :=
  ⟨.uncheckedOption, "[UNCHECKED_OPTION] '" ++ name ++ "' may be Unit (the union spelling carries a Unit arm) and is passed to the declared '" ++ ty ++ "' parameter of '" ++ callee ++ "': " ++ optionTail⟩

/-- mirrors src/semantic.rs:12065-12074 -/
def iteratedOption (name : String) : Finding :=
  ⟨.uncheckedOption, "[UNCHECKED_OPTION] '" ++ name ++ "' may be Unit (the union spelling carries a Unit arm) and is iterated where a List is required: " ++ optionTail⟩

/-- A bare name that may be `Unit`. -/
def optionUse (flow : UncheckedFlow) (finding : String → Finding) : Expr F → List Finding
  | .ident name => if flow.optVars.get name = some false then [finding name] else []
  | _ => []

/-- mirrors src/semantic.rs:11824-11845 -/
def argumentUses (cs : UncheckedCallables) (flow : UncheckedFlow) (callee : String) :
    List (Expr F) → List String → List Finding
  | e :: es, ty :: tys =>
    (if cs.declaredParamPrecise ty then optionUse flow (fun name => argumentOption name ty callee) e else []) ++
      argumentUses cs flow callee es tys
  | _, _ => []

/-- `.value` of a bare name.
mirrors src/semantic.rs:11709-11736 -/
def fieldUse (flow : UncheckedFlow) (name field : String) : List Finding :=
  if field = "value" ∧ flow.tryVars.get name = some false then [valueFinding name] else []

/-- `["key"]` of a bare name.
mirrors src/semantic.rs:11737-11770 -/
def keyUse (flow : UncheckedFlow) (name key : String) : List Finding :=
  if key = "value" ∧ flow.tryVars.get name = some false then [indexFinding name]
  else if flow.optVars.get name = some false then [indexedOption name]
  else []

/-! ## Blocks -/

/-- What the walk of a block leaves: the flow at its end, what it found, and the flows at its `break`s and
`continue`s, which only the closed walk looks at. -/
structure Walked where
  flow : UncheckedFlow
  found : List Finding
  breaks : List UncheckedFlow
  conts : List UncheckedFlow

def UncheckedFlow.pending (flow : UncheckedFlow) : List String := flow.tryVars.select fun _ checked => !checked

/-- What is unchecked on either way stays unchecked. -/
def join (a b : UncheckedFlow) : UncheckedFlow :=
  { a with tryVars := b.pending.foldl (fun d n => d.set n false) a.tryVars }

def joinAll (a : UncheckedFlow) (bs : List UncheckedFlow) : UncheckedFlow := bs.foldl join a

/-- A loop from a flow that its body keeps: another iteration leaves nothing unchecked that was not at its start. -/
def loopFrom (walk : UncheckedFlow → Walked) : Nat → UncheckedFlow → Walked
  | 0, flow => ⟨flow, [⟨.uncheckedResult, "no flow is kept by the loop"⟩], [], []⟩
  | n + 1, flow =>
    let out := walk flow
    let next := joinAll flow (out.flow :: out.conts)
    if ∀ x ∈ next.pending, x ∈ flow.pending then ⟨joinAll flow out.breaks, out.found, [], []⟩
    else loopFrom walk n next

/-- A loop. The walk as it is goes through the body once and drops what it learns there.
mirrors src/semantic.rs:12043-12055, src/semantic.rs:12056-12081 -/
def walkLoop (fix : Bool) (walk : UncheckedFlow → Walked) (fuel : Nat) (flow : UncheckedFlow) : Walked :=
  if fix then loopFrom walk fuel flow else ⟨flow, (walk flow).found, [], []⟩

/-- What the walk of the rest of an `if` leaves: whether there are `else if`s, the flow at the end of the `else`, the
flows at the ends from which control goes on, and the findings, `break`s and `continue`s of the bodies. -/
structure ElseWalked where
  chained : Bool
  elseEnd : Option UncheckedFlow
  ends : List UncheckedFlow
  found : List Finding
  breaks : List UncheckedFlow
  conts : List UncheckedFlow

/-- The end of a branch, if control can get there. -/
def branchEnds (body : List (Stmt F)) (out : Walked) : List UncheckedFlow :=
  if branchExits body then [] else [out.flow]

/-- The flow behind an `if`.
mirrors src/semantic.rs:11973-12003 -/
def joinIf (facts : GuardFacts) (thenBody : List (Stmt F)) (flow thenEnd : UncheckedFlow) (rest : ElseWalked) :
    UncheckedFlow :=
  match rest.elseEnd with
  | some elseEnd =>
    if rest.chained then flow
    else
      ⟨flow.tryVars.keys.foldl (fun d k =>
          if flow.tryVars.get k = some true then
            d.set k (thenEnd.tryVars.get k = some true && elseEnd.tryVars.get k = some true)
          else d) flow.tryVars,
        flow.optVars.keys.foldl (fun d k =>
          if flow.optVars.get k = some false then
            d.set k (thenEnd.optVars.get k = some true && elseEnd.optVars.get k = some true)
          else d) flow.optVars⟩
  | none =>
    if facts.negated && branchExits thenBody && !rest.chained then applyFacts flow facts.tryElse facts.optElse else flow

/-- An `if` whose parts are walked. -/
def walkIf (fix : Bool) (facts : GuardFacts) (thenBody : List (Stmt F)) (flow : UncheckedFlow) (cond : List Finding)
    (thenOut : Walked) (rest : ElseWalked) : Walked where
  flow :=
    let behind := joinIf facts thenBody flow thenOut.flow rest
    if fix then joinAll behind (branchEnds thenBody thenOut ++ rest.ends) else behind
  found := cond ++ thenOut.found ++ rest.found
  breaks := thenOut.breaks ++ rest.breaks
  conts := thenOut.conts ++ rest.conts

/-- mirrors src/semantic.rs:11919-11929 -/
def matchArmOkVar : Expr F → Option String
  | .fieldAccess (.ident name) "ok" => some name
  | _ => none

/-- The flow an arm starts with.
mirrors src/semantic.rs:11895-11901 -/
def armFlow (okProbe : Option String) (test : LitTest) (flow : UncheckedFlow) : UncheckedFlow :=
  match okProbe, test with
  | some v, .exact "true" => applyFacts flow [v] []
  | _, _ => flow

mutual
/-- mirrors src/semantic.rs:11698-11917 -/
def walkExpr (fix : Bool) (cs : UncheckedCallables) : Expr F → UncheckedFlow → List Finding
  | .fieldAccess (.ident name) field, flow => fieldUse flow name field
  | .fieldAccess object _, flow => walkExpr fix cs object flow
  | .indexAccess (.ident name) (.stringLit key), flow => keyUse flow name key
  | .indexAccess object index, flow => walkExpr fix cs object flow ++ walkExpr fix cs index flow
  | .binaryOp l .and r, flow =>
    let facts := guardFacts fix l
    walkExpr fix cs l flow ++ walkExpr fix cs r (applyFacts flow facts.tryThen facts.optThen)
  | .binaryOp l op r, flow =>
    walkExpr fix cs l flow ++ walkExpr fix cs r flow ++
      if op = .eq ∨ op = .ne then []
      else optionUse flow (operandOption · (binOpSign op)) l ++ optionUse flow (operandOption · (binOpSign op)) r
  | .fnCall name args _, flow =>
    walkExprs fix cs args flow ++ ((cs.paramsRaw name).map (argumentUses cs flow name args)).getD []
  | .qualifiedCall _ _ args, flow => walkExprs fix cs args flow
  | .list items, flow => walkExprs fix cs items flow
  | .structLit _ values, flow => walkExprs fix cs values flow
  | .ifElse c t e, flow =>
    let facts := guardFacts fix c
    walkExpr fix cs c flow ++ walkExpr fix cs t (applyFacts flow facts.tryThen facts.optThen) ++
      walkExpr fix cs e (applyFacts flow facts.tryElse facts.optElse)
  | .blockIfElse c body rest, flow =>
    let facts := guardFacts fix c
    let thenOut := walkStmts fix cs body (applyFacts flow facts.tryThen facts.optThen)
    let restOut := walkElse fix cs rest flow (applyFacts flow facts.tryElse facts.optElse)
    (walkIf fix facts body flow (walkExpr fix cs c flow) thenOut restOut).found
  | .matchExpr s arms, flow => walkExpr fix cs s flow ++ (walkArms fix cs arms (matchArmOkVar s) flow).found
  | .try_ e, flow => walkExpr fix cs e flow
  | .provBind _ e, flow => walkExpr fix cs e flow
  | _, _ => []

def walkExprs (fix : Bool) (cs : UncheckedCallables) : List (Expr F) → UncheckedFlow → List Finding
  | [], _ => []
  | e :: es, flow => walkExpr fix cs e flow ++ walkExprs fix cs es flow

/-- mirrors src/semantic.rs:12006-12113 -/
def walkStmt (fix : Bool) (cs : UncheckedCallables) : Stmt F → UncheckedFlow → Walked
  | .letBinding name value _, flow => ⟨bindUnchecked fix cs name value flow, walkExpr fix cs value flow, [], []⟩
  | .assign name value, flow => ⟨bindUnchecked fix cs name value flow, walkExpr fix cs value flow, [], []⟩
  | .ifThen c body, flow =>
    let facts := guardFacts fix c
    let thenOut := walkStmts fix cs body (applyFacts flow facts.tryThen facts.optThen)
    walkIf fix facts body flow (walkExpr fix cs c flow) thenOut ⟨false, none, [], [], [], []⟩
  | .ifElseBlock c body rest, flow =>
    let facts := guardFacts fix c
    let thenOut := walkStmts fix cs body (applyFacts flow facts.tryThen facts.optThen)
    let restOut := walkElse fix cs rest flow (applyFacts flow facts.tryElse facts.optElse)
    walkIf fix facts body flow (walkExpr fix cs c flow) thenOut restOut
  | .while_ c body, flow =>
    walkLoop fix (fun flow =>
      let out := walkStmts fix cs body flow
      { out with found := walkExpr fix cs c flow ++ out.found }) (sizeStmts body + 1) flow
  | .each _ it body, flow =>
    let out := walkLoop fix (walkStmts fix cs body) (sizeStmts body + 1) flow
    { out with found := optionUse flow iteratedOption it ++ walkExpr fix cs it flow ++ out.found }
  | .eachWithIndex _ _ it body, flow =>
    let out := walkLoop fix (walkStmts fix cs body) (sizeStmts body + 1) flow
    { out with found := optionUse flow iteratedOption it ++ walkExpr fix cs it flow ++ out.found }
  | .match_ s arms, flow =>
    let out := walkArms fix cs arms (matchArmOkVar s) flow
    ⟨if fix then joinAll flow out.ends else flow, walkExpr fix cs s flow ++ out.found, out.breaks, out.conts⟩
  | .return_ e, flow => ⟨flow, walkExpr fix cs e flow, [], []⟩
  | .exprStmt e, flow => ⟨flow, walkExpr fix cs e flow, [], []⟩
  | .memorize e _, flow => ⟨flow, walkExpr fix cs e flow, [], []⟩
  | .forget e _, flow => ⟨flow, walkExpr fix cs e flow, [], []⟩
  | .relate a b _, flow => ⟨flow, walkExpr fix cs a flow ++ walkExpr fix cs b flow, [], []⟩
  | .break_, flow => ⟨flow, [], [flow], []⟩
  | .continue_, flow => ⟨flow, [], [], [flow]⟩

/-- mirrors src/semantic.rs:12116-12127 -/
def walkStmts (fix : Bool) (cs : UncheckedCallables) : List (Stmt F) → UncheckedFlow → Walked
  | [], flow => ⟨flow, [], [], []⟩
  | s :: ss, flow =>
    let out := walkStmt fix cs s flow
    let rest := walkStmts fix cs ss out.flow
    ⟨rest.flow, out.found ++ rest.found, out.breaks ++ rest.breaks, out.conts ++ rest.conts⟩

/-- The `else if`s start from the flow before the `if`.
mirrors src/semantic.rs:11951-11972 -/
def walkElse (fix : Bool) (cs : UncheckedCallables) :
    ElseChain F → UncheckedFlow → UncheckedFlow → ElseWalked
  | .none, _, _ => ⟨false, none, [], [], [], []⟩
  | .else_ body, _, elseFlow =>
    let out := walkStmts fix cs body elseFlow
    ⟨false, some out.flow, branchEnds body out, out.found, out.breaks, out.conts⟩
  | .elseIf c body rest, flow, elseFlow =>
    let facts := guardFacts fix c
    let out := walkStmts fix cs body (applyFacts flow facts.tryThen facts.optThen)
    let restOut := walkElse fix cs rest flow elseFlow
    ⟨true, restOut.elseEnd, branchEnds body out ++ restOut.ends, walkExpr fix cs c flow ++ out.found ++ restOut.found,
      out.breaks ++ restOut.breaks, out.conts ++ restOut.conts⟩

/-- Every arm starts from the flow before the `match`. -/
def walkArms (fix : Bool) (cs : UncheckedCallables) :
    MatchArms F → Option String → UncheckedFlow → ElseWalked
  | .none, _, _ => ⟨false, none, [], [], [], []⟩
  | .else_ body, _, flow =>
    let out := walkStmts fix cs body flow
    ⟨false, some out.flow, branchEnds body out, out.found, out.breaks, out.conts⟩
  | .lit test body rest, okProbe, flow =>
    let out := walkStmts fix cs body (armFlow okProbe test flow)
    let restOut := walkArms fix cs rest okProbe flow
    ⟨true, restOut.elseEnd, branchEnds body out ++ restOut.ends, out.found ++ restOut.found,
      out.breaks ++ restOut.breaks, out.conts ++ restOut.conts⟩
  | .compare _ th body rest, okProbe, flow =>
    let out := walkStmts fix cs body flow
    let restOut := walkArms fix cs rest okProbe flow
    ⟨true, restOut.elseEnd, branchEnds body out ++ restOut.ends,
      (if fix then walkExpr fix cs th flow else []) ++ out.found ++ restOut.found, out.breaks ++ restOut.breaks, out.conts ++ restOut.conts⟩
end

/-- The `UNCHECKED_RESULT` findings of a body.
mirrors src/semantic.rs:12139-12189 -/
def resultFindings (fix : Bool) (cs : UncheckedCallables) (body : List (Stmt F)) : List Finding :=
  (walkStmts fix cs body .start).found.filter (·.code = .uncheckedResult)

end Metalogos.Check
