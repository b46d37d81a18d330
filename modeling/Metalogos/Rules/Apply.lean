import Metalogos.Lib.FirstWins
import Metalogos.Program.Passes
import Metalogos.Walk.Eval

/-!
# Rules and flows

Rules run before a flow: in descending priority, and for each field of an entity only the first one
that matches writes. The tree-walker (`src/interpreter/flow.rs:4-96`) runs the rules it has met so far on
its `variables`, with its evaluator on their expressions. The machine (`src/vm.rs:4287-4387`) runs the
table of the whole program on its globals, with an evaluator of its own on what `compile_rule` kept of
the expressions.

Both are tables of `Metalogos.Lib.FirstWins`. What the other declarations of a program evaluate to is a
parameter, the same for both backends: only rules and flows are compared here.
-/
namespace Metalogos.Rules

open Metalogos.Lang Metalogos.Lib Metalogos.Program

variable {F : Type}

/-! ## Fields and comparisons -/

/-- Only a field that is there can be set.
mirrors src/interpreter/values.rs:400-412 -/
def setField (v : Value F) (field : String) (x : Value F) : Except String (Value F) :=
  match v with
  | .struct t fields =>
    if (fields.lookup field).isSome then
      .ok (.struct t (fields.map fun e => if e.1 = field then (e.1, x) else e))
    else .error ("field '" ++ field ++ "' not found on struct")
  | _ => .error ("cannot set field '" ++ field ++ "' on non-struct value")

/-- The field of an entity a rule writes. -/
abbrev Key := String × String

/-- The value of a field, if the entity is there and has it. -/
def fieldOf (look : String → Option (Value F)) (k : Key) : Option (Value F) :=
  (look k.1).bind fun v => (v.getField k.2).toOption

section Compare

variable [FloatModel F]

def compareFloats (l : F) (op : CompareOp) (r : F) : Bool :=
  match op with
  | .gt => FloatModel.flt r l
  | .lt => FloatModel.flt l r
  | .ge => FloatModel.fle r l
  | .le => FloatModel.fle l r
  | .eq => FloatModel.feq l r
  | .ne => !FloatModel.feq l r

/-- The two sides of a comparison are numbers. -/
def compareNumbers (l : Value F) (op : CompareOp) (r : Value F) : Except String Bool := do
  let a ← l.asFloat
  let b ← r.asFloat
  .ok (compareFloats a op b)

end Compare

/-! ## The machine -/

/-- `global_names` and `globals`. -/
structure Globals (F : Type) where
  names : List String
  cells : List (Value F)

/-- mirrors src/vm.rs:5144-5148 -/
def underflowErr (instr : String) : String :=
  "VM: stack underflow at " ++ instr ++ " (the operand stack is empty or the slot is out of range — "
    ++ "bytecode desync or a corrupt .mbc)"

/-- mirrors src/vm.rs:4350-4387 -/
def evalRuleValue (g : Globals F) : RuleValueExpr F → Except String (Value F)
  | .stringLit s => .ok (.string s)
  | .floatLit f => .ok (.float f)
  | .ident name =>
    match g.names.idxOf? name with
    | some s =>
      match g.cells[s]? with
      | some v => .ok v
      | none => .error (underflowErr ("the rule value read (global slot " ++ toString s
          ++ " out of range for '" ++ name ++ "')"))
    | none => .error (codedError "UNDEFINED_VARIABLE" ("VM rule: undefined variable '" ++ name ++ "'"))
  | .fieldAccess entity field =>
    match g.names.idxOf? entity with
    | some s =>
      match ((g.cells[s]?).getD .unit).getField field with
      | .ok v => .ok v
      | .error e => .error ("VM rule field access: " ++ e)
    | none => .error ("VM rule: undefined entity '" ++ entity ++ "'")

/-- The value of a global. -/
def Globals.read (g : Globals F) (name : String) : Option (Value F) :=
  (g.names.idxOf? name).bind fun s => g.cells[s]?

section Machine

variable [FloatModel F]

/-- mirrors src/vm.rs:4322-4347 -/
def evalRuleCondition (g : Globals F) : RuleCondition F → Except String Bool
  | .contains left right => do
    let l ← evalRuleValue g left
    let r ← evalRuleValue g right
    match l, r with
    | .string l, .string r => .ok (containsStr l r)
    | _, _ => .error "contains: both sides must be String"
  | .compare left op right => do
    let l ← evalRuleValue g left
    let r ← evalRuleValue g right
    compareNumbers l op r

/-- One rule whose field is still free. An entity that is not a global is passed over, and a write that
fails counts as a write.
mirrors src/vm.rs:4298-4317 -/
def vmConsider (r : CompiledRule F) (g : Globals F) : Verdict (Globals F) String :=
  match evalRuleCondition g r.condition with
  | .error e => .stop e g
  | .ok false => .pass g
  | .ok true =>
    match g.names.idxOf? r.targetName with
    | none => .pass g
    | some slot =>
      match evalRuleValue g r.value with
      | .error e => .stop e g
      | .ok v =>
        match g.cells[slot]? with
        | none => .pass g
        | some entity =>
          match setField entity r.field v with
          | .ok entity => .wrote { g with cells := g.cells.set slot entity }
          | .error _ => .wrote g

def vmWriters : Writers (CompiledRule F) Key (Globals F) String where
  key r := some (r.targetName, r.field)
  consider := vmConsider

/-- `rules_sorted` at load, and the sort of every call.
mirrors src/vm.rs:4287-4319 -/
def vmExecuteRules (rules : List (CompiledRule F)) (g : Globals F) :
    Except String Unit × Globals F × List Key :=
  vmWriters.run (byPriority (·.priority) (byPriority (·.priority) rules)) (g, [])

end Machine

/-! ## The tree-walker -/

section Walker

open Metalogos.Walk

variable {W : Type} [FloatModel F]

/-- `self.variables` is the environment and what stands behind it. -/
def evalIn (c : Interpreter F W) (vars : Walk.Env F) (e : Expr F) : TW F W (Value F) :=
  evalExpr { c with globals := vars } e vars

def containsText (side : String) : Value F → Except String String
  | .string s => .ok s
  | other => .error ("contains: " ++ side ++ " must be String, got " ++ other.typeName)

/-- mirrors src/interpreter/flow.rs:52-96 -/
def evalCondition (c : Interpreter F W) (vars : Walk.Env F) : Condition F → TW F W Bool
  | .contains left right => do
    let l ← evalIn c vars left
    let r ← evalIn c vars right
    let ls ← .lift (containsText "left" l)
    let rs ← .lift (containsText "right" r)
    pure (containsStr ls rs)
  | .compare left op right => do
    let l ← evalIn c vars left
    let r ← evalIn c vars right
    .lift (compareNumbers l op r)

/-- The variables after a rule whose condition holds has written.
mirrors src/interpreter/flow.rs:34-43 -/
def writeField (c : Interpreter F W) (vars : Walk.Env F) (r : RuleDecl F) (target : String) :
    TW F W (Walk.Env F) := do
  let _ ← evalIn c vars r.target
  let v ← evalIn c vars r.value
  match vars target with
  | none => .fail ("rule target '" ++ target ++ "' not found")
  | some entity => do
    let entity ← .lift (setField entity r.field v)
    pure (vars.set target entity)

/-- mirrors src/interpreter/flow.rs:21-25 -/
def ruleKey (r : RuleDecl F) : Option Key :=
  match r.target with
  | .ident name => some (name, r.field)
  | _ => none

/-- One rule whose field is still free.
mirrors src/interpreter/flow.rs:31-46 -/
def twConsider (c : Interpreter F W) (r : RuleDecl F) (s : Walk.Env F × W) :
    Verdict (Walk.Env F × W) String :=
  match evalCondition c s.1 r.condition s.2 with
  | (.error e, w, _) => .stop e (s.1, w)
  | (.ok false, w, _) => .pass (s.1, w)
  | (.ok true, w, _) =>
    match ruleKey r with
    | none => .pass (s.1, w)
    | some k =>
      match writeField c s.1 r k.1 w with
      | (.error e, w, _) => .stop e (s.1, w)
      | (.ok vars, w, _) => .wrote (vars, w)

def twWriters (c : Interpreter F W) : Writers (RuleDecl F) Key (Walk.Env F × W) String where
  key := ruleKey
  consider := twConsider c

/-- mirrors src/interpreter/flow.rs:4-49 -/
def twExecuteRules (c : Interpreter F W) (rules : List (RuleDecl F)) (s : Walk.Env F × W) :
    Except String Unit × (Walk.Env F × W) × List Key :=
  (twWriters c).run (byPriority (·.priority) rules) (s, [])

end Walker

/-! ## Programs -/

/-- The entity a declaration initializes. -/
def entityName : Decl F → Option String
  | .entitySimple name _ | .entityRecord name _ _ | .fluid name _ => some name
  | _ => none

/-- One declaration after another, up to the first error. -/
def runDecls {S D : Type} (step : S → D → Except String Unit × S) : List D → S → Except String Unit × S
  | [], s => (.ok (), s)
  | d :: ds, s =>
    match step s d with
    | (.ok (), s') => runDecls step ds s'
    | (.error e, s') => (.error e, s')

/-- What the declarations that are not rules evaluate to, by position: the value of an initializer, the
outcome of a flow, and so on. -/
abbrev Values (F : Type) := Nat → Except String (Value F)

section Programs

variable {W : Type} [FloatModel F]

/-- The tree-walker between two declarations; `written` are the fields all flows so far wrote. -/
structure TwTop (F W : Type) where
  vars : Walk.Env F
  world : W
  rules : List (RuleDecl F)
  written : List Key

/-- mirrors src/interpreter/execution.rs:75-97,208-220,254-258 -/
def twDecl (c : Walk.Interpreter F W) (val : Values F) (s : TwTop F W) :
    Decl F × Nat → Except String Unit × TwTop F W
  | (.rule r, _) => (.ok (), { s with rules := s.rules ++ [r] })
  | (.flow _, i) =>
    let out := twExecuteRules c s.rules (s.vars, s.world)
    let s := { s with vars := out.2.1.1, world := out.2.1.2, written := s.written ++ out.2.2 }
    match out.1 with
    | .error e => (.error e, s)
    | .ok () => ((val i).map fun _ => (), s)
  | (d, i) =>
    match val i with
    | .error e => (.error e, s)
    | .ok v =>
      match entityName d with
      | some name => (.ok (), { s with vars := s.vars.set name v })
      | none => (.ok (), s)

/-- The machine between two declarations. -/
structure VmTop (F : Type) where
  globals : Globals F
  written : List Key

/-- mirrors src/compiler.rs:1006-1250 and the main code it emits -/
def vmDecl (cmp : Compiler F) (val : Values F) (s : VmTop F) :
    Decl F × Nat → Except String Unit × VmTop F
  | (.rule _, _) => (.ok (), s)
  | (.flow _, i) =>
    if cmp.rules.isEmpty then ((val i).map fun _ => (), s)
    else
      let out := vmExecuteRules cmp.rules s.globals
      let s := { globals := out.2.1, written := s.written ++ out.2.2 }
      match out.1 with
      | .error e => (.error e, s)
      | .ok () => ((val i).map fun _ => (), s)
  | (d, i) =>
    match val i with
    | .error e => (.error e, s)
    | .ok v =>
      match entityName d with
      | some name =>
        (.ok (), { s with globals := { s.globals with
          cells := s.globals.cells.set ((cmp.globals.lookup name).getD 0) v } })
      | none => (.ok (), s)

def twRun (c : Walk.Interpreter F W) (val : Values F) (decls : List (Decl F)) (w : W) :
    Except String Unit × TwTop F W :=
  runDecls (twDecl c val) decls.zipIdx { vars := fun _ => none, world := w, rules := [], written := [] }

/-- Every global starts as `Unit`.
mirrors src/vm.rs:476-487 -/
def vmInit (cmp : Compiler F) : VmTop F where
  globals := ⟨cmp.globals.names "", List.replicate cmp.globals.next .unit⟩
  written := []

/-- The run of the first declarations of a program that was compiled whole. -/
def vmRun (cmp : Compiler F) (val : Values F) (decls : List (Decl F)) :
    Except String Unit × VmTop F :=
  runDecls (vmDecl cmp val) decls.zipIdx (vmInit cmp)

end Programs

end Metalogos.Rules
