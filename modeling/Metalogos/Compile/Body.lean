import Metalogos.Compile.Lower

/-!
# The compiler: expressions, statements, bodies

The recursive part of `src/compiler.rs:1415-3618`; see `Metalogos.Compile.Lower` for the modes and
the fragment convention. The jump shapes that several arms share are named (`ifShape`, `armShape`,
`eachShape`), with the source lines of each use.
-/
namespace Metalogos.Compile

open Metalogos.Lang Metalogos.Machine

variable {F : Type} [FloatModel F]

/-- Condition, body, jump over the rest: `if` statements and block expressions in every mode.
mirrors src/compiler.rs:1768-1812, :2409-2452, :2932-2981, :3436-3489 -/
def ifShape (base : Nat) (cond body rest : Frag F) : Frag F :=
  let elseStart := base + cond.length + 1 + body.length + 1
  cond ++ code [.jumpIfNotCond elseStart] ++ body ++ code [.jump (elseStart + rest.length)] ++ rest

/-- Condition and body without an else.
mirrors src/compiler.rs:2391-2408, :3420-3435 and the non-keep branch of :2886-2914 -/
def thenShape (base : Nat) (cond body : Frag F) : Frag F :=
  cond ++ code [.jumpIfNotCond (base + cond.length + 1 + body.length)] ++ body

/-- One arm: scrutinee, threshold (comparison arms), test, body, jump over the rest.
mirrors src/compiler.rs:2467-2495, :2699-2734, :2763-2817 -/
def armShape (base : Nat) (load : Instr F) (threshold : Frag F) (test : MatchTest)
    (body rest : Frag F) : Frag F :=
  let next := base + 1 + threshold.length + 2 + body.length + 1
  code [load] ++ threshold ++ code [.matchTest test, .jumpIfNot next] ++ body
    ++ code [.jump (next + rest.length)] ++ rest

/-- mirrors src/compiler.rs:2040-2113, :3379-3419 -/
def whileShape (base : Nat) (cond body : Frag F) : Frag F :=
  let after := base + cond.length + 1 + body.length + 1
  cond ++ code [.jumpIfNotCond after] ++ resolve after base body ++ code [.jump base]

/-- The loop of an `each` once the list is in `list` and the index in `idx`; `base` is the head.
mirrors src/compiler.rs:3193-3253 -/
def eachShape (base list idx item : Nat) (body : Frag F) : Frag F :=
  let cont := base + 9 + body.length
  let after := cont + 5
  code [.loadLocal idx, .loadLocal list, .listLen, .cmp .lt, .jumpIfNot after,
      .loadLocal list, .loadLocal idx, .indexAccess, .storeLocal item]
    ++ resolve after cont body
    ++ code [.loadLocal idx, .const (.float (FloatModel.one F)), .arith .add, .storeLocal idx,
      .jump base]

/-- Checks, call, and the instruction the deny path skips to.
mirrors src/compiler.rs:2017-2038, :2220-2240, :3363-3378 -/
def sinkShape (t : Tables) (cs : CState) (base : Nat) (e : Expr F) (call : Frag F) : Frag F :=
  code (armedSinkChecks t cs (base + (armedSinkChecks t cs 0 e).length + call.length) e) ++ call

/-- Bind item, then index, of an `each`.
mirrors src/compiler.rs:3212-3217 -/
def CState.bindEach (cs : CState) (index : Option String) (item : String) (idxSlot itemSlot : Nat) :
    CState :=
  let cs := cs.setLocal item itemSlot
  match index with
  | some i => cs.setLocal i idxSlot
  | none => cs

/-- Put item, then index, back; `old` is the state before the loop.
mirrors src/compiler.rs:3255-3277 -/
def CState.unbindEach (cs old : CState) (index : Option String) (item : String) (itemSlot : Nat) :
    CState :=
  let cs := cs.restore old item
  match index with
  | some i => cs.restore (old.setLocal item itemSlot) i
  | none => cs

/-- Whether a `let` reuses the slot of an existing name in this mode. -/
def Mode.reuse (mode : Mode) (fresh : Bool) : Bool :=
  match mode with
  | .top => true
  | .plain _ => !fresh
  | .value | .arm => false

/-- The kept value of a statement that has none.
mirrors src/compiler.rs:3105-3122 -/
def unitIf (keep : Bool) : Frag F := if keep then code [.pushUnit] else []

/-- The instructions around the store of a `let`: label seeding and, for an arm's let, the reset of
the value register.
mirrors src/compiler.rs:1949-1982, :3324-3363, :2513-2553 -/
def letShape (t : Tables) (mode : Mode) (x : String) (e : Expr F) (slot : Nat) (init : Frag F) :
    Frag F :=
  match mode with
  | .top => code (labelJoin t x e) ++ init ++ code [.storeLocal slot]
  | .plain _ => init ++ code (.storeLocal slot :: labelJoin t x e)
  | .value | .arm =>
    init ++ code (.storeLocal slot :: labelJoin t x e ++ [.pushUnit, .setValueReg])

/-- How many instructions stand before the initializer. -/
def letOffset (t : Tables) (mode : Mode) (x : String) (e : Expr F) : Nat :=
  match mode with
  | .top => (labelJoin t x e : List (Instr F)).length
  | _ => 0

mutual
/-- mirrors src/compiler.rs:1415-1876 -/
def compileExpr (t : Tables) : Expr F → CState → Nat → Except String (Frag F × CState)
  | .stringLit s, cs, _ => .ok (code [.const (.string s)], cs)
  | .floatLit f, cs, _ => .ok (code [.const (.float f)], cs)
  | .boolLit b, cs, _ => .ok (code [.const (.bool b)], cs)
  | .ident x, cs, _ => .ok (code [compileIdent t cs x], cs)
  | .fieldAccess e field, cs, b => do
    let (c, cs) ← compileExpr t e cs b
    .ok (c ++ code [.getField field], cs)
  | .fnCall name args _, cs, b => do
    let (c, cs) ← compileExprs t args cs b
    let i ← compileCall t name args.length
    .ok (c ++ code [i], cs)
  | .qualifiedCall ns fn args, cs, b => do
    let (c, cs) ← compileExprs t args cs b
    let i ← compileQualified t ns fn args.length
    .ok (c ++ code [i], cs)
  | .binaryOp l .and r, cs, b => do
    let (cl, cs) ← compileExpr t l cs b
    let (cr, cs) ← compileExpr t r cs (b + cl.length + 1)
    let lFalse := b + cl.length + 1 + cr.length + 3
    .ok (cl ++ code [.jumpIfNot lFalse] ++ cr
      ++ code [.jumpIfNot lFalse, .const (.bool true), .jump (lFalse + 1), .const (.bool false)], cs)
  | .binaryOp l .or r, cs, b => do
    let (cl, cs) ← compileExpr t l cs b
    let lRight := b + cl.length + 3
    let (cr, cs) ← compileExpr t r cs lRight
    let lFalse := lRight + cr.length + 3
    .ok (cl ++ code [.jumpIfNot lRight, .const (.bool true), .jump (lFalse + 1)] ++ cr
      ++ code [.jumpIfNot lFalse, .const (.bool true), .jump (lFalse + 1), .const (.bool false)], cs)
  | .binaryOp l op r, cs, b => do
    let (cl, cs) ← compileExpr t l cs b
    let (cr, cs) ← compileExpr t r cs (b + cl.length)
    .ok (cl ++ cr ++ code [compileOp op], cs)
  | .ifElse c th el, cs, b => do
    let (cc, cs) ← compileExpr t c cs b
    let (ct, cs) ← compileExpr t th cs (b + cc.length + 1)
    let (ce, cs) ← compileExpr t el cs (b + cc.length + 1 + ct.length + 1)
    .ok (ifShape b cc ct ce, cs)
  | .list items, cs, b => do
    let (c, cs) ← compileExprs t items cs b
    .ok (c ++ code [.makeList items.length], cs)
  | .indexAccess e i, cs, b => do
    let (ce, cs) ← compileExpr t e cs b
    let (ci, cs) ← compileExpr t i cs (b + ce.length)
    .ok (ce ++ ci ++ code [.indexAccess], cs)
  | .structLit keys values, cs, b => do
    let (c, cs) ← compileExprs t values cs b
    .ok (c ++ code [.makeStruct "Struct" keys], cs)
  | .blockIfElse c th rest, cs, b => do
    let (cc, cs) ← compileExpr t c cs (b + 1)
    let (cb, cs) ← (BodyKind.arm.leave cs) <$>
      compileStmts t .arm th (BodyKind.arm.enter cs) (b + 1 + cc.length + 1)
    let (cr, cs) ← compileElse t .arm rest cs (b + 1 + cc.length + 1 + cb.length + 1)
    .ok (code [.beginValueExpr] ++ ifShape (b + 1) cc cb cr ++ code [.endValueExpr], cs)
  | .matchExpr _ _, _, _ =>
    .error "compile: match expression outside let binding — unsupported position (№369 compiles let-bound match only)"
  | .try_ e, cs, _ => do
    let (c, cs) ← compileExpr t e cs 0
    .ok (code [.tryEval (c.map (·.resolve 0 0))], cs)
  | .handleSource origin, cs, _ =>
    match t.builtinIdx "media_source_capture" with
    | some i => .ok (code [.const (.string origin), .callBuiltin i 1], cs)
    | none => .error "compile: media_source_capture not registered (registry invariant)"
  | .provBind origin e, cs, b =>
    match t.builtinIdx "media_bind_origin" with
    | some i => do
      let (c, cs) ← compileExpr t e cs (b + 1)
      .ok (code [.const (.string origin)] ++ c ++ code [.callBuiltin i 2], cs)
    | none => .error "compile: media_bind_origin not registered (registry invariant)"

def compileExprs (t : Tables) : List (Expr F) → CState → Nat → Except String (Frag F × CState)
  | [], cs, _ => .ok ([], cs)
  | e :: es, cs, b => do
    let (c, cs) ← compileExpr t e cs b
    let (c', cs) ← compileExprs t es cs (b + c.length)
    .ok (c ++ c', cs)

/-- mirrors the chains of `ifShape`'s uses -/
def compileElse (t : Tables) (k : BodyKind) : ElseChain F → CState → Nat →
    Except String (Frag F × CState)
  | .none, cs, _ => .ok (unitIf k.keeps, cs)
  | .else_ body, cs, b => (k.leave cs) <$> compileStmts t k body (k.enter cs) b
  | .elseIf c body rest, cs, b => do
    let (cc, cs) ← compileExpr t c cs b
    let (cb, cs) ← (k.leave cs) <$> compileStmts t k body (k.enter cs) (b + cc.length + 1)
    let (cr, cs) ← compileElse t k rest cs (b + cc.length + 1 + cb.length + 1)
    .ok (ifShape b cc cb cr, cs)

/-- mirrors the arm loops of `armShape`'s uses -/
def compileArms (t : Tables) (k : BodyKind) (load : Instr F) : MatchArms F → CState → Nat →
    Except String (Frag F × CState)
  | .none, cs, _ => .ok (unitIf k.keeps, cs)
  | .else_ body, cs, b => (k.leave cs) <$> compileStmts t k body (k.enter cs) b
  | .lit test body rest, cs, b => do
    let (cb, cs) ← (k.leave cs) <$> compileStmts t k body (k.enter cs) (b + 3)
    let (cr, cs) ← compileArms t k load rest cs (b + 3 + cb.length + 1)
    .ok (armShape b load [] (.lit test) cb cr, cs)
  | .compare op th body rest, cs, b => do
    let (ct, cs) ← compileExpr t th cs (b + 1)
    let (cb, cs) ← (k.leave cs) <$> compileStmts t k body (k.enter cs) (b + 1 + ct.length + 2)
    let (cr, cs) ← compileArms t k load rest cs (b + 1 + ct.length + 2 + cb.length + 1)
    .ok (armShape b load ct (.compare op) cb cr, cs)

/-- A block; the last statement of a keeping block keeps its value, an empty one pushes `Unit`.
mirrors src/compiler.rs:1909-2330 (top), :3011-3035 (keep), :2609-2650 (arm) -/
def compileStmts (t : Tables) (k : BodyKind) : List (Stmt F) → CState → Nat →
    Except String (Frag F × CState)
  | [], cs, _ => .ok (unitIf k.keeps, cs)
  | [s], cs, b => compileStmt t k.mode k.keeps s cs b
  | s :: s' :: rest, cs, b => do
    let (c, cs) ← compileStmt t k.mode false s cs b
    let (c', cs) ← compileStmts t k (s' :: rest) cs (b + c.length)
    .ok (c ++ c', cs)

/-- mirrors src/compiler.rs:1914-2275 (top), :3281-3618 (plain), :2365-2578 (value),
:2609-2650 (arm), :3050-3142 (keep) -/
def compileStmt (t : Tables) (mode : Mode) (keep : Bool) : Stmt F → CState → Nat →
    Except String (Frag F × CState)
  | .letBinding x (.matchExpr s arms) isMut, cs, b => do
    let (slot, cs) := (cs.addMut isMut x).letSlot (!mode.isValue) x
    let (c, cs) ← compileExpr t s cs (b + 1)
    let (ca, cs) ← compileArms t .arm .dup arms cs (b + 1 + c.length)
    .ok (code [.beginValueExpr] ++ c ++ ca ++ code [.pop, .endValueExpr, .storeLocal slot]
      ++ (if mode.isValue then code [.pushUnit, .setValueReg] else []) ++ unitIf keep, cs)
  | .letBinding x e isMut, cs, b => do
    let (slot, cs) := (cs.addMut isMut x).letSlot (mode.reuse cs.fresh) x
    let (c, cs) ← compileExpr t e cs (b + letOffset t mode x e)
    .ok (letShape t mode x e slot c ++ unitIf keep, cs)
  | .assign x e, cs, b =>
    if x ∈ cs.muts then
      match cs.locals x with
      | none => .error (immutabilityErrorText x)
      | some slot => do
        let (c, cs) ← compileExpr t e cs b
        .ok (c ++ code [.storeAssignLocal slot x true] ++ unitIf keep, cs)
    else .error (immutabilityErrorText x)
  | .return_ e, cs, b =>
    if mode = .arm then do
      let (c, cs) ← compileExpr t e cs b
      .ok (c ++ code [.setValueReg], cs)
    else do
      let (c, cs') ← compileExpr t e cs (b + (armedSinkChecks t cs 0 e).length)
      .ok (sinkShape t cs b e c ++ code [.return_], cs')
  | .exprStmt e, cs, b =>
    if mode.isValue then do
      let (c, cs) ← compileExpr t e cs b
      .ok (c ++ code [.keepLastValue], cs)
    else do
      let (c, cs') ← compileExpr t e cs (b + (armedSinkChecks t cs 0 e).length)
      .ok (sinkShape t cs b e c ++ (if keep then [] else code [.pop]), cs')
  | .while_ c body, cs, b => do
    let (cc, cs) ← compileExpr t c cs b
    let (cb, cs) ← compileStmts t (.plain true) body cs (b + cc.length + 1)
    .ok (whileShape b cc cb ++ unitIf keep, cs)
  | .each x it body, cs, b => do
    let list := cs.next
    let (ci, cs1) ← compileExpr t it { cs with next := cs.next + 3 } b
    let head := b + ci.length + 3
    let (cb, cs2) ← compileStmts t (.plain true) body
      (cs1.bindEach none x (list + 1) (list + 2)) (head + 9)
    .ok (ci ++ code [.storeLocal list, .const (.float (FloatModel.zero F)), .storeLocal (list + 1)]
      ++ eachShape head list (list + 1) (list + 2) cb ++ unitIf keep,
      cs2.unbindEach cs1 none x (list + 2))
  | .eachWithIndex i x it body, cs, b => do
    let list := cs.next
    let (ci, cs1) ← compileExpr t it { cs with next := cs.next + 3 } b
    let head := b + ci.length + 3
    let (cb, cs2) ← compileStmts t (.plain true) body
      (cs1.bindEach (some i) x (list + 1) (list + 2)) (head + 9)
    .ok (ci ++ code [.storeLocal list, .const (.float (FloatModel.zero F)), .storeLocal (list + 1)]
      ++ eachShape head list (list + 1) (list + 2) cb ++ unitIf keep,
      cs2.unbindEach cs1 (some i) x (list + 2))
  | .ifThen c body, cs, b => do
    let k := if keep then .keep else mode.nested
    let (cc, cs) ← compileExpr t c cs b
    let (cb, cs) ← compileStmts t k body cs (b + cc.length + 1)
    if keep then
      -- a branch that leaves the body owes no value and no jump over the synthesized one
      if (body.getLast?.map stmtIsTerminator).getD false then
        .ok (thenShape b cc cb ++ code [.pushUnit], cs)
      else .ok (ifShape b cc cb (code [.pushUnit]), cs)
    else .ok (thenShape b cc cb, cs)
  | .ifElseBlock c body rest, cs, b => do
    let k := if keep then .keep else mode.nested
    let (cc, cs) ← compileExpr t c cs b
    let (cb, cs) ← compileStmts t k body cs (b + cc.length + 1)
    let (cr, cs) ← compileElse t k rest cs (b + cc.length + 1 + cb.length + 1)
    .ok (ifShape b cc cb cr, cs)
  | .match_ s arms, cs, b =>
    if mode.isValue then do
      let (c, cs) ← compileExpr t s cs b
      let (ca, cs) ← compileArms t .value .dup arms cs (b + c.length)
      .ok (c ++ ca ++ code [.pop], cs)
    else do
      let k := if keep then .keep else mode.nested
      let tmp := cs.next
      let (c, cs) ← compileExpr t s { cs with next := cs.next + 1 } b
      let (ca, cs) ← compileArms t k (.loadLocal tmp) arms cs (b + c.length + 1)
      .ok (c ++ code [.storeLocal tmp] ++ ca, cs)
  | .break_, cs, _ => .ok (if mode = .plain true then [.brk] else [], cs)
  | .continue_, cs, _ => .ok (if mode = .plain true then [.cont] else [], cs)
  | .memorize e priority, cs, b => do
    let (c, cs) ← compileExpr t e cs b
    .ok (c ++ code [.memorize priority] ++ unitIf keep, cs)
  | .forget e days, cs, b => do
    let (c, cs) ← compileExpr t e cs b
    .ok (c ++ code [.forget days] ++ unitIf keep, cs)
  | .relate src tgt relation, cs, b => do
    let (ca, cs) ← compileExpr t src cs b
    let (cb, cs) ← compileExpr t tgt cs (b + ca.length)
    .ok (ca ++ cb ++ code [.const (.string relation), .relate] ++ unitIf keep, cs)
end

/-- The compile-time state of a body: parameter `k` lives in slot `k`; a repeated name keeps its
last position, and the counter starts at the number of names.
mirrors src/compiler.rs:1894-1895 and the parameter binding of pass 2 -/
def CState.ofParams (params : List String) : CState where
  locals x := if x ∈ params then some (params.length - 1 - params.reverse.idxOf x) else none
  next := params.dedup.length
  muts := []
  fresh := false

/-- mirrors src/compiler.rs:1888-2331 -/
def compilePatternBody (t : Tables) (params : List String) (body : List (Stmt F)) :
    Except String (List (Instr F)) := do
  let (c, _) ← compileStmts t .top body (.ofParams params) 0
  .ok (c.map (·.resolve 0 0))

end Metalogos.Compile
