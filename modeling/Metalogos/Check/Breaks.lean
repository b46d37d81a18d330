import Metalogos.Walk.Signals

/-!
# The break gate

`break_outside_loop_violations` walks the bodies of a program with two flags: whether a loop is around (`inLoop`), and
whether a block whose value is wanted is around, inside that loop (`inValue`). It refuses the `break`s and `continue`s
whose signal would get to no loop. It does not visit the thresholds of comparison arms, nor the expressions of
declarations; the walk with `full := true` does. A run raises the error exactly when it gets to a statement that the
full walk refuses (`reached_of_raised`, `raised_of_reached`), so the gate holds of a run as long as that is none of
those that the code does not visit (`gate_iff`).

A report stands at the position of its statement (`Walk.sizeExpr` numbers the terms of the text). In the code it has no
line.
-/
namespace Metalogos.Check

open Metalogos.Lang Metalogos.Walk

variable {F W : Type}

/-! ## The walk -/

structure BreakReport where
  pos : Nat
  message : String
  deriving DecidableEq, Repr

/-- mirrors src/semantic.rs:329-364 -/
def breakReport (word place : String) (inLoop inValue : Bool) (p : Nat) : List BreakReport :=
  if inValue then
    [⟨p, word ++ " crosses the value channel (an arm body of a match/if-as-value) in " ++ place ++
      ": control signals cannot leave the value channel — keep the break/continue in the loop body " ++
      "(№658-a, REPAIRED by №673)"⟩]
  else if !inLoop then
    [⟨p, word ++ " outside any loop in " ++ place ++
      ": there is no enclosing each/while to exit or skip — use return (№658-b, REPAIRED by №673)"⟩]
  else []

mutual
/-- The arms of a block expression are walked as values.
mirrors src/semantic.rs:446-532 -/
def breakWalkExpr (full : Bool) (place : String) : Expr F → Bool → Nat → List BreakReport
  | .blockIfElse c body rest, inLoop, p =>
    breakWalkExpr full place c inLoop (p + 1) ++ breakWalkStmts full place body inLoop true (p + 1 + sizeExpr c) ++
      breakWalkElse full place rest inLoop true (p + 1 + sizeExpr c + sizeStmts body)
  | .matchExpr s arms, inLoop, p =>
    breakWalkExpr full place s inLoop (p + 1) ++ breakWalkArms full place arms inLoop true (p + 1 + sizeExpr s)
  | .fieldAccess e _, inLoop, p => breakWalkExpr full place e inLoop (p + 1)
  | .fnCall _ args _, inLoop, p => breakWalkExprs full place args inLoop (p + 1)
  | .qualifiedCall _ _ args, inLoop, p => breakWalkExprs full place args inLoop (p + 1)
  | .binaryOp l _ r, inLoop, p =>
    breakWalkExpr full place l inLoop (p + 1) ++ breakWalkExpr full place r inLoop (p + 1 + sizeExpr l)
  | .ifElse c t e, inLoop, p =>
    breakWalkExpr full place c inLoop (p + 1) ++ breakWalkExpr full place t inLoop (p + 1 + sizeExpr c) ++
      breakWalkExpr full place e inLoop (p + 1 + sizeExpr c + sizeExpr t)
  | .list items, inLoop, p => breakWalkExprs full place items inLoop (p + 1)
  | .indexAccess b i, inLoop, p =>
    breakWalkExpr full place b inLoop (p + 1) ++ breakWalkExpr full place i inLoop (p + 1 + sizeExpr b)
  | .structLit _ values, inLoop, p => breakWalkExprs full place values inLoop (p + 1)
  | .try_ e, inLoop, p => breakWalkExpr full place e inLoop (p + 1)
  | .provBind _ e, inLoop, p => breakWalkExpr full place e inLoop (p + 1)
  | .stringLit _, _, _ => []
  | .floatLit _, _, _ => []
  | .boolLit _, _, _ => []
  | .ident _, _, _ => []
  | .handleSource _, _, _ => []

def breakWalkExprs (full : Bool) (place : String) : List (Expr F) → Bool → Nat → List BreakReport
  | [], _, _ => []
  | e :: es, inLoop, p =>
    breakWalkExpr full place e inLoop p ++ breakWalkExprs full place es inLoop (p + sizeExpr e)

/-- The body of a loop is walked in a loop, the branches of an `if` or a `match` as their statement is.
mirrors src/semantic.rs:328-437 -/
def breakWalkStmt (full : Bool) (place : String) : Stmt F → Bool → Bool → Nat → List BreakReport
  | .break_, inLoop, inValue, p => breakReport "break" place inLoop inValue p
  | .continue_, inLoop, inValue, p => breakReport "continue" place inLoop inValue p
  | .each _ it body, inLoop, _, p =>
    breakWalkExpr full place it inLoop (p + 1) ++ breakWalkStmts full place body true false (p + 1 + sizeExpr it)
  | .eachWithIndex _ _ it body, inLoop, _, p =>
    breakWalkExpr full place it inLoop (p + 1) ++ breakWalkStmts full place body true false (p + 1 + sizeExpr it)
  | .while_ c body, inLoop, _, p =>
    breakWalkExpr full place c inLoop (p + 1) ++ breakWalkStmts full place body true false (p + 1 + sizeExpr c)
  | .ifElseBlock c body rest, inLoop, inValue, p =>
    breakWalkExpr full place c inLoop (p + 1) ++ breakWalkStmts full place body inLoop inValue (p + 1 + sizeExpr c) ++
      breakWalkElse full place rest inLoop inValue (p + 1 + sizeExpr c + sizeStmts body)
  | .ifThen c body, inLoop, inValue, p =>
    breakWalkExpr full place c inLoop (p + 1) ++ breakWalkStmts full place body inLoop inValue (p + 1 + sizeExpr c)
  | .match_ s arms, inLoop, inValue, p =>
    breakWalkExpr full place s inLoop (p + 1) ++ breakWalkArms full place arms inLoop inValue (p + 1 + sizeExpr s)
  | .letBinding _ e _, inLoop, _, p => breakWalkExpr full place e inLoop (p + 1)
  | .assign _ e, inLoop, _, p => breakWalkExpr full place e inLoop (p + 1)
  | .return_ e, inLoop, _, p => breakWalkExpr full place e inLoop (p + 1)
  | .exprStmt e, inLoop, _, p => breakWalkExpr full place e inLoop (p + 1)
  | .memorize e _, inLoop, _, p => breakWalkExpr full place e inLoop (p + 1)
  | .forget e _, inLoop, _, p => breakWalkExpr full place e inLoop (p + 1)
  | .relate a b _, inLoop, _, p =>
    breakWalkExpr full place a inLoop (p + 1) ++ breakWalkExpr full place b inLoop (p + 1 + sizeExpr a)

/-- mirrors src/semantic.rs:320-439 -/
def breakWalkStmts (full : Bool) (place : String) : List (Stmt F) → Bool → Bool → Nat → List BreakReport
  | [], _, _, _ => []
  | s :: ss, inLoop, inValue, p =>
    breakWalkStmt full place s inLoop inValue p ++ breakWalkStmts full place ss inLoop inValue (p + sizeStmt s)

/-- mirrors src/semantic.rs:387-393 and :457-463 -/
def breakWalkElse (full : Bool) (place : String) : ElseChain F → Bool → Bool → Nat → List BreakReport
  | .none, _, _, _ => []
  | .else_ body, inLoop, inValue, p => breakWalkStmts full place body inLoop inValue p
  | .elseIf c body rest, inLoop, inValue, p =>
    breakWalkExpr full place c inLoop p ++ breakWalkStmts full place body inLoop inValue (p + sizeExpr c) ++
      breakWalkElse full place rest inLoop inValue (p + sizeExpr c + sizeStmts body)

/-- The code walks `arm.body()` and not the threshold.
mirrors src/semantic.rs:408-413 and :472-477 -/
def breakWalkArms (full : Bool) (place : String) : MatchArms F → Bool → Bool → Nat → List BreakReport
  | .none, _, _, _ => []
  | .else_ body, inLoop, inValue, p => breakWalkStmts full place body inLoop inValue p
  | .lit _ body rest, inLoop, inValue, p =>
    breakWalkStmts full place body inLoop inValue p ++
      breakWalkArms full place rest inLoop inValue (p + sizeStmts body)
  | .compare _ th body rest, inLoop, inValue, p =>
    (if full then breakWalkExpr full place th inLoop p else []) ++
      breakWalkStmts full place body inLoop inValue (p + sizeExpr th) ++
      breakWalkArms full place rest inLoop inValue (p + sizeExpr th + sizeStmts body)
end

/-! ## Programs -/

inductive HookPhase where
  | beforePattern
  | afterPattern
  | onSessionStart
  | onWrite
  | onSessionEnd
  deriving DecidableEq, Repr

/-- `{:?}` -/
def HookPhase.debug : HookPhase → String
  | .beforePattern => "BeforePattern"
  | .afterPattern => "AfterPattern"
  | .onSessionStart => "OnSessionStart"
  | .onWrite => "OnWrite"
  | .onSessionEnd => "OnSessionEnd"

/-- What the evaluator gets: an expression, or statements in one block. -/
inductive Part (F : Type) where
  | expr (e : Expr F)
  | body (ss : List (Stmt F))

def Part.work (env : Env F) (muts : List String) : Part F → Work F
  | .expr e => .expr e env
  | .body ss => .stmts ss .unit env muts

def Part.walk (full : Bool) (place : String) : Part F → Nat → List BreakReport
  | .expr e, p => breakWalkExpr full place e false p
  | .body ss, p => breakWalkStmts full place ss false false p

/-- mirrors src/metalogos-server/src/server.rs:2807-2880 -/
def branchPart : Stmt F → Nat → Nat × Part F
  | .return_ e, p => (p + 1, .expr e)
  | .letBinding _ e _, p => (p + 1, .expr e)
  | .exprStmt e, p => (p + 1, .expr e)
  | s, p => (p, .body [s])

/-- The statements in the branch of a block `if` of a route come one by one. -/
def branchParts : List (Stmt F) → Nat → List (Nat × Part F)
  | [], _ => []
  | s :: ss, p => branchPart s p :: branchParts ss (p + sizeStmt s)

/-- mirrors src/metalogos-server/src/server.rs:2793-2805 -/
def elseParts : ElseChain F → Nat → List (Nat × Part F)
  | .none, _ => []
  | .else_ body, p => branchParts body p
  | .elseIf c body rest, p =>
    (p, .expr c) :: branchParts body (p + sizeExpr c) ++ elseParts rest (p + sizeExpr c + sizeStmts body)

/-- What the route executor hands to the evaluator for one statement of a route.
mirrors src/metalogos-server/src/server.rs:2727-2919 -/
def stmtParts : Stmt F → Nat → List (Nat × Part F)
  | .letBinding _ e _, p => [(p + 1, .expr e)]
  | .assign _ e, p => [(p + 1, .expr e)]
  | .return_ e, p => [(p + 1, .expr e)]
  | .ifThen c body, p => [(p + 1, .expr c), (p + 1 + sizeExpr c, .body body)]
  | .ifElseBlock c body rest, p =>
    (p + 1, .expr c) :: branchParts body (p + 1 + sizeExpr c) ++ elseParts rest (p + 1 + sizeExpr c + sizeStmts body)
  | .exprStmt e, p => [(p + 1, .expr e)]
  | s, p => [(p, .body [s])]

def routeParts : List (Stmt F) → Nat → List (Nat × Part F)
  | [], _ => []
  | s :: ss, p => stmtParts s p ++ routeParts ss (p + sizeStmt s)

structure NamedBody (F : Type) where
  name : String
  body : List (Stmt F)

/-- The declarations with a body, and those with expressions that the evaluator gets: of a rule also the two sides of
its condition, of a flow the thresholds of its branches. A route is named by its path.
mirrors src/ast.rs:74-160 -/
inductive Declaration (F : Type) where
  | pattern (name : String) (body : List (Stmt F))
  | tool (name : String) (methods : List (NamedBody F))
  | mlogServer (routes : List (NamedBody F))
  | hook (phase : HookPhase) (body : List (Stmt F))
  | onDeny (cls : String) (body : List (Stmt F))
  | test (name : String) (body : List (Stmt F))
  | db (url : Option (Expr F))
  | entityType (defaults : List (Option (Expr F)))
  | entityRecord (fields : List (Expr F))
  | entitySimple (value : Expr F)
  | rule (left right target value : Expr F)
  | fluid (variants : List (Expr F))
  | adapt (inputExample outputExample : Expr F)
  | relate (source target : Expr F)
  | mutate (newExamples : List (Expr F × Expr F))
  | memorize (value : Expr F)
  | forget (query : Expr F)
  | learnable (context : Option (Expr F))
  | flow (source : Expr F) (thresholds : List (Expr F))
  | other

/-- The bodies with their places.
mirrors src/semantic.rs:543-572 -/
def Declaration.bodies : Declaration F → List (NamedBody F)
  | .pattern name body => [⟨"pattern '" ++ name ++ "'", body⟩]
  | .tool name methods => methods.map fun m => ⟨"tool '" ++ name ++ "' method '" ++ m.name ++ "'", m.body⟩
  | .mlogServer routes => routes.map fun r => ⟨"route '" ++ r.name ++ "'", r.body⟩
  | .hook phase body => [⟨"hook '" ++ phase.debug ++ "'", body⟩]
  | .onDeny cls body => [⟨"on_deny('" ++ cls ++ "')", body⟩]
  | .test name body => [⟨"test '" ++ name ++ "'", body⟩]
  | _ => []

/-- mirrors src/semantic.rs:540-611 -/
def breakOutsideLoopViolations (decls : List (Declaration F)) : List BreakReport :=
  decls.flatMap fun d => d.bodies.flatMap fun b => breakWalkStmts false b.name b.body false false 0

/-- mirrors src/interpreter/execution.rs:85-226, mod.rs:525-533, db.rs:122, flow.rs:33-83,303,360, learnable.rs:144 -/
def Declaration.exprs : Declaration F → List (Expr F)
  | .db url => url.toList
  | .entityType defaults => defaults.flatMap Option.toList
  | .entityRecord fields => fields
  | .entitySimple value => [value]
  | .rule left right target value => [left, right, target, value]
  | .fluid variants => variants
  | .adapt input output => [input, output]
  | .relate source target => [source, target]
  | .mutate examples => examples.flatMap fun e => [e.1, e.2]
  | .memorize value => [value]
  | .forget query => [query]
  | .learnable context => context.toList
  | .flow source thresholds => source :: thresholds
  | _ => []

/-- A part of a program: where it stands in its body, and whether the code walks it. -/
structure Piece (F : Type) where
  place : String
  walked : Bool
  pos : Nat
  part : Part F

/-- What is refused in a piece. -/
def Piece.reports (full : Bool) (x : Piece F) : List BreakReport :=
  if x.walked || full then x.part.walk full x.place x.pos else []

def bodyPieces (isRoute : Bool) (b : NamedBody F) : List (Piece F) :=
  if isRoute then (routeParts b.body 0).map fun x => ⟨b.name, true, x.1, x.2⟩
  else [⟨b.name, true, 0, .body b.body⟩]

def Declaration.isServer : Declaration F → Bool
  | .mlogServer _ => true
  | _ => false

/-- Everything of a declaration that the evaluator ever gets. -/
def Declaration.pieces (d : Declaration F) : List (Piece F) :=
  d.bodies.flatMap (bodyPieces d.isServer) ++ d.exprs.map fun e => ⟨"", false, 0, .expr e⟩

def pieces (decls : List (Declaration F)) : List (Piece F) := decls.flatMap Declaration.pieces

/-! ## The parts of a route -/

section

variable (full : Bool) (place : String)

def walkParts (xs : List (Nat × Part F)) : List BreakReport := xs.flatMap fun x => x.2.walk full place x.1

theorem branchParts_walk (ss : List (Stmt F)) (p : Nat) :
    walkParts full place (branchParts ss p) = breakWalkStmts full place ss false false p := by
  induction ss generalizing p with
  | nil => rfl
  | cons s ss ih =>
    rw [branchParts, breakWalkStmts, ← ih]
    unfold walkParts
    rw [List.flatMap_cons]
    congr 1
    cases s <;> simp [branchPart, Part.walk, breakWalkStmt, breakWalkStmts]

theorem elseParts_walk (rest : ElseChain F) (p : Nat) :
    walkParts full place (elseParts rest p) = breakWalkElse full place rest false false p := by
  fun_induction elseParts rest p with
  | case1 => rfl
  | case2 body p => exact branchParts_walk full place body p
  | case3 c body rest p ih =>
    rw [breakWalkElse, ← ih, ← branchParts_walk full place body]
    simp [walkParts, Part.walk]

theorem stmtParts_walk (s : Stmt F) (p : Nat) :
    walkParts full place (stmtParts s p) = breakWalkStmt full place s false false p := by
  cases s with
  | ifElseBlock c body rest =>
    rw [stmtParts, breakWalkStmt, ← elseParts_walk full place rest, ← branchParts_walk full place body]
    simp [walkParts, Part.walk]
  | _ => simp [stmtParts, walkParts, Part.walk, breakWalkStmt, breakWalkStmts]

theorem routeParts_walk (ss : List (Stmt F)) (p : Nat) :
    walkParts full place (routeParts ss p) = breakWalkStmts full place ss false false p := by
  induction ss generalizing p with
  | nil => rfl
  | cons s ss ih =>
    rw [routeParts, breakWalkStmts, ← ih, ← stmtParts_walk]
    simp [walkParts]

end

theorem bodyPieces_reports (isRoute : Bool) (b : NamedBody F) :
    (bodyPieces isRoute b).flatMap (Piece.reports false) = breakWalkStmts false b.name b.body false false 0 := by
  cases isRoute with
  | false => simp [bodyPieces, Piece.reports, Part.walk]
  | true =>
    rw [← routeParts_walk]
    simp [bodyPieces, Piece.reports, walkParts, List.flatMap_map]

theorem declaration_reports (d : Declaration F) :
    d.pieces.flatMap (Piece.reports false) = d.bodies.flatMap fun b => breakWalkStmts false b.name b.body false false 0 := by
  unfold Declaration.pieces
  rw [List.flatMap_append, List.flatMap_assoc]
  simp [bodyPieces_reports, Piece.reports, List.flatMap_map]

/-- The code refuses what it refuses in the pieces. -/
theorem violations_pieces (decls : List (Declaration F)) :
    breakOutsideLoopViolations decls = (pieces decls).flatMap (Piece.reports false) := by
  unfold breakOutsideLoopViolations pieces
  rw [List.flatMap_assoc]
  simp only [declaration_reports]

/-! ## Where the reports stand -/

/-- The reports of the text from `p` to `q`. -/
def Inside (p q : Nat) (rs : List BreakReport) : Prop := ∀ x ∈ rs, p ≤ x.pos ∧ x.pos < q

namespace Inside

variable {p q r : Nat} {rs rs' : List BreakReport}

theorem nil : Inside p q [] := by
  intro x hx
  cases hx

theorem widen {p' q' : Nat} (h : Inside p q rs) (hp : p' ≤ p) (hq : q ≤ q') : Inside p' q' rs := by
  intro x hx
  have := h x hx
  omega

theorem append (h : Inside p q rs) (h' : Inside q r rs') (hpq : p ≤ q) (hqr : q ≤ r) : Inside p r (rs ++ rs') := by
  intro x hx
  rcases List.mem_append.1 hx with hx | hx
  · have := h x hx
    omega
  · have := h' x hx
    omega

end Inside

theorem breakReport_inside (word place : String) (inLoop inValue : Bool) (p : Nat) :
    Inside p (p + 1) (breakReport word place inLoop inValue p) := by
  intro x hx
  cases inLoop <;> cases inValue <;> simp [breakReport] at hx <;> subst hx <;> simp

section

variable (full : Bool) (place : String)

mutual
theorem breakWalkExpr_inside : ∀ (e : Expr F) (l : Bool) (p : Nat),
    Inside p (p + sizeExpr e) (breakWalkExpr full place e l p)
  | .blockIfElse c body rest, l, p =>
    (((breakWalkExpr_inside c l (p + 1)).append (breakWalkStmts_inside body l true _) (by omega) (by omega)).append
      (breakWalkElse_inside rest l true _) (by omega) (by omega)).widen (by omega) (by simp only [sizeExpr]; omega)
  | .matchExpr s arms, l, p =>
    ((breakWalkExpr_inside s l (p + 1)).append (breakWalkArms_inside arms l true _) (by omega) (by omega)).widen
      (by omega) (by simp only [sizeExpr]; omega)
  | .fieldAccess e _, l, p => (breakWalkExpr_inside e l (p + 1)).widen (by omega) (by simp only [sizeExpr]; omega)
  | .fnCall _ args _, l, p =>
    (breakWalkExprs_inside args l (p + 1)).widen (by omega) (by simp only [sizeExpr]; omega)
  | .qualifiedCall _ _ args, l, p =>
    (breakWalkExprs_inside args l (p + 1)).widen (by omega) (by simp only [sizeExpr]; omega)
  | .binaryOp a _ b, l, p =>
    ((breakWalkExpr_inside a l (p + 1)).append (breakWalkExpr_inside b l _) (by omega) (by omega)).widen (by omega)
      (by simp only [sizeExpr]; omega)
  | .ifElse c t e, l, p =>
    (((breakWalkExpr_inside c l (p + 1)).append (breakWalkExpr_inside t l _) (by omega) (by omega)).append
      (breakWalkExpr_inside e l _) (by omega) (by omega)).widen (by omega) (by simp only [sizeExpr]; omega)
  | .list items, l, p => (breakWalkExprs_inside items l (p + 1)).widen (by omega) (by simp only [sizeExpr]; omega)
  | .indexAccess b i, l, p =>
    ((breakWalkExpr_inside b l (p + 1)).append (breakWalkExpr_inside i l _) (by omega) (by omega)).widen (by omega)
      (by simp only [sizeExpr]; omega)
  | .structLit _ values, l, p =>
    (breakWalkExprs_inside values l (p + 1)).widen (by omega) (by simp only [sizeExpr]; omega)
  | .try_ e, l, p => (breakWalkExpr_inside e l (p + 1)).widen (by omega) (by simp only [sizeExpr]; omega)
  | .provBind _ e, l, p => (breakWalkExpr_inside e l (p + 1)).widen (by omega) (by simp only [sizeExpr]; omega)
  | .stringLit _, _, _ => .nil
  | .floatLit _, _, _ => .nil
  | .boolLit _, _, _ => .nil
  | .ident _, _, _ => .nil
  | .handleSource _, _, _ => .nil

theorem breakWalkExprs_inside : ∀ (es : List (Expr F)) (l : Bool) (p : Nat),
    Inside p (p + sizeExprs es) (breakWalkExprs full place es l p)
  | [], _, _ => .nil
  | e :: es, l, p =>
    ((breakWalkExpr_inside e l p).append (breakWalkExprs_inside es l _) (by omega) (by omega)).widen (by omega)
      (by simp only [sizeExprs]; omega)

theorem breakWalkStmt_inside : ∀ (s : Stmt F) (l v : Bool) (p : Nat),
    Inside p (p + sizeStmt s) (breakWalkStmt full place s l v p)
  | .break_, _, _, _ => breakReport_inside _ _ _ _ _
  | .continue_, _, _, _ => breakReport_inside _ _ _ _ _
  | .each _ it body, l, _, p =>
    ((breakWalkExpr_inside it l (p + 1)).append (breakWalkStmts_inside body true false _) (by omega) (by omega)).widen
      (by omega) (by simp only [sizeStmt]; omega)
  | .eachWithIndex _ _ it body, l, _, p =>
    ((breakWalkExpr_inside it l (p + 1)).append (breakWalkStmts_inside body true false _) (by omega) (by omega)).widen
      (by omega) (by simp only [sizeStmt]; omega)
  | .while_ c body, l, _, p =>
    ((breakWalkExpr_inside c l (p + 1)).append (breakWalkStmts_inside body true false _) (by omega) (by omega)).widen
      (by omega) (by simp only [sizeStmt]; omega)
  | .ifElseBlock c body rest, l, v, p =>
    (((breakWalkExpr_inside c l (p + 1)).append (breakWalkStmts_inside body l v _) (by omega) (by omega)).append
      (breakWalkElse_inside rest l v _) (by omega) (by omega)).widen (by omega) (by simp only [sizeStmt]; omega)
  | .ifThen c body, l, v, p =>
    ((breakWalkExpr_inside c l (p + 1)).append (breakWalkStmts_inside body l v _) (by omega) (by omega)).widen
      (by omega) (by simp only [sizeStmt]; omega)
  | .match_ s arms, l, v, p =>
    ((breakWalkExpr_inside s l (p + 1)).append (breakWalkArms_inside arms l v _) (by omega) (by omega)).widen
      (by omega) (by simp only [sizeStmt]; omega)
  | .letBinding _ e _, l, _, p =>
    (breakWalkExpr_inside e l (p + 1)).widen (by omega) (by simp only [sizeStmt]; omega)
  | .assign _ e, l, _, p => (breakWalkExpr_inside e l (p + 1)).widen (by omega) (by simp only [sizeStmt]; omega)
  | .return_ e, l, _, p => (breakWalkExpr_inside e l (p + 1)).widen (by omega) (by simp only [sizeStmt]; omega)
  | .exprStmt e, l, _, p => (breakWalkExpr_inside e l (p + 1)).widen (by omega) (by simp only [sizeStmt]; omega)
  | .memorize e _, l, _, p => (breakWalkExpr_inside e l (p + 1)).widen (by omega) (by simp only [sizeStmt]; omega)
  | .forget e _, l, _, p => (breakWalkExpr_inside e l (p + 1)).widen (by omega) (by simp only [sizeStmt]; omega)
  | .relate a b _, l, _, p =>
    ((breakWalkExpr_inside a l (p + 1)).append (breakWalkExpr_inside b l _) (by omega) (by omega)).widen (by omega)
      (by simp only [sizeStmt]; omega)

theorem breakWalkStmts_inside : ∀ (ss : List (Stmt F)) (l v : Bool) (p : Nat),
    Inside p (p + sizeStmts ss) (breakWalkStmts full place ss l v p)
  | [], _, _, _ => .nil
  | s :: ss, l, v, p =>
    ((breakWalkStmt_inside s l v p).append (breakWalkStmts_inside ss l v _) (by omega) (by omega)).widen (by omega)
      (by simp only [sizeStmts]; omega)

theorem breakWalkElse_inside : ∀ (rest : ElseChain F) (l v : Bool) (p : Nat),
    Inside p (p + sizeElse rest) (breakWalkElse full place rest l v p)
  | .none, _, _, _ => .nil
  | .else_ body, l, v, p => breakWalkStmts_inside body l v p
  | .elseIf c body rest, l, v, p =>
    (((breakWalkExpr_inside c l p).append (breakWalkStmts_inside body l v _) (by omega) (by omega)).append
      (breakWalkElse_inside rest l v _) (by omega) (by omega)).widen (by omega) (by simp only [sizeElse]; omega)

theorem breakWalkArms_inside : ∀ (arms : MatchArms F) (l v : Bool) (p : Nat),
    Inside p (p + sizeArms arms) (breakWalkArms full place arms l v p)
  | .none, _, _, _ => .nil
  | .else_ body, l, v, p => breakWalkStmts_inside body l v p
  | .lit _ body rest, l, v, p =>
    ((breakWalkStmts_inside body l v p).append (breakWalkArms_inside rest l v _) (by omega) (by omega)).widen
      (by omega) (by simp only [sizeArms]; omega)
  | .compare _ th body rest, l, v, p => by
    have hth : Inside p (p + sizeExpr th) (if full then breakWalkExpr full place th l p else []) := by
      split_ifs
      · exact breakWalkExpr_inside th l p
      · exact .nil
    exact ((hth.append (breakWalkStmts_inside body l v _) (by omega) (by omega)).append
      (breakWalkArms_inside rest l v _) (by omega) (by omega)).widen (by omega) (by simp only [sizeArms]; omega)
end

end

/-! ## The flags along a run -/

/-- What the walk with these flags refuses in the text of an evaluation. -/
def workReports (full : Bool) (place : String) (l v : Bool) : Work F → Nat → List BreakReport
  | .expr e _, p => breakWalkExpr full place e l p
  | .exprs es _, p => breakWalkExprs full place es l p
  | .callArgs _ es _, p => breakWalkExprs full place es l p
  | .stmt s _ _, p => breakWalkStmt full place s l v p
  | .stmts ss _ _ _, p => breakWalkStmts full place ss l v p
  | .chain rest _ _, p => breakWalkElse full place rest l v p
  | .arms arms _ _ _, p => breakWalkArms full place arms l v p
  | .eachLoop _ body _ _ _ _, p => breakWalkStmts full place body true false p
  | .whileLoop cnd body _ _ _, p =>
    breakWalkExpr full place cnd l p ++ breakWalkStmts full place body true false (p + sizeExpr cnd)

def loops : Work F → Bool
  | .eachLoop _ _ _ _ _ _ => true
  | .whileLoop _ _ _ _ _ => true
  | _ => false

/-- The flags with which the walk enters `t`, which `s` starts. -/
def inLoopAt (s t : Work F) (l : Bool) : Bool := l || loops s && t.isBlock

def inValueAt (s t : Work F) (v : Bool) : Bool := if t.isBlock then s.isExpr || v && !loops s else v

theorem flags_block {s : Work F} (h : s.isBlock = true) (t : Work F) (l v : Bool) :
    inLoopAt s t l = l ∧ inValueAt s t v = v := by
  have hloops : loops s = false := by cases s <;> first | rfl | cases h
  have hexpr : s.isExpr = false := by cases s <;> first | rfl | cases h
  constructor
  · simp [inLoopAt, hloops]
  · simp [inValueAt, hloops, hexpr]

variable [FloatModel F] {c : Interpreter F W} {place : String}

/-- What the full walk refuses in what is started, it refuses. -/
theorem calls_reports {s t : Eval F W} (h : Calls c s t) (l v : Bool) {x : BreakReport}
    (hx : x ∈ workReports true place (inLoopAt s.work t.work l) (inValueAt s.work t.work v) t.work t.pos) :
    x ∈ workReports true place l v s.work s.pos := by
  cases h <;>
    simp only [workReports, inLoopAt, inValueAt, loops, Work.isBlock, Work.isExpr, breakWalkExpr, breakWalkExprs,
      breakWalkStmt, breakWalkStmts, breakWalkElse, breakWalkArms, List.mem_append, Bool.and_true, Bool.and_false,
      Bool.or_false, Bool.or_true, Bool.true_or, Bool.false_or, Bool.not_true, Bool.not_false, if_true] at hx ⊢ <;>
    tauto

/-- Of what is refused, what stands in the text of something started is refused there. -/
theorem reports_calls (full : Bool) {s t : Eval F W} (h : Calls c s t) (l v : Bool) {x : BreakReport}
    (hx : x ∈ workReports full place l v s.work s.pos) (hpos : t.pos ≤ x.pos) (hstop : x.pos < t.stop) :
    x ∈ workReports full place (inLoopAt s.work t.work l) (inValueAt s.work t.work v) t.work t.pos := by
  have hexpr := fun (e : Expr F) l p => breakWalkExpr_inside full place e l p x
  have hexprs := fun (es : List (Expr F)) l p => breakWalkExprs_inside full place es l p x
  have hstmt := fun (s : Stmt F) l v p => breakWalkStmt_inside full place s l v p x
  have hstmts := fun (ss : List (Stmt F)) l v p => breakWalkStmts_inside full place ss l v p x
  have helse := fun (rest : ElseChain F) l v p => breakWalkElse_inside full place rest l v p x
  have harms := fun (arms : MatchArms F) l v p => breakWalkArms_inside full place arms l v p x
  have hth : ∀ rs : List BreakReport, x ∈ (if full = true then rs else []) → x ∈ rs := by
    intro rs h
    split_ifs at h
    · exact h
    · cases h
  unfold Eval.stop at hstop
  cases h <;>
    simp only [workReports, inLoopAt, inValueAt, loops, Work.isBlock, Work.isExpr, Work.size, breakWalkExpr,
      breakWalkExprs, breakWalkStmt, breakWalkStmts, breakWalkElse, breakWalkArms, List.mem_append, Bool.and_true,
      Bool.and_false, Bool.or_false, Bool.or_true, Bool.true_or, Bool.false_or, Bool.not_true, Bool.not_false, if_true]
      at hx hpos hstop ⊢
  -- a report that does not stand in `t` stands in another part of `s`
  all_goals first
    | exact hx
    | (refine hx.elim (fun hx => ?_) fun hx => ?_) <;> (try refine hx.elim (fun hx => ?_) fun hx => ?_) <;> first
      | exact hx
      | exact hth _ hx
      | (have hin := hexpr _ _ _ hx; omega)
      | (have hin := hexpr _ _ _ (hth _ hx); omega)
      | (have hin := hexprs _ _ _ hx; omega)
      | (have hin := hstmt _ _ _ _ hx; omega)
      | (have hin := hstmts _ _ _ _ hx; omega)
      | (have hin := helse _ _ _ _ hx; omega)
      | (have hin := harms _ _ _ _ hx; omega)

variable (c place) in
/-- An evaluation of the run from `r`, and the flags with which the walk passes it. -/
structure Placed (r s : Eval F W) (l v : Bool) : Prop where
  reach : Reaches c r s
  inside : ∀ x ∈ workReports true place l v s.work s.pos, x ∈ workReports true place false false r.work r.pos
  covers : ∀ full, ∀ x ∈ workReports full place false false r.work r.pos, s.pos ≤ x.pos → x.pos < s.stop →
    x ∈ workReports full place l v s.work s.pos
  block : s.work.isBlock = true → (v || !l) = true → ∃ b, Boundary c r b ∧ Follows c b s

theorem Placed.start (r : Eval F W) : Placed c place r r false false where
  reach := .refl
  inside _ hx := hx
  covers _ _ hx _ _ := hx
  block hb _ := ⟨r, ⟨hb, .inl rfl⟩, .refl⟩

theorem Placed.step {r s t : Eval F W} {l v : Bool} (hs : Placed c place r s l v) (h : Calls c s t) :
    Placed c place r t (inLoopAt s.work t.work l) (inValueAt s.work t.work v) where
  reach := hs.reach.tail h
  inside x hx := hs.inside x (calls_reports h l v hx)
  covers full x hx hpos hstop := by
    obtain ⟨hlow, hhigh⟩ := h.span
    exact reports_calls full h l v (hs.covers full x hx (by omega) (by omega)) hpos hstop
  block ht hflags := by
    by_cases hb : s.work.isBlock = true
    · rw [(flags_block hb t.work l v).1, (flags_block hb t.work l v).2] at hflags
      obtain ⟨b, hbound, hfollows⟩ := hs.block hb hflags
      exact ⟨b, hbound, hfollows.tail ⟨h, hb, ht⟩⟩
    · by_cases he : s.work.isExpr = true
      · exact ⟨t, ⟨ht, .inr ⟨s, hs.reach, he, h⟩⟩, .refl⟩
      · have hl : loops s.work = true := by
          cases h <;> first | rfl | exact absurd rfl hb | exact absurd rfl he | cases ht
        simp [inLoopAt, inValueAt, ht, hl, he] at hflags

variable (place) in
theorem placed_of_reaches {r s : Eval F W} (h : Reaches c r s) : ∃ l v, Placed c place r s l v := by
  induction h with
  | refl => exact ⟨false, false, .start r⟩
  | tail _ hcall ih =>
    obtain ⟨l, v, hs⟩ := ih
    exact ⟨_, _, hs.step hcall⟩

/-- The flags stay as they are on the way to the statement that signals. -/
theorem follows_reports {s t : Eval F W} (h : Follows c s t) (l v : Bool) {x : BreakReport}
    (hx : x ∈ workReports true place l v t.work t.pos) : x ∈ workReports true place l v s.work s.pos := by
  induction h with
  | refl => exact hx
  | tail _ hstep ih =>
    obtain ⟨hcall, hs, -⟩ := hstep
    refine ih (calls_reports hcall l v ?_)
    rw [(flags_block hs _ l v).1, (flags_block hs _ l v).2]
    exact hx

omit [FloatModel F] in
/-- A `break` is refused under the flags from which its signal gets to no loop. -/
theorem signal_refused (place : String) {u : Eval F W} (hu : u.work.isSignal = true) (full l v : Bool) :
    (∃ x ∈ workReports full place l v u.work u.pos, x.pos = u.pos) ↔ (v || !l) = true := by
  obtain ⟨p, work, w⟩ := u
  cases work with
  | stmt s env muts =>
    cases s with
    | break_ => cases l <;> cases v <;> simp [workReports, breakWalkStmt, breakReport]
    | continue_ => cases l <;> cases v <;> simp [workReports, breakWalkStmt, breakReport]
    | _ => cases hu
  | _ => cases hu

omit [FloatModel F] in
theorem signal_block {u : Eval F W} (hu : u.work.isSignal = true) : u.work.isBlock = true ∧ u.stop = u.pos + 1 := by
  obtain ⟨p, work, w⟩ := u
  cases work with
  | stmt s env muts =>
    cases s with
    | break_ => exact ⟨rfl, rfl⟩
    | continue_ => exact ⟨rfl, rfl⟩
    | _ => cases hu
  | _ => cases hu

/-- A run that raises the error got to a statement that the full walk refuses. -/
theorem reached_of_raised (place : String) {r b : Eval F W} (h : RaisedAt c r b) :
    ∃ u, Reaches c r u ∧ u.work.isSignal = true ∧
      ∃ x ∈ workReports true place false false r.work r.pos, x.pos = u.pos := by
  obtain ⟨u, hfollows, hu⟩ := signals_iff.1 h.signals
  have hplaced : ∃ l v, (v || !l) = true ∧ Placed c place r b l v := by
    obtain ⟨hb, rfl | ⟨s, hreach, he, hcall⟩⟩ := h.boundary
    · exact ⟨false, false, rfl, .start b⟩
    · obtain ⟨l, v, hs⟩ := placed_of_reaches place hreach
      refine ⟨_, _, ?_, hs.step hcall⟩
      simp [inValueAt, hb, he]
  obtain ⟨l, v, hflags, hplaced⟩ := hplaced
  obtain ⟨x, hx, hpos⟩ := (signal_refused place hu true l v).2 hflags
  exact ⟨u, h.boundary.reaches.trans hfollows.reaches, hu, x, hplaced.inside x (follows_reports hfollows l v hx), hpos⟩

/-- A run that gets to a refused statement raises the error there. -/
theorem raised_of_reached {full : Bool} {r u : Eval F W} (h : Reaches c r u) (hu : u.work.isSignal = true)
    {x : BreakReport} (hx : x ∈ workReports full place false false r.work r.pos) (hpos : x.pos = u.pos) :
    ∃ b, RaisedAt c r b ∧ Reaches c b u := by
  obtain ⟨l, v, hplaced⟩ := placed_of_reaches place h
  obtain ⟨hblock, hstop⟩ := signal_block hu
  have hmem := hplaced.covers full x hx (by omega) (by omega)
  obtain ⟨b, hbound, hfollows⟩ := hplaced.block hblock ((signal_refused place hu full l v).1 ⟨x, hmem, hpos⟩)
  exact ⟨b, ⟨hbound, signals_iff.2 ⟨u, hfollows, hu⟩⟩, hfollows.reaches⟩

/-! ## The gate -/

/-- The evaluation of a piece of the program, in any environment and world. -/
structure Run (decls : List (Declaration F)) (W : Type) where
  piece : Piece F
  declared : piece ∈ pieces decls
  env : Env F
  muts : List String
  world : W

namespace Run

variable {decls : List (Declaration F)}

omit [FloatModel F]

def start (r : Run decls W) : Eval F W := ⟨r.piece.pos, r.piece.part.work r.env r.muts, r.world⟩

/-- `u` is a `break` or a `continue` that the walk refuses. -/
def Refused (full : Bool) (r : Run decls W) (u : Eval F W) : Prop :=
  u.work.isSignal = true ∧ ∃ x ∈ r.piece.reports full, x.pos = u.pos

theorem walk_start (full : Bool) (r : Run decls W) :
    r.piece.part.walk full r.piece.place r.piece.pos =
      workReports full r.piece.place false false r.start.work r.start.pos := by
  unfold start
  cases r.piece.part <;> rfl

theorem mem_start {full : Bool} {r : Run decls W} {x : BreakReport} (hx : x ∈ r.piece.reports full) :
    x ∈ workReports full r.piece.place false false r.start.work r.start.pos := by
  unfold Piece.reports at hx
  split_ifs at hx
  · rw [← walk_start]
    exact hx
  · cases hx

theorem not_refused (h : breakOutsideLoopViolations decls = []) (r : Run decls W) (u : Eval F W) :
    ¬ r.Refused false u := by
  rintro ⟨-, x, hx, -⟩
  rw [violations_pieces, List.flatMap_eq_nil_iff] at h
  rw [h r.piece r.declared] at hx
  cases hx

end Run

/-- If nothing is refused, the run does not raise the error; and where it gets to a refused statement, it does. -/
structure Run.Gate (c : Interpreter F W) {decls : List (Declaration F)} (r : Run decls W) : Prop where
  sound : breakOutsideLoopViolations decls = [] → ∀ b, ¬ RaisedAt c r.start b
  complete : ∀ u, Reaches c r.start u → r.Refused false u → ∃ b, RaisedAt c r.start b ∧ Reaches c b u

/-- The gate holds of a run exactly if, in a program in which nothing is refused, the run gets to no statement that the
full walk refuses and the code's walk does not. -/
theorem gate_iff (c : Interpreter F W) (decls : List (Declaration F)) (r : Run decls W) :
    r.Gate c ↔ (breakOutsideLoopViolations decls = [] →
      ∀ u, Reaches c r.start u → r.Refused true u → r.Refused false u) := by
  constructor
  · intro hgate hnone u hreach hrefused
    obtain ⟨hu, x, hx, hpos⟩ := hrefused
    obtain ⟨b, hraised, -⟩ := raised_of_reached hreach hu (Run.mem_start hx) hpos
    exact absurd hraised (hgate.sound hnone b)
  · intro h
    constructor
    · intro hnone b hraised
      obtain ⟨u, hreach, hu, x, hx, hpos⟩ := reached_of_raised r.piece.place hraised
      have hfull : x ∈ r.piece.reports true := by
        rw [← Run.walk_start] at hx
        simpa [Piece.reports] using hx
      exact Run.not_refused hnone r u (h hnone u hreach ⟨hu, x, hfull, hpos⟩)
    · rintro u hreach ⟨hu, x, hx, hpos⟩
      exact raised_of_reached hreach hu (Run.mem_start hx) hpos

namespace Sample

/-- `match 1 { > if true { break } then { } }` -/
def breakInThreshold : List (Stmt Int) :=
  [.match_ (.floatLit 1) (.compare .gt (.blockIfElse (.boolLit true) [.break_] .none) [] .none)]

def hiddenBreak : List (Declaration Int) := [.pattern "p" breakInThreshold]

def hiddenRun : Run hiddenBreak Unit where
  piece := ⟨"pattern 'p'", true, 0, .body breakInThreshold⟩
  declared := by simp [pieces, hiddenBreak, Declaration.pieces, Declaration.bodies, Declaration.isServer, bodyPieces]
  env := fun _ => none
  muts := []
  world := ()

end Sample

theorem gate_missed : ¬ ∀ (c : Interpreter Int Unit) (decls : List (Declaration Int)) (r : Run decls Unit),
    r.Gate c := by
  intro h
  have hblock : Calls noCallees
      ⟨2, .expr (.blockIfElse (.boolLit true) [.break_] .none) fun _ => none, ()⟩
      (⟨4, .stmts [.break_] .unit (fun _ => none) [], ()⟩ : Eval Int Unit) := .blockThen rfl rfl
  have hreach : Reaches noCallees Sample.hiddenRun.start
      ⟨2, .expr (.blockIfElse (.boolLit true) [.break_] .none) fun _ => none, ()⟩ :=
    .head .first (.head (.arms rfl) (.head .threshold .refl))
  exact (h noCallees Sample.hiddenBreak Sample.hiddenRun).sound (by decide) _
    ⟨⟨rfl, .inr ⟨_, hreach, rfl, hblock⟩⟩, _, _, _, rfl, rfl⟩

end Metalogos.Check
