import Metalogos.Walk.Eval
import Mathlib.Logic.Relation

/-!
# What a run reaches

`Calls` holds between an evaluation and one that it starts: same interpreter, the sub-term, the environment, the
mutable names and the world at that moment. `Reaches` is its closure, so that a statement about every `t` with
`Reaches c s t` is a statement about every point of the run from `s`, in any iteration of any loop and after any
branches. An evaluation carries the position of its term in the text: terms are numbered in the order of the text,
a term before its parts, and `size` is how many numbers a term takes. An assignment has one more behind its value.
-/
namespace Metalogos.Walk

open Metalogos.Lang Metalogos.Lib

variable {F W : Type}

/-! ## Positions -/

mutual
def sizeExpr : Expr F → Nat
  | .stringLit _ => 1
  | .floatLit _ => 1
  | .boolLit _ => 1
  | .ident _ => 1
  | .fieldAccess e _ => 1 + sizeExpr e
  | .fnCall _ args _ => 1 + sizeExprs args
  | .qualifiedCall _ _ args => 1 + sizeExprs args
  | .binaryOp l _ r => 1 + sizeExpr l + sizeExpr r
  | .ifElse c t e => 1 + sizeExpr c + sizeExpr t + sizeExpr e
  | .list items => 1 + sizeExprs items
  | .indexAccess b i => 1 + sizeExpr b + sizeExpr i
  | .structLit _ values => 1 + sizeExprs values
  | .blockIfElse c body rest => 1 + sizeExpr c + sizeStmts body + sizeElse rest
  | .matchExpr s arms => 1 + sizeExpr s + sizeArms arms
  | .try_ e => 1 + sizeExpr e
  | .handleSource _ => 1
  | .provBind _ e => 1 + sizeExpr e

def sizeExprs : List (Expr F) → Nat
  | [] => 0
  | e :: es => sizeExpr e + sizeExprs es

def sizeStmt : Stmt F → Nat
  | .letBinding _ e _ => 1 + sizeExpr e
  | .assign _ e => 2 + sizeExpr e
  | .each _ it body => 1 + sizeExpr it + sizeStmts body
  | .eachWithIndex _ _ it body => 1 + sizeExpr it + sizeStmts body
  | .while_ c body => 1 + sizeExpr c + sizeStmts body
  | .ifElseBlock c body rest => 1 + sizeExpr c + sizeStmts body + sizeElse rest
  | .ifThen c body => 1 + sizeExpr c + sizeStmts body
  | .return_ e => 1 + sizeExpr e
  | .exprStmt e => 1 + sizeExpr e
  | .match_ s arms => 1 + sizeExpr s + sizeArms arms
  | .break_ => 1
  | .continue_ => 1
  | .memorize e _ => 1 + sizeExpr e
  | .forget e _ => 1 + sizeExpr e
  | .relate a b _ => 1 + sizeExpr a + sizeExpr b

def sizeStmts : List (Stmt F) → Nat
  | [] => 0
  | s :: ss => sizeStmt s + sizeStmts ss

def sizeElse : ElseChain F → Nat
  | .none => 0
  | .else_ body => sizeStmts body
  | .elseIf c body rest => sizeExpr c + sizeStmts body + sizeElse rest

def sizeArms : MatchArms F → Nat
  | .none => 0
  | .else_ body => sizeStmts body
  | .lit _ body rest => sizeStmts body + sizeArms rest
  | .compare _ th body rest => sizeExpr th + sizeStmts body + sizeArms rest
end

/-! ## Evaluations -/

/-- What is evaluated, and in which environment. The branches of an `if` and the arms of a `match` come as statements
and as values: they run their bodies alike, on no mutable names when they are values. -/
inductive Work (F : Type) where
  | expr (e : Expr F) (env : Env F)
  | exprs (es : List (Expr F)) (env : Env F)
  | callArgs (fn : String) (es : List (Expr F)) (env : Env F)
  | stmt (s : Stmt F) (env : Env F) (muts : List String)
  | stmts (ss : List (Stmt F)) (last : Value F) (env : Env F) (muts : List String)
  | chain (rest : ElseChain F) (env : Env F) (muts : List String)
  | arms (arms : MatchArms F) (sv : Value F) (env : Env F) (muts : List String)
  | eachLoop (bind : Nat → Value F → Env F → Env F) (body : List (Stmt F)) (idx : Nat) (vs : List (Value F))
      (env : Env F) (muts : List String)
  | whileLoop (cond : Expr F) (body : List (Stmt F)) (left : Nat) (env : Env F) (muts : List String)

/-- An evaluation about to start: position, work, world. -/
structure Eval (F W : Type) where
  pos : Nat
  work : Work F
  world : W

def Work.size : Work F → Nat
  | .expr e _ => sizeExpr e
  | .exprs es _ => sizeExprs es
  | .callArgs _ es _ => sizeExprs es
  | .stmt s _ _ => sizeStmt s
  | .stmts ss _ _ _ => sizeStmts ss
  | .chain rest _ _ => sizeElse rest
  | .arms as _ _ _ => sizeArms as
  | .eachLoop _ body _ _ _ _ => sizeStmts body
  | .whileLoop cnd body _ _ _ => sizeExpr cnd + sizeStmts body

/-- Where the text of an evaluation ends. -/
def Eval.stop (s : Eval F W) : Nat := s.pos + s.work.size

variable [FloatModel F]

/-- A strict operator evaluates its right operand, `and` and `or` when the left one leaves it open. -/
def rightRuns (op : BinOp) (a : Value F) : Bool :=
  match op with
  | .and => a.isTruthy
  | .or => !a.isTruthy
  | _ => true

variable (c : Interpreter F W)

/-- The evaluations one evaluation starts itself. -/
inductive Calls : Eval F W → Eval F W → Prop where
  | field {p e f env w} : Calls ⟨p, .expr (.fieldAccess e f) env, w⟩ ⟨p + 1, .expr e env, w⟩
  | args {p fn es line env w} : Calls ⟨p, .expr (.fnCall fn es line) env, w⟩ ⟨p + 1, .callArgs fn es env, w⟩
  | qualifiedArgs {p ns fn es env w} :
      Calls ⟨p, .expr (.qualifiedCall ns fn es) env, w⟩ ⟨p + 1, .exprs es env, w⟩
  | left {p l op r env w} : Calls ⟨p, .expr (.binaryOp l op r) env, w⟩ ⟨p + 1, .expr l env, w⟩
  | right {p l op r env w a w' t} (hl : evalExpr c l env w = (.ok a, w', t)) (hr : rightRuns op a = true) :
      Calls ⟨p, .expr (.binaryOp l op r) env, w⟩ ⟨p + 1 + sizeExpr l, .expr r env, w'⟩
  | ifCond {p cnd th el env w} : Calls ⟨p, .expr (.ifElse cnd th el) env, w⟩ ⟨p + 1, .expr cnd env, w⟩
  | ifThen {p cnd th el env w v w' t} (hc : evalExpr c cnd env w = (.ok v, w', t)) (hb : v.asBool = .ok true) :
      Calls ⟨p, .expr (.ifElse cnd th el) env, w⟩ ⟨p + 1 + sizeExpr cnd, .expr th env, w'⟩
  | ifElse {p cnd th el env w v w' t} (hc : evalExpr c cnd env w = (.ok v, w', t)) (hb : v.asBool = .ok false) :
      Calls ⟨p, .expr (.ifElse cnd th el) env, w⟩ ⟨p + 1 + sizeExpr cnd + sizeExpr th, .expr el env, w'⟩
  | items {p es env w} : Calls ⟨p, .expr (.list es) env, w⟩ ⟨p + 1, .exprs es env, w⟩
  | base {p b i env w} : Calls ⟨p, .expr (.indexAccess b i) env, w⟩ ⟨p + 1, .expr b env, w⟩
  | index {p b i env w v w' t} (hb : evalExpr c b env w = (.ok v, w', t)) :
      Calls ⟨p, .expr (.indexAccess b i) env, w⟩ ⟨p + 1 + sizeExpr b, .expr i env, w'⟩
  | fields {p ks es env w} : Calls ⟨p, .expr (.structLit ks es) env, w⟩ ⟨p + 1, .exprs es env, w⟩
  | blockCond {p cnd body rest env w} :
      Calls ⟨p, .expr (.blockIfElse cnd body rest) env, w⟩ ⟨p + 1, .expr cnd env, w⟩
  | blockThen {p cnd body rest env w v w' t} (hc : evalExpr c cnd env w = (.ok v, w', t))
      (hb : v.asBool = .ok true) :
      Calls ⟨p, .expr (.blockIfElse cnd body rest) env, w⟩ ⟨p + 1 + sizeExpr cnd, .stmts body .unit env [], w'⟩
  | blockElse {p cnd body rest env w v w' t} (hc : evalExpr c cnd env w = (.ok v, w', t))
      (hb : v.asBool = .ok false) :
      Calls ⟨p, .expr (.blockIfElse cnd body rest) env, w⟩
        ⟨p + 1 + sizeExpr cnd + sizeStmts body, .chain rest env [], w'⟩
  | scrutinee {p s arms env w} : Calls ⟨p, .expr (.matchExpr s arms) env, w⟩ ⟨p + 1, .expr s env, w⟩
  | valueArms {p s arms env w sv w' t} (hs : evalExpr c s env w = (.ok sv, w', t)) :
      Calls ⟨p, .expr (.matchExpr s arms) env, w⟩ ⟨p + 1 + sizeExpr s, .arms arms sv env [], w'⟩
  | tried {p e env w} : Calls ⟨p, .expr (.try_ e) env, w⟩ ⟨p + 1, .expr e env, w⟩
  | bound {p o e env w} : Calls ⟨p, .expr (.provBind o e) env, w⟩ ⟨p + 1, .expr e env, w⟩
  | head {p e es env w} : Calls ⟨p, .exprs (e :: es) env, w⟩ ⟨p, .expr e env, w⟩
  | tail {p e es env w v w' t} (he : evalExpr c e env w = (.ok v, w', t)) :
      Calls ⟨p, .exprs (e :: es) env, w⟩ ⟨p + sizeExpr e, .exprs es env, w'⟩
  | firstArg {p fn e es env w} (hb : bareIdentArg c fn e = none) :
      Calls ⟨p, .callArgs fn (e :: es) env, w⟩ ⟨p, .expr e env, w⟩
  | bareArg {p fn e es env w v} (hb : bareIdentArg c fn e = some (.ok v)) :
      Calls ⟨p, .callArgs fn (e :: es) env, w⟩ ⟨p + sizeExpr e, .exprs es env, w⟩
  | restArgs {p fn e es env w v w' t} (hb : bareIdentArg c fn e = none)
      (he : evalExpr c e env w = (.ok v, w', t)) :
      Calls ⟨p, .callArgs fn (e :: es) env, w⟩ ⟨p + sizeExpr e, .exprs es env, w'⟩
  | let_ {p x e m env muts w} : Calls ⟨p, .stmt (.letBinding x e m) env muts, w⟩ ⟨p + 1, .expr e env, w⟩
  | assign {p x e env muts w} (hx : x ∈ muts) : Calls ⟨p, .stmt (.assign x e) env muts, w⟩ ⟨p + 1, .expr e env, w⟩
  | iterable {p x it body env muts w} : Calls ⟨p, .stmt (.each x it body) env muts, w⟩ ⟨p + 1, .expr it env, w⟩
  | each {p x it body env muts w vs w' t} (hit : evalExpr c it env w = (.ok (.list vs), w', t))
      (hlim : ¬ (c.sandbox ∧ c.iterLimit < vs.length)) :
      Calls ⟨p, .stmt (.each x it body) env muts, w⟩
        ⟨p + 1 + sizeExpr it, .eachLoop (bindItem x) body 0 vs env muts, w'⟩
  | iterableIndex {p i x it body env muts w} :
      Calls ⟨p, .stmt (.eachWithIndex i x it body) env muts, w⟩ ⟨p + 1, .expr it env, w⟩
  | eachIndex {p i x it body env muts w vs w' t} (hit : evalExpr c it env w = (.ok (.list vs), w', t))
      (hlim : ¬ (c.sandbox ∧ c.iterLimit < vs.length)) :
      Calls ⟨p, .stmt (.eachWithIndex i x it body) env muts, w⟩
        ⟨p + 1 + sizeExpr it, .eachLoop (bindIndexItem i x) body 0 vs env muts, w'⟩
  | while_ {p cnd body env muts w} :
      Calls ⟨p, .stmt (.while_ cnd body) env muts, w⟩ ⟨p + 1, .whileLoop cnd body c.iterLimit env muts, w⟩
  | condition {p cnd body rest env muts w} :
      Calls ⟨p, .stmt (.ifElseBlock cnd body rest) env muts, w⟩ ⟨p + 1, .expr cnd env, w⟩
  | thenBody {p cnd body rest env muts w v w' t} (hc : evalExpr c cnd env w = (.ok v, w', t))
      (hb : v.asBool = .ok true) :
      Calls ⟨p, .stmt (.ifElseBlock cnd body rest) env muts, w⟩
        ⟨p + 1 + sizeExpr cnd, .stmts body .unit env muts, w'⟩
  | elseBody {p cnd body rest env muts w v w' t} (hc : evalExpr c cnd env w = (.ok v, w', t))
      (hb : v.asBool = .ok false) :
      Calls ⟨p, .stmt (.ifElseBlock cnd body rest) env muts, w⟩
        ⟨p + 1 + sizeExpr cnd + sizeStmts body, .chain rest env muts, w'⟩
  | guard {p cnd body env muts w} : Calls ⟨p, .stmt (.ifThen cnd body) env muts, w⟩ ⟨p + 1, .expr cnd env, w⟩
  | guarded {p cnd body env muts w v w' t} (hc : evalExpr c cnd env w = (.ok v, w', t))
      (hb : v.asBool = .ok true) :
      Calls ⟨p, .stmt (.ifThen cnd body) env muts, w⟩ ⟨p + 1 + sizeExpr cnd, .stmts body .unit env muts, w'⟩
  | return_ {p e env muts w} : Calls ⟨p, .stmt (.return_ e) env muts, w⟩ ⟨p + 1, .expr e env, w⟩
  | exprStmt {p e env muts w} : Calls ⟨p, .stmt (.exprStmt e) env muts, w⟩ ⟨p + 1, .expr e env, w⟩
  | matched {p s arms env muts w} : Calls ⟨p, .stmt (.match_ s arms) env muts, w⟩ ⟨p + 1, .expr s env, w⟩
  | arms {p s arms env muts w sv w' t} (hs : evalExpr c s env w = (.ok sv, w', t)) :
      Calls ⟨p, .stmt (.match_ s arms) env muts, w⟩ ⟨p + 1 + sizeExpr s, .arms arms sv env muts, w'⟩
  | memorize {p e prio env muts w} : Calls ⟨p, .stmt (.memorize e prio) env muts, w⟩ ⟨p + 1, .expr e env, w⟩
  | forget {p e days env muts w} : Calls ⟨p, .stmt (.forget e days) env muts, w⟩ ⟨p + 1, .expr e env, w⟩
  | source {p a b rel env muts w} : Calls ⟨p, .stmt (.relate a b rel) env muts, w⟩ ⟨p + 1, .expr a env, w⟩
  | target {p a b rel env muts w v w' t} (ha : evalExpr c a env w = (.ok v, w', t)) :
      Calls ⟨p, .stmt (.relate a b rel) env muts, w⟩ ⟨p + 1 + sizeExpr a, .expr b env, w'⟩
  | first {p s ss last env muts w} : Calls ⟨p, .stmts (s :: ss) last env muts, w⟩ ⟨p, .stmt s env muts, w⟩
  | next {p s ss last env muts w v env' muts' w' t}
      (hs : evalStmt c s ss.isEmpty last env muts w = (.ok (.normal v, env', muts'), w', t)) :
      Calls ⟨p, .stmts (s :: ss) last env muts, w⟩ ⟨p + sizeStmt s, .stmts ss v env' muts', w'⟩
  | else_ {p body env muts w} : Calls ⟨p, .chain (.else_ body) env muts, w⟩ ⟨p, .stmts body .unit env muts, w⟩
  | elseCond {p cnd body rest env muts w} :
      Calls ⟨p, .chain (.elseIf cnd body rest) env muts, w⟩ ⟨p, .expr cnd env, w⟩
  | elseThen {p cnd body rest env muts w v w' t} (hc : evalExpr c cnd env w = (.ok v, w', t))
      (hb : v.asBool = .ok true) :
      Calls ⟨p, .chain (.elseIf cnd body rest) env muts, w⟩ ⟨p + sizeExpr cnd, .stmts body .unit env muts, w'⟩
  | elseRest {p cnd body rest env muts w v w' t} (hc : evalExpr c cnd env w = (.ok v, w', t))
      (hb : v.asBool = .ok false) :
      Calls ⟨p, .chain (.elseIf cnd body rest) env muts, w⟩
        ⟨p + sizeExpr cnd + sizeStmts body, .chain rest env muts, w'⟩
  | armElse {p body sv env muts w} :
      Calls ⟨p, .arms (.else_ body) sv env muts, w⟩ ⟨p, .stmts body .unit env muts, w⟩
  | armLit {p test body rest sv env muts w} (ht : LitTest.matchesValue test sv = true) :
      Calls ⟨p, .arms (.lit test body rest) sv env muts, w⟩ ⟨p, .stmts body .unit env muts, w⟩
  | litRest {p test body rest sv env muts w} (ht : LitTest.matchesValue test sv = false) :
      Calls ⟨p, .arms (.lit test body rest) sv env muts, w⟩ ⟨p + sizeStmts body, .arms rest sv env muts, w⟩
  | threshold {p op th body rest sv env muts w} :
      Calls ⟨p, .arms (.compare op th body rest) sv env muts, w⟩ ⟨p, .expr th env, w⟩
  | armCompare {p op th body rest sv env muts w tv w' t} (hth : evalExpr c th env w = (.ok tv, w', t))
      (hcmp : compareValues sv op tv = true) :
      Calls ⟨p, .arms (.compare op th body rest) sv env muts, w⟩ ⟨p + sizeExpr th, .stmts body .unit env muts, w'⟩
  | compareRest {p op th body rest sv env muts w tv w' t} (hth : evalExpr c th env w = (.ok tv, w', t))
      (hcmp : compareValues sv op tv = false) :
      Calls ⟨p, .arms (.compare op th body rest) sv env muts, w⟩
        ⟨p + sizeExpr th + sizeStmts body, .arms rest sv env muts, w'⟩
  | iteration {p bind body idx v vs env muts w} (hlim : ¬ (c.sandbox ∧ c.iterLimit ≤ idx)) :
      Calls ⟨p, .eachLoop bind body idx (v :: vs) env muts, w⟩ ⟨p, .stmts body .unit (bind idx v env) muts, w⟩
  | nextIteration {p bind body idx v vs env muts w out w' t} (hlim : ¬ (c.sandbox ∧ c.iterLimit ≤ idx))
      (hrun : evalStmts c body .unit (bind idx v env) muts w = (.ok out, w', t))
      (hgo : ∀ r, out.1 ≠ .ret r) (hbrk : out.1 ≠ .brk) :
      Calls ⟨p, .eachLoop bind body idx (v :: vs) env muts, w⟩
        ⟨p, .eachLoop bind body (idx + 1) vs out.2.1 out.2.2, w'⟩
  | whileCond {p cnd body n env muts w} :
      Calls ⟨p, .whileLoop cnd body (n + 1) env muts, w⟩ ⟨p, .expr cnd env, w⟩
  | whileBody {p cnd body n env muts w v w' t} (hc : evalExpr c cnd env w = (.ok v, w', t))
      (hb : v.asBool = .ok true) :
      Calls ⟨p, .whileLoop cnd body (n + 1) env muts, w⟩ ⟨p + sizeExpr cnd, .stmts body .unit env muts, w'⟩
  | whileNext {p cnd body n env muts w v w' t out w'' t'} (hc : evalExpr c cnd env w = (.ok v, w', t))
      (hb : v.asBool = .ok true) (hrun : evalStmts c body .unit env muts w' = (.ok out, w'', t'))
      (hgo : ∀ r, out.1 ≠ .ret r) (hbrk : out.1 ≠ .brk) :
      Calls ⟨p, .whileLoop cnd body (n + 1) env muts, w⟩ ⟨p, .whileLoop cnd body n out.2.1 out.2.2, w''⟩

def Reaches : Eval F W → Eval F W → Prop := Relation.ReflTransGen (Calls c)

/-- An interpreter in which no call succeeds. -/
def noCallees : Interpreter Int Unit where
  call _ _ w := (.error "no callee", w)
  resolve _ := none
  resolveQualified _ _ := .error "no callee"
  arity _ := 0
  globals _ := none
  reflexNames _ := none
  memorize _ _ w := w
  forget _ _ w := w
  relate _ _ _ w := w
  sandbox := false
  iterLimit := 10

/-- The run of a body on bound parameters. -/
def bodyRun (body : List (Stmt F)) (env : Env F) (w : W) : Eval F W := ⟨0, .stmts body .unit env [], w⟩

variable {c}

/-- An evaluation starts others on parts of its text. -/
theorem Calls.span {s t : Eval F W} (h : Calls c s t) : s.pos ≤ t.pos ∧ t.stop ≤ s.stop := by
  unfold Eval.stop
  cases h <;>
    simp only [Work.size, sizeExpr, sizeExprs, sizeStmt, sizeStmts, sizeElse, sizeArms] <;> omega

/-- What holds of an evaluation and passes on to every one it starts holds of all it reaches. -/
theorem Reaches.invariant {P : Eval F W → Prop} (hstep : ∀ s t, Calls c s t → P s → P t) {s t : Eval F W}
    (h : Reaches c s t) (hs : P s) : P t := by
  induction h with
  | refl => exact hs
  | tail _ hcall ih => exact hstep _ _ hcall ih

end Metalogos.Walk
