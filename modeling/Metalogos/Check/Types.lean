import Metalogos.Lib.Dict
import Metalogos.Walk.Reach

/-!
# The warnings of stage 1

`stage1_warnings` of `src/semantic_types.rs` keeps, along the top level of a body and of its `each` bodies, a type for
each variable of which one is known, and warns of an assignment or a `return` of another known type. It does not look
into the other nested bodies, and it forgets nothing when these set a variable.

`Sees` is a run and the walk side by side: where the run comes to what the walk looks at, with the types the walk has
there. `stage1_sound`: as long as callees return what their signatures say and no nested body sets a variable with a
known type (`settled`), the types are right wherever the run comes, and every warning tells what happens there.
-/
namespace Metalogos.Walk

open Metalogos.Lang Metalogos.Lib

variable {F W : Type}

mutual
def setsStmt : Stmt F → List String
  | .letBinding x _ _ => [x]
  | .assign x _ => [x]
  | .each x _ body => x :: setsStmts body
  | .eachWithIndex i x _ body => i :: x :: setsStmts body
  | .while_ _ body => setsStmts body
  | .ifElseBlock _ thn rest => setsStmts thn ++ setsElse rest
  | .ifThen _ body => setsStmts body
  | .return_ _ => []
  | .exprStmt _ => []
  | .match_ _ arms => setsArms arms
  | .break_ => []
  | .continue_ => []
  | .memorize _ _ => []
  | .forget _ _ => []
  | .relate _ _ _ => []

def setsStmts : List (Stmt F) → List String
  | [] => []
  | s :: ss => setsStmt s ++ setsStmts ss

def setsElse : ElseChain F → List String
  | .none => []
  | .else_ body => setsStmts body
  | .elseIf _ body rest => setsStmts body ++ setsElse rest

def setsArms : MatchArms F → List String
  | .none => []
  | .else_ body => setsStmts body
  | .lit _ body rest => setsStmts body ++ setsArms rest
  | .compare _ _ body rest => setsStmts body ++ setsArms rest
end

/-- A run that ends leaves every other name as it was. -/
def Frames (names : List String) (env : Env F) (x : TW F W (Outcome F)) : Prop :=
  Traced.Ensures (fun out => ∀ y, y ∉ names → out.2.1 y = env y) x

section

variable {names names' : List String} {env : Env F} {block : TW F W (Outcome F)} {c : Interpreter F W}

theorem Frames.mono (h : Frames names env block) (hsub : names ⊆ names') : Frames names' env block :=
  Traced.Ensures.mono h fun _ hout y hy => hout y fun hin => hy (hsub hin)

theorem keepLast_frames (isLast : Bool) (last : Value F) (env : Env F) (muts : List String) :
    Frames names env (keepLast (W := W) isLast last env muts) := .after fun _ => .pure fun _ _ => rfl

theorem evalBlock_frames {isLast : Bool} {last : Value F} (h : Frames names env block) :
    Frames names env (evalBlock isLast last block) := by
  refine .bind (.wrap h) fun out hout => ?_
  split
  · exact .after fun _ => .pure hout
  · exact .pure hout

theorem eachLoop_frames {bind : Nat → Value F → Env F → Env F} {body : Env F → List String → TW F W (Outcome F)}
    (hbind : ∀ i v env y, y ∉ names → bind i v env y = env y)
    (hbody : ∀ env muts, Frames names env (body env muts)) :
    ∀ (vs : List (Value F)) (idx : Nat) (env : Env F) (muts : List String),
      Frames names env (eachLoop c bind body idx vs env muts)
  | [], _, _, _ => .pure fun _ _ => rfl
  | v :: vs, idx, env, muts => by
    unfold eachLoop
    split_ifs
    · exact .after fun _ => .fail
    · refine .bind (.wrap (hbody (bind idx v env) muts)) fun out hout => ?_
      have hround : ∀ y, y ∉ names → out.2.1 y = env y := fun y hy => (hout y hy).trans (hbind idx v env y hy)
      split
      · exact .pure hround
      · exact .pure hround
      · exact Traced.Ensures.mono (eachLoop_frames hbind hbody vs (idx + 1) out.2.1 out.2.2) fun _ hrest y hy =>
          (hrest y hy).trans (hround y hy)

theorem eachStmt_frames {bind : Nat → Value F → Env F → Env F} {body : Env F → List String → TW F W (Outcome F)}
    (hbind : ∀ i v env y, y ∉ names → bind i v env y = env y)
    (hbody : ∀ env muts, Frames names env (body env muts)) (last v : Value F) (env : Env F) (muts : List String) :
    Frames names env (eachStmt c bind body last v env muts) := by
  refine .after fun _ => ?_
  split
  · refine .after fun _ => .after fun _ => ?_
    split_ifs
    · exact .after fun _ => .fail
    · exact eachLoop_frames hbind hbody _ _ _ _
  · exact .fail

variable [FloatModel F]

theorem whileLoop_frames {cond : Env F → TW F W (Value F)} {body : Env F → List String → TW F W (Outcome F)}
    (hbody : ∀ env muts, Frames names env (body env muts)) :
    ∀ (n : Nat) (env : Env F) (muts : List String), Frames names env (whileLoop c cond body n env muts)
  | 0, _, _ => .after fun _ => .fail
  | n + 1, env, muts => by
    unfold whileLoop
    refine .after fun v => .after fun b => ?_
    split_ifs
    · refine .bind (.wrap (hbody env muts)) fun out hout => ?_
      split
      · exact .pure hout
      · exact .pure hout
      · exact Traced.Ensures.mono (whileLoop_frames hbody n out.2.1 out.2.2) fun _ hrest y hy =>
          (hrest y hy).trans (hout y hy)
    · exact .pure fun _ _ => rfl

end

variable [FloatModel F] (c : Interpreter F W)

mutual
theorem evalStmt_frames : ∀ (s : Stmt F) (isLast : Bool) (last : Value F) (env : Env F) (muts : List String),
    Frames (setsStmt s) env (evalStmt c s isLast last env muts)
  | .letBinding x e m, isLast, last, env, muts => by
    rw [evalStmt]
    exact .after fun v => .after fun _ => .pure fun y hy => if_neg fun heq => hy (List.mem_singleton.2 heq)
  | .assign x e, isLast, last, env, muts => by
    rw [evalStmt]
    split_ifs
    · exact .after fun v => .after fun _ => .after fun _ => .pure fun y hy =>
        if_neg fun heq => hy (List.mem_singleton.2 heq)
    · exact .after fun _ => .fail
  | .each x it body, isLast, last, env, muts => by
    rw [evalStmt, setsStmt]
    refine .after fun v => eachStmt_frames (fun i v env y hy => ?_) (fun env muts => ?_) last v env muts
    · exact if_neg fun heq => hy (List.mem_cons.2 (.inl heq))
    · exact (evalStmts_frames body .unit env muts).mono (List.subset_cons_self x _)
  | .eachWithIndex i x it body, isLast, last, env, muts => by
    rw [evalStmt, setsStmt]
    refine .after fun v => eachStmt_frames (fun idx v env y hy => ?_) (fun env muts => ?_) last v env muts
    · rw [List.mem_cons, List.mem_cons, not_or, not_or] at hy
      exact (if_neg hy.2.1).trans (if_neg hy.1)
    · exact (evalStmts_frames body .unit env muts).mono
        (List.Subset.trans (List.subset_cons_self x _) (List.subset_cons_self i _))
  | .while_ cnd body, isLast, last, env, muts => by
    rw [evalStmt, setsStmt]
    exact .after fun _ => whileLoop_frames (fun env muts => evalStmts_frames body .unit env muts) _ _ _
  | .ifElseBlock cnd thn rest, isLast, last, env, muts => by
    rw [evalStmt, setsStmt]
    refine .after fun v => .after fun b => ?_
    split_ifs
    · exact evalBlock_frames ((evalStmts_frames thn .unit env muts).mono (List.subset_append_left _ _))
    · exact (evalElse_frames rest isLast last env muts).mono (List.subset_append_right _ _)
  | .ifThen cnd body, isLast, last, env, muts => by
    rw [evalStmt, setsStmt]
    refine .after fun v => .after fun b => ?_
    split_ifs
    · exact evalBlock_frames (evalStmts_frames body .unit env muts)
    · exact keepLast_frames _ _ _ _
  | .return_ e, isLast, last, env, muts => by
    rw [evalStmt]
    exact .after fun v => .after fun _ => .pure fun _ _ => rfl
  | .exprStmt e, isLast, last, env, muts => by
    rw [evalStmt]
    refine .after fun v => .after fun _ => ?_
    split_ifs
    · exact .pure fun _ _ => rfl
    · exact .pure fun _ _ => rfl
    · exact .pure fun _ _ => rfl
  | .match_ s arms, isLast, last, env, muts => by
    rw [evalStmt, setsStmt]
    exact .after fun sv => .after fun _ => evalArms_frames arms sv isLast last env muts
  | .break_, isLast, last, env, muts => by
    rw [evalStmt]
    exact .pure fun _ _ => rfl
  | .continue_, isLast, last, env, muts => by
    rw [evalStmt]
    exact .pure fun _ _ => rfl
  | .memorize e priority, isLast, last, env, muts => by
    rw [evalStmt]
    exact .after fun v => .after fun _ => keepLast_frames _ _ _ _
  | .forget e days, isLast, last, env, muts => by
    rw [evalStmt]
    exact .after fun v => .after fun _ => keepLast_frames _ _ _ _
  | .relate src tgt relation, isLast, last, env, muts => by
    rw [evalStmt]
    exact .after fun a => .after fun b => .after fun _ => keepLast_frames _ _ _ _

theorem evalStmts_frames : ∀ (ss : List (Stmt F)) (last : Value F) (env : Env F) (muts : List String),
    Frames (setsStmts ss) env (evalStmts c ss last env muts)
  | [], last, env, muts => by
    rw [evalStmts]
    exact .pure fun _ _ => rfl
  | s :: rest, last, env, muts => by
    rw [evalStmts, setsStmts]
    refine .bind ((evalStmt_frames s rest.isEmpty last env muts).mono (List.subset_append_left _ (setsStmts rest)))
      fun out hout => ?_
    split
    · exact Traced.Ensures.mono ((evalStmts_frames rest _ out.2.1 out.2.2).mono (List.subset_append_right _ _))
        fun _ hrest y hy => (hrest y hy).trans (hout y hy)
    · exact .pure hout

theorem evalElse_frames : ∀ (rest : ElseChain F) (isLast : Bool) (last : Value F) (env : Env F) (muts : List String),
    Frames (setsElse rest) env (evalElse c rest isLast last env muts)
  | .none, isLast, last, env, muts => by
    rw [evalElse]
    exact keepLast_frames _ _ _ _
  | .else_ body, isLast, last, env, muts => by
    rw [evalElse, setsElse]
    exact evalBlock_frames (evalStmts_frames body .unit env muts)
  | .elseIf cnd body rest, isLast, last, env, muts => by
    rw [evalElse, setsElse]
    refine .after fun v => .after fun b => ?_
    split_ifs
    · exact evalBlock_frames ((evalStmts_frames body .unit env muts).mono (List.subset_append_left _ _))
    · exact (evalElse_frames rest isLast last env muts).mono (List.subset_append_right _ _)

theorem evalArms_frames : ∀ (arms : MatchArms F) (sv : Value F) (isLast : Bool) (last : Value F) (env : Env F)
    (muts : List String), Frames (setsArms arms) env (evalArms c arms sv isLast last env muts)
  | .none, sv, isLast, last, env, muts => by
    rw [evalArms]
    exact keepLast_frames _ _ _ _
  | .else_ body, sv, isLast, last, env, muts => by
    rw [evalArms, setsArms]
    exact evalBlock_frames (evalStmts_frames body .unit env muts)
  | .lit test body rest, sv, isLast, last, env, muts => by
    rw [evalArms, setsArms]
    split_ifs
    · exact evalBlock_frames ((evalStmts_frames body .unit env muts).mono (List.subset_append_left _ _))
    · exact (evalArms_frames rest sv isLast last env muts).mono (List.subset_append_right _ _)
  | .compare op th body rest, sv, isLast, last, env, muts => by
    rw [evalArms, setsArms]
    refine .after fun tv => ?_
    split_ifs
    · exact evalBlock_frames ((evalStmts_frames body .unit env muts).mono (List.subset_append_left _ _))
    · exact (evalArms_frames rest sv isLast last env muts).mono (List.subset_append_right _ _)
end

end Metalogos.Walk

namespace Metalogos.Check.Types

open Metalogos.Lang Metalogos.Walk Metalogos.Lib

/-! ## Types -/

/-- mirrors src/builtins/sig_types.rs:65-72 -/
inductive Label where
  | internal
  | private_
  | untrusted
  deriving DecidableEq

def Label.asStr : Label → String
  | .internal => "internal"
  | .private_ => "private"
  | .untrusted => "untrusted"

def Label.debug : Label → String
  | .internal => "Internal"
  | .private_ => "Private"
  | .untrusted => "Untrusted"

/-- mirrors src/builtins/sig_types.rs:91-110 -/
inductive OpaqueKind where
  | secret
  | reflex
  | grant
  | series
  | media
  | embodied
  | other
  deriving DecidableEq

def OpaqueKind.debug : OpaqueKind → String
  | .secret => "Secret"
  | .reflex => "Reflex"
  | .grant => "Grant"
  | .series => "Series"
  | .media => "Media"
  | .embodied => "Embodied"
  | .other => "Other"

/-- mirrors src/builtins/sig_types.rs:113-143 -/
inductive Ty where
  | int
  | float
  | bool
  | string
  | unit
  | list
  | map
  | struct
  | fluid
  | opaqueOf (family : OpaqueKind)
  | labeled (inner : Ty) (label : Label)
  | unknown
  | union
  deriving DecidableEq

/-- `{:?}` -/
def Ty.debug : Ty → String
  | .int => "Int"
  | .float => "Float"
  | .bool => "Bool"
  | .string => "String"
  | .unit => "Unit"
  | .list => "List"
  | .map => "Map"
  | .struct => "Struct"
  | .fluid => "Fluid"
  | .opaqueOf family => "Opaque(" ++ family.debug ++ ")"
  | .labeled inner label => "Labeled(" ++ inner.debug ++ ", " ++ label.debug ++ ")"
  | .unknown => "Unknown"
  | .union => "Union"

/-- `{}`
mirrors src/builtins/sig_types.rs:659-677 -/
def Ty.display : Ty → String
  | .labeled inner label => inner.display ++ "<" ++ label.asStr ++ ">"
  | ty => ty.debug

/-- mirrors src/semantic_types.rs:98-104 -/
def comparable : Ty → Option Ty
  | .labeled inner _ => comparable inner
  | .fluid => none
  | .unknown => none
  | other => some other

/-! ## Declarations -/

/-- A pattern, a learnable pattern or a tool method, with the spellings of its types. -/
structure Signature where
  name : String
  params : List (String × String)
  returnType : String

inductive Decl (F : Type) where
  | pattern (sig : Signature) (body : List (Stmt F))
  | learnable (sig : Signature)
  | test (body : List (Stmt F))
  | tool (name : String) (methods : List (Signature × List (Stmt F)))
  | other

/-- mirrors src/semantic_types.rs:87-91 -/
structure DeclaredSig where
  kind : String
  returnTy : Option Ty
  params : List (String × Option Ty)

/-- mirrors src/semantic_types.rs:150-154 -/
structure TypeOrigin where
  ty : Ty
  origin : String
  deriving DecidableEq

/-- mirrors src/semantic_types.rs:157 -/
abbrev TypeEnv := Dict String TypeOrigin

section

variable (parseType : String → Ty)

/-- mirrors src/semantic_types.rs:109-131 -/
def declaredSig (kind : String) (sig : Signature) : DeclaredSig :=
  ⟨kind, comparable (parseType sig.returnType), sig.params.map fun p => (p.1, comparable (parseType p.2))⟩

/-- mirrors src/semantic_types.rs:133-146 -/
def seedParams (sig : DeclaredSig) (Γ : TypeEnv) : TypeEnv :=
  sig.params.foldl (fun Γ p =>
    match p.2 with
    | some ty => Γ.set p.1 ⟨ty, "the declared parameter type '" ++ ty.display ++ "'"⟩
    | none => Γ) Γ

/-- mirrors src/semantic_types.rs:238-258 -/
def callableSigs {F : Type} (decls : List (Decl F)) : Dict String DeclaredSig :=
  decls.foldl (fun d decl =>
    match decl with
    | .pattern sig _ => d.set sig.name (declaredSig parseType "pattern" sig)
    | .learnable sig => d.set sig.name (declaredSig parseType "learnable pattern" sig)
    | _ => d) .empty

end

/-! ## The walk -/

/-- What stays the same along a body. -/
structure Scope where
  registry : String → Option Ty
  callables : Dict String DeclaredSig
  declaredReturn : Option Ty
  kind : String
  owner : String

/-- mirrors src/semantic_types.rs:412-429 -/
def callType (σ : Scope) (name : String) : Option TypeOrigin :=
  match σ.callables.get name with
  | some sig => sig.returnTy.map fun ty =>
      ⟨ty, "the declared return type of the " ++ sig.kind ++ " '" ++ name ++ "'"⟩
  | none => ((σ.registry name).map fun ty => ⟨ty, "the builtin '" ++ name ++ "'"⟩).filter fun entry => entry.ty ≠ .unknown

section

variable {F : Type}

/-- mirrors src/semantic_types.rs:390-432 -/
def inferExpr (σ : Scope) (Γ : TypeEnv) : Expr F → Option TypeOrigin
  | .stringLit _ => some ⟨.string, "a string literal"⟩
  | .floatLit _ => some ⟨.float, "a float literal"⟩
  | .boolLit _ => some ⟨.bool, "a bool literal"⟩
  | .list items => some ⟨.list, "a list literal (" ++ toString items.length ++ " items)"⟩
  | .ident name => Γ.get name
  | .fnCall name _ _ => callType σ name
  | _ => none

inductive Finding where
  | conflict (name : String) (prev next : TypeOrigin)
  | declaredReturn (kind owner : String) (declared : Ty) (got : TypeOrigin)
  deriving DecidableEq

/-- mirrors src/semantic_types.rs:313-330 and :357-370 -/
def Finding.message : Finding → String
  | .conflict name prev next =>
    "[stage1 types] type conflict: variable '" ++ name ++ "' was inferred " ++ prev.ty.debug ++ " (" ++ prev.origin ++
      "), but is reassigned with " ++ next.ty.debug ++ " (" ++ next.origin ++ ") — the language stays " ++
      "dynamically typed; this is a warn-only diagnostic (naryad №474, stage 1)"
  | .declaredReturn kind owner declared got =>
    "[n486 types] declared-return conflict: the " ++ kind ++ " '" ++ owner ++ "' declares -> " ++ declared.display ++
      ", but its `return` produces " ++ got.ty.display ++ " (from " ++ got.origin ++ ") — the language stays " ++
      "dynamically typed; this is a warn-only diagnostic (naryad №486)"

/-- A warning at the position of its statement in the body. -/
structure Warning where
  pos : Nat
  finding : Finding
  deriving DecidableEq

def TypeEnv.rebind (Γ : TypeEnv) (x : String) : Option TypeOrigin → TypeEnv
  | some entry => Γ.set x entry
  | none => Γ.erase x

/-- The types behind a statement.
mirrors src/semantic_types.rs:289-301, :334-342 and :374-388 -/
def after (σ : Scope) (Γ : TypeEnv) : Stmt F → TypeEnv
  | .letBinding x e _ => Γ.rebind x (inferExpr σ Γ e)
  | .assign x e => Γ.rebind x (inferExpr σ Γ e)
  | _ => Γ

/-- mirrors src/semantic_types.rs:303-333 and :344-373 -/
def findings (σ : Scope) (Γ : TypeEnv) : Stmt F → List Finding
  | .assign x e =>
    match Γ.get x, inferExpr σ Γ e with
    | some prev, some next => if prev.ty ≠ next.ty then [.conflict x prev next] else []
    | _, _ => []
  | .return_ e =>
    match σ.declaredReturn, inferExpr σ Γ e with
    | some declared, some got => if got.ty ≠ declared then [.declaredReturn σ.kind σ.owner declared got] else []
    | _, _ => []
  | _ => []

mutual
/-- mirrors src/semantic_types.rs:280-388 -/
def walkStmt (σ : Scope) (p : Nat) (Γ : TypeEnv) : Stmt F → List Warning
  | .each _ it body => walkBlock σ (p + 1 + sizeExpr it) Γ body
  | .eachWithIndex _ _ it body => walkBlock σ (p + 1 + sizeExpr it) Γ body
  | s => (findings σ Γ s).map (⟨p, ·⟩)

/-- mirrors src/semantic_types.rs:260-278 -/
def walkBlock (σ : Scope) (p : Nat) (Γ : TypeEnv) : List (Stmt F) → List Warning
  | [] => []
  | s :: ss => walkStmt σ p Γ s ++ walkBlock σ (p + sizeStmt s) (after σ Γ s) ss
end

/-- A body that is walked. -/
structure Checked (F : Type) where
  scope : Scope
  types : TypeEnv
  body : List (Stmt F)

/-- mirrors src/semantic_types.rs:163-218 -/
def checkedBodies (parseType : String → Ty) (registry : String → Option Ty) (decls : List (Decl F)) : List (Checked F) :=
  let callables := callableSigs parseType decls
  let declared (kind owner : String) (sig : Signature) (body : List (Stmt F)) : Checked F :=
    ⟨⟨registry, callables, (declaredSig parseType kind sig).returnTy, kind, owner⟩,
      seedParams (declaredSig parseType kind sig) .empty, body⟩
  decls.flatMap fun decl =>
    match decl with
    | .pattern sig body => [declared "pattern" sig.name sig body]
    | .test body => [⟨⟨registry, callables, none, "test block", ""⟩, .empty, body⟩]
    | .tool name methods => methods.map fun m => declared "tool method" (name ++ "." ++ m.1.name) m.1 m.2
    | _ => []

/-- mirrors src/semantic_types.rs:163-218 -/
def stage1Warnings (parseType : String → Ty) (registry : String → Option Ty) (decls : List (Decl F)) : List Warning :=
  (checkedBodies parseType registry decls).flatMap fun b => walkBlock b.scope 0 b.types b.body

end

/-! ## What a type says of a value -/

/-- The values of a type; every number is a float, and a label says nothing of the value. -/
def Fits {F : Type} : Ty → Value F → Prop
  | .int, .float _ => True
  | .float, .float _ => True
  | .bool, .bool _ => True
  | .string, .string _ => True
  | .unit, .unit => True
  | .list, .list _ => True
  | .map, .struct _ _ => True
  | .struct, .struct _ _ => True
  | .fluid, .fluid _ => True
  | .opaqueOf _, v => v.typeName ∉ ["String", "Float", "Bool", "List", "Struct", "Fluid", "Unit"]
  | .labeled inner _, v => Fits inner v
  | .unknown, _ => True
  | .union, _ => True
  | _, _ => False

section

variable {F W : Type}

/-- The variables hold what the types say. -/
def Typed (Γ : TypeEnv) (env : Env F) : Prop := ∀ x entry, Γ.get x = some entry → ∃ v, env x = some v ∧ Fits entry.ty v

/-- No name has a known type. -/
def untouched (Γ : TypeEnv) (names : List String) : Bool := names.all fun y => (Γ.get y).isNone

mutual
def settledStmt (σ : Scope) (Γ : TypeEnv) : Stmt F → Bool
  | .letBinding _ _ _ => true
  | .assign _ _ => true
  | .each x it body => untouched Γ (setsStmt (.each x it body)) && settled σ Γ body
  | .eachWithIndex i x it body => untouched Γ (setsStmt (.eachWithIndex i x it body)) && settled σ Γ body
  | s => untouched Γ (setsStmt s)

/-- The nested bodies of a body set no variable that has a known type there. -/
def settled (σ : Scope) (Γ : TypeEnv) : List (Stmt F) → Bool
  | [] => true
  | s :: ss => settledStmt σ Γ s && settled σ (after σ Γ s) ss
end

theorem untouched_get {Γ : TypeEnv} {names : List String} (h : untouched Γ names = true) {x : String} {entry : TypeOrigin}
    (hx : Γ.get x = some entry) : x ∉ names := by
  intro hin
  have hnone := List.all_eq_true.1 h x hin
  rw [hx] at hnone
  cases hnone

theorem Typed.frame {Γ : TypeEnv} {names : List String} {env env' : Env F} (h : Typed Γ env)
    (hnames : untouched Γ names = true) (hframe : ∀ y, y ∉ names → env' y = env y) : Typed Γ env' := by
  intro x entry hx
  rw [hframe x (untouched_get hnames hx)]
  exact h x entry hx

theorem Typed.rebind {Γ : TypeEnv} {env : Env F} (h : Typed Γ env) {x : String} {v : Value F} {entry : Option TypeOrigin}
    (hv : ∀ e, entry = some e → Fits e.ty v) : Typed (Γ.rebind x entry) (env.set x v) := by
  intro y e hy
  cases entry with
  | none =>
    rw [TypeEnv.rebind, Dict.get_erase] at hy
    split_ifs at hy with hyx
    exact ⟨(h y e hy).choose, (if_neg hyx).trans (h y e hy).choose_spec.1, (h y e hy).choose_spec.2⟩
  | some e' =>
    rw [TypeEnv.rebind, Dict.get_set] at hy
    split_ifs at hy with hyx
    · obtain rfl := Option.some.inj hy
      exact ⟨v, if_pos hyx, hv e' rfl⟩
    · obtain ⟨u, hu, hfits⟩ := h y e hy
      exact ⟨u, (if_neg hyx).trans hu, hfits⟩

variable [FloatModel F]

/-- Callees return what the walk takes them to return. -/
def Keeps (c : Interpreter F W) (σ : Scope) : Prop :=
  ∀ name callee entry, c.resolve name = some callee → callType σ name = some entry →
    ∀ args w v w', c.call callee args w = (.ok v, w') → Fits entry.ty v

variable {c : Interpreter F W} {σ : Scope} {Γ : TypeEnv} {env : Env F}

omit [FloatModel F] in
theorem of_bind {α β : Type} {x : TW F W α} {f : α → TW F W β} {w w' : W} {b : β} {t : List (Event F)}
    (h : (x >>= f) w = (.ok b, w', t)) : ∃ a w₁ t₁ t₂, x w = (.ok a, w₁, t₁) ∧ f a w₁ = (.ok b, w', t₂) := by
  rcases Traced.bind_inv h with ⟨e, he, -⟩ | ⟨a, w₁, t₁, t₂, hx, hf, -⟩
  · cases he
  · exact ⟨a, w₁, t₁, t₂, hx, hf⟩

omit [FloatModel F] in
theorem callResolved_ok {shown : String} {args : List (Value F)} {callee : Callee} {w w' : W} {v : Value F}
    {t : List (Event F)} (h : callResolved c shown args callee w = (.ok v, w', t)) :
    c.call callee args w = (.ok v, w') := by
  have hhost : ∀ r, Traced.host (ε := Event F) (c.call r args) w = (.ok v, w', t) → c.call r args w = (.ok v, w') := by
    intro r hr
    obtain ⟨h1, h2⟩ := Prod.mk.inj hr
    exact Prod.ext h1 (Prod.mk.inj h2).1
  cases callee with
  | builtin name => exact hhost _ h
  | learnable name => exact hhost _ h
  | pattern p =>
    rw [callResolved] at h
    split_ifs at h with harity
    · cases h
    · exact hhost _ h

/-- What is inferred of an expression is so of its value. -/
theorem inferExpr_sound (hkeeps : Keeps c σ) (hΓ : Typed Γ env) {e : Expr F} {entry : TypeOrigin}
    (hinfer : inferExpr σ Γ e = some entry) {w w' : W} {v : Value F} {t : List (Event F)}
    (h : evalExpr c e env w = (.ok v, w', t)) : Fits entry.ty v := by
  cases e with
  | stringLit s =>
    rw [evalExpr] at h
    cases hinfer
    cases h
    trivial
  | floatLit f =>
    rw [evalExpr] at h
    cases hinfer
    cases h
    trivial
  | boolLit b =>
    rw [evalExpr] at h
    cases hinfer
    cases h
    trivial
  | list items =>
    rw [evalExpr] at h
    cases hinfer
    obtain ⟨vs, w₁, t₁, t₂, -, hpure⟩ := of_bind h
    cases hpure
    trivial
  | ident x =>
    rw [evalExpr, readVar] at h
    obtain ⟨u, hu, hfits⟩ := hΓ x entry hinfer
    rw [hu, Option.orElse_some] at h
    obtain ⟨-, w₁, t₁, t₂, -, hpure⟩ := of_bind h
    cases hpure
    exact hfits
  | fnCall name args line =>
    rw [evalExpr] at h
    obtain ⟨vs, w₁, t₁, t₂, -, hcall⟩ := of_bind h
    cases hresolve : c.resolve name with
    | none =>
      rw [hresolve] at hcall
      cases hcall
    | some callee =>
      rw [hresolve] at hcall
      exact hkeeps name callee entry hresolve hinfer vs w₁ v w' (callResolved_ok hcall)
  | fieldAccess => cases hinfer
  | qualifiedCall => cases hinfer
  | binaryOp => cases hinfer
  | ifElse => cases hinfer
  | indexAccess => cases hinfer
  | structLit => cases hinfer
  | blockIfElse => cases hinfer
  | matchExpr => cases hinfer
  | try_ => cases hinfer
  | handleSource => cases hinfer
  | provBind => cases hinfer

/-- One statement: the types behind it are right. -/
theorem after_typed (hkeeps : Keeps c σ) (hΓ : Typed Γ env) {s : Stmt F} (hs : settledStmt σ Γ s = true) {isLast : Bool}
    {last : Value F} {muts : List String} {w w' : W} {out : Outcome F} {t : List (Event F)}
    (h : evalStmt c s isLast last env muts w = (.ok out, w', t)) : Typed (after σ Γ s) out.2.1 := by
  have hframe := evalStmt_frames c s isLast last env muts w out w' t h
  cases s with
  | letBinding x e m =>
    rw [evalStmt] at h
    obtain ⟨v, w₁, t₁, t₂, hv, hrest⟩ := of_bind h
    obtain ⟨-, w₂, t₃, t₄, -, hpure⟩ := of_bind hrest
    cases hpure
    exact hΓ.rebind fun entry hentry => inferExpr_sound hkeeps hΓ hentry hv
  | assign x e =>
    rw [evalStmt] at h
    split_ifs at h with hmut
    · obtain ⟨v, w₁, t₁, t₂, hv, hrest⟩ := of_bind h
      obtain ⟨-, w₂, t₃, t₄, -, hrest⟩ := of_bind hrest
      obtain ⟨-, w₃, t₅, t₆, -, hpure⟩ := of_bind hrest
      cases hpure
      exact hΓ.rebind fun entry hentry => inferExpr_sound hkeeps hΓ hentry hv
    · obtain ⟨-, w₁, t₁, t₂, -, hfail⟩ := of_bind h
      cases hfail
  | each x it body => exact hΓ.frame (Bool.and_eq_true_iff.1 hs).1 hframe
  | eachWithIndex i x it body => exact hΓ.frame (Bool.and_eq_true_iff.1 hs).1 hframe
  | while_ cnd body => exact hΓ.frame hs hframe
  | ifElseBlock cnd thn rest => exact hΓ.frame hs hframe
  | ifThen cnd body => exact hΓ.frame hs hframe
  | return_ e => exact hΓ.frame hs hframe
  | exprStmt e => exact hΓ.frame hs hframe
  | match_ e arms => exact hΓ.frame hs hframe
  | break_ => exact hΓ.frame hs hframe
  | continue_ => exact hΓ.frame hs hframe
  | memorize e priority => exact hΓ.frame hs hframe
  | forget e days => exact hΓ.frame hs hframe
  | relate a b relation => exact hΓ.frame hs hframe

/-! ## The run and the walk -/

/-- The run comes to what the walk looks at, with these types. -/
inductive Sees (c : Interpreter F W) (σ : Scope) (Γ₀ : TypeEnv) (start : Eval F W) : TypeEnv → Eval F W → Prop
  | start : Sees c σ Γ₀ start Γ₀ start
  | first {Γ p s ss last env muts w} (h : Sees c σ Γ₀ start Γ ⟨p, .stmts (s :: ss) last env muts, w⟩) :
      Sees c σ Γ₀ start Γ ⟨p, .stmt s env muts, w⟩
  | next {Γ p s ss last env muts w v env' muts' w' t}
      (h : Sees c σ Γ₀ start Γ ⟨p, .stmts (s :: ss) last env muts, w⟩)
      (hs : evalStmt c s ss.isEmpty last env muts w = (.ok (.normal v, env', muts'), w', t)) :
      Sees c σ Γ₀ start (after σ Γ s) ⟨p + sizeStmt s, .stmts ss v env' muts', w'⟩
  | loop {Γ p s env muts w q bind body idx vs env' muts' w'} (h : Sees c σ Γ₀ start Γ ⟨p, .stmt s env muts, w⟩)
      (hloop : Calls c ⟨p, .stmt s env muts, w⟩ ⟨q, .eachLoop bind body idx vs env' muts', w'⟩) :
      Sees c σ Γ₀ start Γ ⟨q, .eachLoop bind body idx vs env' muts', w'⟩
  | round {Γ p bind body idx vs env muts w u} (h : Sees c σ Γ₀ start Γ ⟨p, .eachLoop bind body idx vs env muts, w⟩)
      (hround : Calls c ⟨p, .eachLoop bind body idx vs env muts, w⟩ u) : Sees c σ Γ₀ start Γ u

/-- What holds wherever the run sees something; `ws` are the warnings of the whole body. -/
def Fine (σ : Scope) (ws : List Warning) (Γ : TypeEnv) (u : Eval F W) : Prop :=
  match u.work with
  | .stmts ss _ env _ => Typed Γ env ∧ settled σ Γ ss = true ∧ walkBlock σ u.pos Γ ss ⊆ ws
  | .stmt s env _ => Typed Γ env ∧ settledStmt σ Γ s = true ∧ walkStmt σ u.pos Γ s ⊆ ws
  | .eachLoop bind body _ _ env _ => Typed Γ env ∧ (settled σ Γ body = true ∧ untouched Γ (setsStmts body) = true) ∧
      walkBlock σ u.pos Γ body ⊆ ws ∧ ∀ i v env, Typed Γ env → Typed Γ (bind i v env)
  | _ => True

theorem fine_loop {ws : List Warning} {p q : Nat} {s : Stmt F} {muts muts' : List String} {w w' : W}
    {bind : Nat → Value F → Env F → Env F} {body : List (Stmt F)} {idx : Nat} {vs : List (Value F)} {env' : Env F}
    (h : Fine σ ws Γ ⟨p, .stmt s env muts, w⟩)
    (hloop : Calls c ⟨p, .stmt s env muts, w⟩ ⟨q, .eachLoop bind body idx vs env' muts', w'⟩) :
    Fine σ ws Γ ⟨q, .eachLoop bind body idx vs env' muts', w'⟩ := by
  obtain ⟨hΓ, hs, hws⟩ := h
  cases hloop with
  | each hit hlim =>
    obtain ⟨hnames, hbody⟩ := Bool.and_eq_true_iff.1 hs
    refine ⟨hΓ, ⟨hbody, ?_⟩, hws, fun i v env henv => henv.frame hnames fun y hy => ?_⟩
    · rw [setsStmt, untouched, List.all_cons, Bool.and_eq_true] at hnames
      exact hnames.2
    · exact if_neg fun heq => hy (List.mem_cons.2 (.inl heq))
  | eachIndex hit hlim =>
    obtain ⟨hnames, hbody⟩ := Bool.and_eq_true_iff.1 hs
    refine ⟨hΓ, ⟨hbody, ?_⟩, hws, fun i v env henv => henv.frame hnames fun y hy => ?_⟩
    · rw [setsStmt, untouched, List.all_cons, List.all_cons, Bool.and_eq_true, Bool.and_eq_true] at hnames
      exact hnames.2.2
    · rw [setsStmt, List.mem_cons, List.mem_cons, not_or, not_or] at hy
      exact (if_neg hy.2.1).trans (if_neg hy.1)

theorem fine_round {ws : List Warning} {p : Nat} {muts : List String} {w : W} {bind : Nat → Value F → Env F → Env F}
    {body : List (Stmt F)} {idx : Nat} {vs : List (Value F)} {u : Eval F W}
    (h : Fine σ ws Γ ⟨p, .eachLoop bind body idx vs env muts, w⟩)
    (hround : Calls c ⟨p, .eachLoop bind body idx vs env muts, w⟩ u) : Fine σ ws Γ u := by
  obtain ⟨hΓ, ⟨hbody, hnames⟩, hws, hbind⟩ := h
  cases hround with
  | iteration hlim => exact ⟨hbind _ _ _ hΓ, hbody, hws⟩
  | nextIteration hlim hrun hgo hbrk =>
    have hkept := evalStmts_frames c body .unit _ muts w _ _ _ hrun
    exact ⟨(hbind _ _ _ hΓ).frame hnames hkept, ⟨hbody, hnames⟩, hws, hbind⟩

theorem Sees.fine (hkeeps : Keeps c σ) {Γ₀ : TypeEnv} {body : List (Stmt F)} (hsettled : settled σ Γ₀ body = true)
    {w : W} (henv : Typed Γ₀ env) {u : Eval F W} (h : Sees c σ Γ₀ (bodyRun body env w) Γ u) :
    Fine σ (walkBlock σ 0 Γ₀ body) Γ u := by
  induction h with
  | start => exact ⟨henv, hsettled, List.Subset.refl _⟩
  | first _ ih =>
    obtain ⟨hΓ, hs, hws⟩ := ih
    rw [settled, Bool.and_eq_true] at hs
    rw [walkBlock] at hws
    exact ⟨hΓ, hs.1, List.Subset.trans (List.subset_append_left _ _) hws⟩
  | next _ hs ih =>
    obtain ⟨hΓ, hset, hws⟩ := ih
    rw [settled, Bool.and_eq_true] at hset
    rw [walkBlock] at hws
    exact ⟨after_typed hkeeps hΓ hset.1 hs, hset.2, List.Subset.trans (List.subset_append_right _ _) hws⟩
  | loop _ hloop ih => exact fine_loop ih hloop
  | round _ hround ih => exact fine_round ih hround

/-! ## Warnings -/

/-- What a warning tells of the statement it stands at. -/
def Finding.Right (c : Interpreter F W) (s : Stmt F) (env : Env F) (w : W) : Finding → Prop
  | .conflict x prev next => ∃ e, s = .assign x e ∧ prev.ty ≠ next.ty ∧ (∃ v, env x = some v ∧ Fits prev.ty v) ∧
      ∀ v w' t, evalExpr c e env w = (.ok v, w', t) → Fits next.ty v
  | .declaredReturn _ _ declared got => ∃ e, s = .return_ e ∧ got.ty ≠ declared ∧
      ∀ v w' t, evalExpr c e env w = (.ok v, w', t) → Fits got.ty v

theorem findings_right (hkeeps : Keeps c σ) (hΓ : Typed Γ env) (w : W) {s : Stmt F} {f : Finding}
    (hf : f ∈ findings σ Γ s) : f.Right c s env w := by
  unfold findings at hf
  split at hf
  · next x e =>
    split at hf
    · next prev next hprev hnext =>
      split_ifs at hf with hne
      · obtain rfl := List.mem_singleton.1 hf
        exact ⟨e, rfl, hne, hΓ x prev hprev, fun v w' t h => inferExpr_sound hkeeps hΓ hnext h⟩
      · cases hf
    · cases hf
  · next e =>
    split at hf
    · next declared got hdeclared hgot =>
      split_ifs at hf with hne
      · obtain rfl := List.mem_singleton.1 hf
        exact ⟨e, rfl, hne, fun v w' t h => inferExpr_sound hkeeps hΓ hgot h⟩
      · cases hf
    · cases hf
  · cases hf

omit [FloatModel F] in
theorem mem_walkStmt {p : Nat} {s : Stmt F} {f : Finding} (hf : f ∈ findings σ Γ s) : ⟨p, f⟩ ∈ walkStmt σ p Γ s := by
  cases s with
  | each => cases hf
  | eachWithIndex => cases hf
  | _ => exact List.mem_map.2 ⟨f, hf, rfl⟩

/-- Where a run of a body comes to a statement that the walk looks at, the variables with a known type hold such values;
the findings of the walk there are among the warnings of the program, and right; and an assignment of a known type that
is not warned of keeps the type of its variable. -/
theorem stage1_sound {parseType : String → Ty} {registry : String → Option Ty} {decls : List (Decl F)} {b : Checked F}
    (hb : b ∈ checkedBodies parseType registry decls) (hkeeps : Keeps c b.scope)
    (hsettled : settled b.scope b.types b.body = true) (henv : Typed b.types env) {w : W} {p : Nat} {s : Stmt F}
    {env' : Env F} {muts : List String} {w' : W}
    (h : Sees c b.scope b.types (bodyRun b.body env w) Γ ⟨p, .stmt s env' muts, w'⟩) :
    Typed Γ env' ∧
      (∀ f ∈ findings b.scope Γ s, ⟨p, f⟩ ∈ stage1Warnings parseType registry decls ∧ f.Right c s env' w') ∧
      ∀ x e prev next, s = .assign x e → Γ.get x = some prev → inferExpr b.scope Γ e = some next →
        ⟨p, .conflict x prev next⟩ ∉ stage1Warnings parseType registry decls →
          ∀ v w'' t, evalExpr c e env' w' = (.ok v, w'', t) → Fits prev.ty v := by
  obtain ⟨hΓ, -, hws⟩ := h.fine hkeeps hsettled henv
  have hfound : ∀ f ∈ findings b.scope Γ s, ⟨p, f⟩ ∈ stage1Warnings parseType registry decls := fun f hf =>
    List.mem_flatMap.2 ⟨b, hb, hws (mem_walkStmt hf)⟩
  refine ⟨hΓ, fun f hf => ⟨hfound f hf, findings_right hkeeps hΓ w' hf⟩, fun x e prev next hs hprev hnext hquiet v w'' t hv => ?_⟩
  have hsame : prev.ty = next.ty := by
    by_contra hne
    refine hquiet (hfound _ ?_)
    rw [hs, findings, hprev, hnext]
    simp only [if_pos hne, List.mem_singleton]
  rw [hsame]
  exact inferExpr_sound hkeeps hΓ hnext hv

end

/-! ## A body -/

/-- `let mut x = "a"` and `x = 1`. -/
def Sample.body : List (Stmt Int) := [.letBinding "x" (.stringLit "a") true, .assign "x" (.floatLit 1)]

def Sample.checked : Checked Int := ⟨⟨fun _ => none, .empty, none, "test block", ""⟩, .empty, Sample.body⟩

theorem stage1_sound_reassigned : ∃ f, ⟨2, f⟩ ∈ stage1Warnings (fun _ => .unknown) (fun _ => none) [.test Sample.body] ∧
    f.Right noCallees (.assign "x" (.floatLit 1)) (Env.set (fun _ => none) "x" (.string "a")) () := by
  have hsees : Sees noCallees Sample.checked.scope Sample.checked.types (bodyRun Sample.body (fun _ => none) ())
      (after Sample.checked.scope .empty (.letBinding "x" (.stringLit "a") true : Stmt Int))
      ⟨2, .stmt (.assign "x" (.floatLit 1)) (Env.set (fun _ => none) "x" (.string "a")) ["x"], ()⟩ :=
    .first (.next .start rfl)
  have hb : Sample.checked ∈ checkedBodies (fun _ => .unknown) (fun _ => none) [.test Sample.body] :=
    List.mem_singleton_self _
  have hsound := stage1_sound hb (fun name callee entry hcallee => (by cases hcallee)) (by decide +kernel)
    (fun x entry hx => (by cases hx)) hsees
  have hmem : Finding.conflict "x" ⟨.string, "a string literal"⟩ ⟨.float, "a float literal"⟩ ∈
      findings Sample.checked.scope (after Sample.checked.scope .empty (.letBinding "x" (.stringLit "a") true : Stmt Int))
        (.assign "x" (.floatLit 1) : Stmt Int) := by decide +kernel
  exact ⟨_, hsound.2.1 _ hmem⟩

end Metalogos.Check.Types
