import Metalogos.Compile.Sites

/-!
# Declarations

The top-level declarations of a program (`src/ast.rs`), as far as the compiler's passes read them.
Declarations that neither name a slot nor emit code (profiles, templates, servers, reflexes,
databases, ..) are `other`.

`resolveImports` is phase 1 of `Compiler::compile`: the declarations of imported modules stand in the
place of their `import`, each module once. The module search, the file read and the parse are the
parameter `modules`.
-/
namespace Metalogos.Program

open Metalogos.Lang Metalogos.Machine Metalogos.Compile Metalogos.Lib

variable {F : Type}

/-- A pattern, or a method of a tool: a body under a name.
mirrors src/ast.rs `PatternDecl`, `ToolMethod` -/
structure FnDecl (F : Type) where
  name : String
  params : List (String × String)
  body : List (Stmt F)

/-- mirrors src/ast.rs `Condition` -/
inductive Condition (F : Type) where
  | contains (left right : Expr F)
  | compare (left : Expr F) (op : CompareOp) (right : Expr F)

/-- mirrors src/ast.rs `RuleDecl` -/
structure RuleDecl (F : Type) where
  condition : Condition F
  target : Expr F
  field : String
  value : Expr F
  priority : Int

/-- mirrors src/ast.rs `Branch`, `BranchCondition` -/
structure Branch (F : Type) where
  label : String
  field : String
  op : CompareOp
  threshold : Expr F
  target : String

/-- mirrors src/ast.rs `FlowDecl` -/
structure FlowDecl (F : Type) where
  name : String
  source : Expr F
  pipeline : List String
  branchDefs : List (String × List (Branch F))

/-- mirrors src/ast.rs `MutateDecl` -/
structure MutateDecl (F : Type) where
  pattern : String
  examples : List (Expr F × Expr F)
  rollbackThreshold : Option F
  rollbackOp : Option CompareOp
  rollbackMetric : Option String

/-- mirrors src/ast.rs `Declaration` -/
inductive Decl (F : Type) where
  | entityType (name : String) (fields : List String)
  | entityRecord (name typeName : String) (inits : List (String × Expr F))
  | entitySimple (name : String) (value : Expr F)
  | fluid (name : String) (variants : List (Expr F × F))
  | pattern (p : FnDecl F)
  | learnable (name : String)
  | rule (r : RuleDecl F)
  | memorize (value : Expr F) (priority : F)
  | forget (query : Expr F) (days : Int)
  | relate (source target : Expr F) (relation : String)
  | adapt (pattern : String) (input output : Expr F)
  | mutate (m : MutateDecl F)
  | flow (f : FlowDecl F)
  | tool (name : String) (methods : List (FnDecl F))
  | onDeny (cls : String) (body : List (Stmt F))
  | import_ (path : String) (asName : Option String)
  | other

/-- The key of a tool method in the pattern table.
mirrors src/compiler.rs:880 -/
def methodKey (tool method : String) : String := tool ++ "." ++ method

/-- The bodies a declaration puts into the pattern table, under their keys. -/
def Decl.fns : Decl F → List (FnDecl F)
  | .pattern p => [p]
  | .tool name methods => methods.map fun m => { m with name := methodKey name m.name }
  | _ => []

/-- The tool a declaration declares. -/
def Decl.tools : Decl F → List String
  | .tool name _ => [name]
  | _ => []

/-- The names of the learnables a declaration declares. -/
def Decl.learnables : Decl F → List String
  | .learnable name => [name]
  | _ => []

/-! ## Call sites of declarations -/

def fnSites (decls : List (Decl F)) : List Site :=
  decls.flatMap fun d => d.fns.flatMap fun p => sitesStmts p.body

def Decl.denySites : Decl F → List Site
  | .onDeny _ body => sitesStmts body
  | _ => []

/-- The field initializers in the order of the type's fields; a field without one has no code. -/
def recordInits (fields : List String) (inits : List (String × Expr F)) : List (Option (Expr F)) :=
  fields.map fun f => (inits.find? fun i => i.1 = f).map Prod.snd

/-! ## Imports -/

/-- One declaration of a module: an `import` is replaced by what `load` gives for its path, unless the
path was imported before.
mirrors src/compiler.rs:476-495 and :3878-3892 -/
def importStep (load : List String → String → Except String (List (Decl F) × List String))
    (acc : List (Decl F) × List String) : Decl F → Except String (List (Decl F) × List String)
  | .import_ path _ =>
    if path ∈ acc.2 then .ok acc
    else do
      let (ds, imported) ← load acc.2 path
      .ok (acc.1 ++ ds, imported)
  | d => .ok (acc.1 ++ [d], acc.2)

/-- The declarations of a module with its imports resolved, and the modules imported so far. The fuel
bounds the nesting of imports.
mirrors src/compiler.rs:3829-3895 -/
def resolveImport (modules : String → Except String (List (Decl F))) :
    Nat → List String → String → Except String (List (Decl F) × List String)
  | 0, _, path => .error ("import '" ++ path ++ "': nested too deep")
  | fuel + 1, imported, path =>
    if path ∈ imported then .ok ([], imported)
    else do
      let decls ← modules path
      decls.foldlM (importStep (resolveImport modules fuel)) ([], path :: imported)

/-- mirrors src/compiler.rs:476-495 -/
def resolveImports (modules : String → Except String (List (Decl F))) (fuel : Nat)
    (decls : List (Decl F)) : Except String (List (Decl F)) :=
  Prod.fst <$> decls.foldlM (importStep (resolveImport modules fuel)) ([], [])

section Imports

variable {modules : String → Except String (List (Decl F))} {P : Decl F → Prop}

theorem importFold_mem {load : List String → String → Except String (List (Decl F) × List String)}
    (hl : ∀ imported path r, load imported path = .ok r → ∀ d ∈ r.1, P d)
    (decls : List (Decl F)) (acc acc' : List (Decl F) × List String) (hd : ∀ d ∈ decls, P d)
    (hacc : ∀ d ∈ acc.1, P d) (h : decls.foldlM (importStep load) acc = .ok acc') : ∀ d ∈ acc'.1, P d := by
  refine foldlM_relates (R := fun ds acc acc' => (∀ d ∈ ds, P d) → (∀ d ∈ acc.1, P d) → ∀ d ∈ acc'.1, P d)
    (fun _ _ hacc => hacc) (fun hstep hrest hd hacc => ?_) decls h hd hacc
  rw [List.forall_mem_cons] at hd
  refine hrest hd.2 ?_
  unfold importStep at hstep
  split at hstep
  · split_ifs at hstep
    · cases hstep
      exact hacc
    · simp only [bind_ok, Except.ok.injEq] at hstep
      obtain ⟨r, hr, rfl⟩ := hstep
      exact List.forall_mem_append.mpr ⟨hacc, hl _ _ r hr⟩
  · cases hstep
    exact List.forall_mem_append.mpr ⟨hacc, by simpa using hd.1⟩

variable (hm : ∀ path ds, modules path = .ok ds → ∀ d ∈ ds, P d)

include hm

theorem resolveImport_mem : ∀ (fuel : Nat) (imported : List String) (path : String)
    (r : List (Decl F) × List String), resolveImport modules fuel imported path = .ok r →
      ∀ d ∈ r.1, P d := by
  intro fuel
  induction fuel with
  | zero =>
    intro imported path r h
    cases h
  | succ fuel ih =>
    intro imported path r h
    rw [resolveImport] at h
    split_ifs at h
    · cases h
      simp
    · rw [bind_ok] at h
      obtain ⟨decls, hd, h⟩ := h
      exact importFold_mem ih decls _ r (hm path decls hd) (by simp) h

/-- Every declaration of the result comes from the source or from a module. -/
theorem resolveImports_mem {fuel : Nat} {decls all : List (Decl F)} (hd : ∀ d ∈ decls, P d)
    (h : resolveImports modules fuel decls = .ok all) : ∀ d ∈ all, P d := by
  unfold resolveImports at h
  rw [map_ok] at h
  obtain ⟨acc, h, rfl⟩ := h
  exact importFold_mem (resolveImport_mem hm fuel) decls _ acc hd (by simp) h

end Imports

end Metalogos.Program
