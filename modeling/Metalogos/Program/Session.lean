import Metalogos.Program.Passes

/-!
# REPL sessions

`VmRepl::feed_line` (`src/lib.rs:621-637`): one line is compiled as a chunk against the session's
symbol base, its tables are appended to the live machine's, and its main code runs. The base moves on
only when the run ends without an error (`?` on the result of `run_chunk`), but the tables were
appended before the run: after a failing line the machine's tables are longer than the base says. The
check of `run_chunk` against a stale base does not see it, because `feed_line` takes the pattern and
learnable counts from the machine itself.

How the main code of a chunk ends is an input of a step. No instruction of compiled main code changes
the pattern table.
-/
namespace Metalogos.Program

open Metalogos.Lang Metalogos.Machine Metalogos.Compile Metalogos.Lib

variable {F : Type}

/-! ## Sites with names -/

/-- The expressions a declaration puts into the main code, but for the order of a record's fields. -/
def Decl.exprs : Decl F → List (Expr F)
  | .entityRecord _ _ inits => inits.map Prod.snd
  | .entitySimple _ value => [value]
  | .fluid _ variants => variants.map Prod.fst
  | .memorize value _ => [value]
  | .forget query _ => [query]
  | .relate source target _ => [source, target]
  | .adapt _ input output => [input, output]
  | .mutate m => m.examples.flatMap fun ex => [ex.1, ex.2]
  | .flow f => [f.source]
  | _ => []

/-- Every call of a declaration, in its bodies and in the main code. -/
def Decl.sites (d : Decl F) : List Site :=
  (d.fns.flatMap fun p => sitesStmts p.body) ++ d.denySites ++ sitesExprs d.exprs

def Decl.Named (d : Decl F) : Prop := ∀ s ∈ d.sites, s.Named

instance : DecidablePred (Decl.Named (F := F)) := fun d =>
  inferInstanceAs (Decidable (∀ s ∈ d.sites, s.Named))

/-! ## The live machine -/

/-- The tables of the machine that `run_chunk` extends.
mirrors src/vm.rs `Vm` -/
structure VmTables (F : Type) where
  globals : List String := []
  patterns : List (CompiledFn F) := []
  learnables : List String := []
  rules : List (CompiledRule F) := []
  denyHandlers : List (CompiledDenyHandler F) := []

/-- mirrors src/vm.rs `ChunkBase` -/
structure ChunkBase where
  globalCount : Nat
  patternCount : Nat
  learnableCount : Nat

/-- How the main code of a chunk ends; a failing run has registered some of its learnables. -/
inductive Outcome where
  | done
  | failed (registered : Nat) (e : String)

def Outcome.result : Outcome → Except String Unit
  | .done => .ok ()
  | .failed _ e => .error e

section Step

variable [FloatModel F]

/-- The learnables that are registered when the main code ends. -/
def Outcome.registered (code : List (MainInstr F)) : Outcome → List String
  | .done => registeredLearnables code
  | .failed n _ => (registeredLearnables code).take n

/-- mirrors src/vm.rs:4699-4827 -/
def runChunk (vm : VmTables F) (p : CompiledProgram F) (base : ChunkBase) (out : Outcome) :
    VmTables F × Except String Unit :=
  if vm.globals.length ≠ base.globalCount ∨ vm.patterns.length ≠ base.patternCount ∨
      vm.learnables.length ≠ base.learnableCount then
    (vm, .error ("VM run_chunk: stale session chunk — the base tables moved (expected "
      ++ toString base.globalCount ++ " globals / " ++ toString base.patternCount ++ " patterns / "
      ++ toString base.learnableCount ++ " learnables, got " ++ toString vm.globals.length ++ "/"
      ++ toString vm.patterns.length ++ "/" ++ toString vm.learnables.length
      ++ "); recompile the chunk against the live session"))
  else
    ({ globals := vm.globals ++ p.globals.drop base.globalCount
       patterns := vm.patterns ++ p.patterns
       learnables := vm.learnables ++ out.registered p.mainCode
       rules := (vm.rules ++ p.rules).mergeSort fun a b => decide (b.priority ≤ a.priority)
       denyHandlers := vm.denyHandlers ++ p.denyHandlers }, out.result)

/-! ## Lines -/

/-- What a session runs in: the host's registry, the module files, and the compile gates. A parsed file
has no empty names. -/
structure Env (F : Type) where
  reg : Registry F
  modules : String → Except String (List (Decl F))
  named : ∀ path ds, modules path = .ok ds → ∀ d ∈ ds, d.Named
  fuel : Nat
  gates : List (Decl F) → Except String Unit

/-- A parsed line, and how its run ends. -/
structure Line (F : Type) where
  decls : List (Decl F)
  named : ∀ d ∈ decls, d.Named
  out : Outcome

/-- mirrors src/lib.rs:599-602 -/
structure Repl (F : Type) where
  vm : VmTables F := {}
  base : SessionBase := {}

/-- What `feed_line` compiles a line to.
mirrors src/lib.rs:543-552 -/
def Env.compileLine (env : Env F) (r : Repl F) (l : Line F) :
    Except String (CompiledProgram F × SessionBase) := do
  env.gates l.decls
  compile env.reg env.modules env.fuel r.base l.decls

/-- mirrors src/lib.rs:627-631 -/
def Repl.chunkBase (r : Repl F) : ChunkBase where
  globalCount := r.base.globalNames.length
  patternCount := r.vm.patterns.length
  learnableCount := r.vm.learnables.length

/-- mirrors src/lib.rs:619-637 -/
def feedLine (env : Env F) (r : Repl F) (l : Line F) : Repl F × Except String Unit :=
  if l.decls.isEmpty then (r, .ok ())
  else match env.compileLine r l with
    | .error e => (r, .error e)
    | .ok (p, snapshot) =>
      match runChunk r.vm p r.chunkBase l.out with
      | (vm, .error e) => ({ vm := vm, base := r.base }, .error e)
      | (vm, .ok ()) => ({ vm := vm, base := snapshot }, .ok ())

def feedLines (env : Env F) (r : Repl F) (ls : List (Line F)) : Repl F :=
  ls.foldl (fun r l => (feedLine env r l).1) r

end Step

end Metalogos.Program
