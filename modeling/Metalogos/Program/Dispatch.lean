import Metalogos.Program.Session

/-!
# The dispatch table of a session

A `CallPattern` carries a position in the machine's pattern table. Pass 1 assigns the positions, pass 2
fills the bodies in, a snapshot writes the names down, the next chunk reads them back and continues
behind the live table. `Inv` is what ties these together: the base knows, for every name, the position
of its last declaration in the table.

It holds for as long as two things do not happen: a line that declares patterns fails at run time (its
bodies stay in the table, the base forgets them), and a line calls a method of a tool that an earlier
line declared (the session keeps no tool names, so the call falls through to a flat pattern).
-/
namespace Metalogos.Program

open Metalogos.Lang Metalogos.Machine Metalogos.Compile Metalogos.Lib

variable {F : Type}

/-! ## What the passes do -/

section Pass1

variable {reg : Registry F}

/-- The keys of the bodies a list of declarations adds to the table. -/
def fnKeys (decls : List (Decl F)) : List String := decls.flatMap fun d => d.fns.map (·.name)

/-- What pass 1 does to the tables of patterns and tools. -/
structure Collects (c c' : Compiler F) (keys tools : List String) : Prop where
  patterns : c'.patterns = keys.foldl SlotTable.declare c.patterns
  base : c'.patternBase = c.patternBase
  deny : c'.denyHandlers = c.denyHandlers
  tools : ∀ n, n ∈ c'.toolNames ↔ n ∈ tools ∨ n ∈ c.toolNames

theorem Collects.refl (c : Compiler F) : Collects c c [] [] := ⟨rfl, rfl, rfl, by simp⟩

theorem Collects.trans {c c' c'' : Compiler F} {k k' t t' : List String} (h : Collects c c' k t)
    (h' : Collects c' c'' k' t') : Collects c c'' (k ++ k') (t ++ t') where
  patterns := by rw [h'.patterns, h.patterns, List.foldl_append]
  base := h'.base.trans h.base
  deny := h'.deny.trans h.deny
  tools n := by
    rw [h'.tools, h.tools, List.mem_append]
    tauto

theorem pass1Step_collects {c c' : Compiler F} {d : Decl F} (h : pass1Step reg c d = .ok c') :
    Collects c c' (d.fns.map (·.name)) d.tools := by
  cases d with
  | rule r =>
    simp only [pass1Step, bind_ok, Except.ok.injEq] at h
    obtain ⟨r', -, rfl⟩ := h
    exact ⟨rfl, rfl, rfl, by simp [Decl.tools]⟩
  | tool name methods =>
    cases h
    refine ⟨?_, rfl, rfl, by simp [Decl.tools]⟩
    simp [Decl.fns, List.foldl_map]
  | pattern p =>
    cases h
    exact ⟨rfl, rfl, rfl, by simp [Decl.tools]⟩
  | _ =>
    cases h
    exact ⟨rfl, rfl, rfl, by simp [Decl.tools]⟩

theorem pass1_collects (decls : List (Decl F)) {c c' : Compiler F} (h : pass1 reg c decls = .ok c') :
    Collects c c' (fnKeys decls) (decls.flatMap Decl.tools) :=
  foldlM_relates (R := fun ds c c' => Collects c c' (fnKeys ds) (ds.flatMap Decl.tools)) Collects.refl
    (fun hstep hrest => (pass1Step_collects hstep).trans hrest) decls h

end Pass1

/-! ### Emission -/

def MainInstr.calls : MainInstr F → List Nat
  | .instr i => callsInstr i
  | _ => []

def mainCalls (code : List (MainInstr F)) : List Nat := code.flatMap MainInstr.calls

def bodyCalls (bodies : List (CompiledFn F)) : List Nat := bodies.flatMap fun f => callsCode f.code

/-- Every `CallPattern` index of a program, in the bodies, the deny handlers and the main code. -/
def CompiledProgram.calls (p : CompiledProgram F) : List Nat :=
  bodyCalls p.patterns ++ p.denyHandlers.flatMap (fun h => callsCode h.code) ++ mainCalls p.mainCode

/-- The calls a declaration puts into the main code; a record is built in the order of its type. -/
def Decl.mainSites (structFields : List (String × List String)) : Decl F → List Site
  | .entityRecord _ typeName inits =>
    match structFields.lookup typeName with
    | none => []
    | some fields => (recordInits fields inits).flatMap fun o => sitesExprs o.toList
  | d => sitesExprs d.exprs

/-- What a piece of pass 2 adds to the output. -/
structure Adds (t : Tables) (o o' : Emitted F) (keys : List String) (fns main : List Site) : Prop where
  keys : o'.bodies.map (·.name) = o.bodies.map (·.name) ++ keys
  fns : bodyCalls o'.bodies = bodyCalls o.bodies ++ fns.filterMap t.target
  main : mainCalls o'.code = mainCalls o.code ++ main.filterMap t.target

namespace Adds

variable {t : Tables} {o o' o'' : Emitted F} {k k' : List String} {f f' m m' : List Site}

theorem refl (o : Emitted F) : Adds t o o [] [] [] := ⟨by simp, by simp, by simp⟩

theorem trans (h : Adds t o o' k f m) (h' : Adds t o' o'' k' f' m') :
    Adds t o o'' (k ++ k') (f ++ f') (m ++ m') where
  keys := by rw [h'.keys, h.keys, List.append_assoc]
  fns := by rw [h'.fns, h.fns, List.filterMap_append, List.append_assoc]
  main := by rw [h'.main, h.main, List.filterMap_append, List.append_assoc]

theorem cast (h : Adds t o o' k f m) (hk : k = k') (hf : f = f') (hm : m = m') :
    Adds t o o' k' f' m' := by
  subst hk hf hm
  exact h

/-- Instructions that call no pattern. -/
theorem push (h : Adds t o o' k f m) {is : List (MainInstr F)} (his : mainCalls is = []) :
    Adds t o (o'.push is) k f m where
  keys := h.keys
  fns := h.fns
  main := by
    rw [← h.main, ← List.append_nil (mainCalls o'.code), ← his]
    exact List.flatMap_append

theorem foldlM {α : Type} {step : Emitted F → α → Except String (Emitted F)} {key : α → List String}
    {fn main : α → List Site}
    (hstep : ∀ o a o', step o a = .ok o' → Adds t o o' (key a) (fn a) (main a)) (as : List α) {o o' : Emitted F}
    (h : as.foldlM step o = .ok o') : Adds t o o' (as.flatMap key) (as.flatMap fn) (as.flatMap main) :=
  foldlM_relates (R := fun as o o' => Adds t o o' (as.flatMap key) (as.flatMap fn) (as.flatMap main)) refl
    (fun h₁ hrest => (hstep _ _ _ h₁).trans hrest) as h

end Adds

section Pass2

variable [FloatModel F] {reg : Registry F} {c : Compiler F}

omit [FloatModel F] in
theorem mainCalls_map_instr (frag : Frag F) :
    mainCalls (frag.map fun em => MainInstr.instr (em.resolve 0 0)) = callsFrag frag := by
  unfold mainCalls callsFrag
  rw [List.flatMap_map]
  exact List.flatMap_congr fun em _ => callsInstr_resolve 0 0 em

theorem compileInit_adds {o o' : Emitted F} {e : Expr F} (h : compileInit reg c o e = .ok o') :
    Adds (c.tables reg) o o' [] [] (sitesExpr e) := by
  simp only [compileInit, bind_ok, Except.ok.injEq] at h
  obtain ⟨⟨frag, cs⟩, h₁, rfl⟩ := h
  refine ⟨by simp [Emitted.push], by simp [Emitted.push], ?_⟩
  rw [← compileExpr_calls e h₁, ← mainCalls_map_instr]
  exact List.flatMap_append

theorem compileField_adds {o o' : Emitted F} {e : Option (Expr F)}
    (h : compileField reg c o e = .ok o') :
    Adds (c.tables reg) o o' [] [] (sitesExprs e.toList) := by
  cases e with
  | none =>
    cases h
    exact (Adds.refl o).push rfl
  | some e => simpa [sitesExprs] using compileInit_adds h

theorem compileFn_adds {o o' : Emitted F} {p : FnDecl F} (h : compileFn reg c o p = .ok o') :
    Adds (c.tables reg) o o' [p.name] (sitesStmts p.body) [] := by
  simp only [compileFn, bind_ok, Except.ok.injEq] at h
  obtain ⟨is, h₁, rfl⟩ := h
  refine ⟨by simp, ?_, by simp [mainCalls, MainInstr.calls]⟩
  rw [← compilePatternBody_calls h₁]
  simp [bodyCalls]

theorem fluid_adds {o o' : Emitted F} {variants : List (Expr F × F)}
    (h : variants.foldlM (fun o v => do
      let o ← compileInit reg c o v.1
      .ok (o.push [.instr (.const (.float v.2))])) o = .ok o') :
    Adds (c.tables reg) o o' [] [] (variants.flatMap fun v => sitesExpr v.1) := by
  have hv : ∀ (o : Emitted F) (v : Expr F × F) o', (do
      let o ← compileInit reg c o v.1
      .ok (o.push [.instr (.const (.float v.2))])) = Except.ok o' →
      Adds (c.tables reg) o o' [] [] (sitesExpr v.1) := by
    intro o v o' h
    simp only [bind_ok, Except.ok.injEq] at h
    obtain ⟨o₂, h₂, rfl⟩ := h
    exact (compileInit_adds h₂).push rfl
  exact (Adds.foldlM hv _ h).cast (by simp) (by simp) rfl

theorem examples_adds {o o' : Emitted F} {examples : List (Expr F × Expr F)}
    (h : examples.foldlM (fun o ex => do
      let o ← compileInit reg c o ex.1
      compileInit reg c o ex.2) o = .ok o') :
    Adds (c.tables reg) o o' [] [] (examples.flatMap fun ex => sitesExpr ex.1 ++ sitesExpr ex.2) := by
  have hv : ∀ (o : Emitted F) (ex : Expr F × Expr F) o', (do
      let o ← compileInit reg c o ex.1
      compileInit reg c o ex.2) = Except.ok o' →
      Adds (c.tables reg) o o' [] [] (sitesExpr ex.1 ++ sitesExpr ex.2) := by
    intro o ex o' h
    rw [bind_ok] at h
    obtain ⟨o₂, h₂, h⟩ := h
    exact (compileInit_adds h₂).trans (compileInit_adds h)
  exact (Adds.foldlM hv _ h).cast (by simp) (by simp) rfl

theorem methods_adds {o o' : Emitted F} {name : String} {methods : List (FnDecl F)}
    (h : methods.foldlM (fun o m => compileFn reg c o { m with name := methodKey name m.name }) o =
      .ok o') :
    Adds (c.tables reg) o o' ((Decl.tool name methods).fns.map (·.name))
      ((Decl.tool name methods).fns.flatMap fun p => sitesStmts p.body) [] := by
  refine (Adds.foldlM (fun _ _ _ h => compileFn_adds h) _ h).cast ?_ ?_ (by simp)
  · rw [Decl.fns, List.map_map, List.map_eq_flatMap]
    rfl
  · simp [Decl.fns, List.flatMap_map]

/-- One declaration adds its bodies under their keys and its calls in order. -/
theorem pass2Step_adds {o o' : Emitted F} {d : Decl F} (h : pass2Step reg c o d = .ok o') :
    Adds (c.tables reg) o o' (d.fns.map (·.name)) (d.fns.flatMap fun p => sitesStmts p.body)
      (d.mainSites c.structFields) := by
  cases d with
  | entityRecord name typeName inits =>
    simp only [pass2Step, Decl.mainSites] at h ⊢
    cases hf : c.structFields.lookup typeName with
    | none =>
      rw [hf] at h
      cases h
    | some fields =>
      simp only [hf, bind_ok, Except.ok.injEq] at h ⊢
      obtain ⟨o₁, h₁, rfl⟩ := h
      have hfields := Adds.foldlM (fun _ _ _ h => compileField_adds h) _ h₁
      exact Adds.push (hfields.cast (by simp [Decl.fns]) (by simp [Decl.fns]) rfl) rfl
  | entitySimple name value =>
    simp only [pass2Step, bind_ok, Except.ok.injEq] at h
    obtain ⟨o₁, h₁, rfl⟩ := h
    exact Adds.push ((compileInit_adds h₁).cast rfl rfl (by simp [Decl.mainSites, Decl.exprs, sitesExprs]))
      rfl
  | fluid name variants =>
    simp only [pass2Step, bind_ok, Except.ok.injEq] at h
    obtain ⟨o₁, h₁, rfl⟩ := h
    exact Adds.push ((fluid_adds h₁).cast rfl rfl
      (by simp [Decl.mainSites, Decl.exprs, sitesExprs_eq, List.flatMap_map])) rfl
  | pattern p =>
    exact (compileFn_adds h).cast rfl (by simp [Decl.fns]) rfl
  | tool name methods => exact methods_adds h
  | learnable name =>
    cases h
    exact (Adds.refl o).push rfl
  | memorize value _ | forget value _ =>
    simp only [pass2Step, bind_ok, Except.ok.injEq] at h
    obtain ⟨o₁, h₁, rfl⟩ := h
    exact Adds.push ((compileInit_adds h₁).cast rfl rfl (by simp [Decl.mainSites, Decl.exprs, sitesExprs]))
      rfl
  | relate a b _ | adapt _ a b =>
    simp only [pass2Step, bind_ok, Except.ok.injEq] at h
    obtain ⟨o₁, h₁, o₂, h₂, rfl⟩ := h
    exact Adds.push (((compileInit_adds h₁).trans (compileInit_adds h₂)).cast rfl rfl
      (by simp [Decl.mainSites, Decl.exprs, sitesExprs])) rfl
  | mutate m =>
    simp only [pass2Step, bind_ok, Except.ok.injEq] at h
    obtain ⟨o₁, h₁, rfl⟩ := h
    exact Adds.push ((examples_adds h₁).cast rfl rfl
      (by simp [Decl.mainSites, Decl.exprs, sitesExprs_eq, List.flatMap_assoc])) rfl
  | flow f =>
    simp only [pass2Step, bind_ok, Except.ok.injEq] at h
    obtain ⟨o₁, h₁, rfl⟩ := h
    have hr : Adds (c.tables reg) o (if c.rules.isEmpty then o else o.push [.executeRules])
        [] [] [] := by
      split
      · exact .refl o
      · exact (Adds.refl o).push rfl
    exact Adds.push ((hr.trans (compileInit_adds h₁)).cast rfl rfl
      (by simp [Decl.mainSites, Decl.exprs, sitesExprs])) rfl
  | entityType _ _ | rule _ | onDeny _ _ | import_ _ _ | other =>
    cases h
    exact .refl o

theorem pass2_adds {decls : List (Decl F)} {o : Emitted F} (h : pass2 reg c decls = .ok o) :
    Adds (c.tables reg) ⟨[], []⟩ o (fnKeys decls) (fnSites decls)
      (decls.flatMap fun d => d.mainSites c.structFields) := by
  simp only [pass2, bind_ok, Except.ok.injEq] at h
  obtain ⟨o₁, h₁, rfl⟩ := h
  exact (Adds.foldlM (fun _ _ _ h => pass2Step_adds h) _ h₁).push rfl

/-! ### Deny handlers -/

omit [FloatModel F] in
/-- Which `CallPattern` a site becomes depends on the builtins, the patterns and the tools only. -/
theorem target_congr {c c' : Compiler F} (hp : c'.patterns = c.patterns)
    (ht : c'.toolNames = c.toolNames) : (c'.tables reg).target = (c.tables reg).target := by
  cases c
  cases c'
  simp only at hp ht
  subst hp ht
  rfl

/-- What pass 1.5 does: handlers are added, the other tables stay. -/
structure Handles (reg : Registry F) (c c' : Compiler F) (sites : List Site) : Prop where
  patterns : c'.patterns = c.patterns
  base : c'.patternBase = c.patternBase
  tools : c'.toolNames = c.toolNames
  fields : c'.structFields = c.structFields
  calls : c'.denyHandlers.flatMap (fun h => callsCode h.code) =
    c.denyHandlers.flatMap (fun h => callsCode h.code) ++ sites.filterMap (c.tables reg).target

theorem denyStep_handles {c c' : Compiler F} {d : Decl F × Nat} (h : denyStep reg c d = .ok c') :
    Handles reg c c' d.1.denySites := by
  unfold denyStep at h
  split at h
  · rename_i cls body i
    simp only [bind_ok, Except.ok.injEq] at h
    obtain ⟨⟨frag, cs⟩, h₁, rfl⟩ := h
    refine ⟨rfl, rfl, rfl, rfl, ?_⟩
    simp only [Decl.denySites]
    rw [← compileStmts_calls (.plain false) body h₁]
    simp [callsCode_append, callsCode_resolve, callsCode, callsInstr]
  · rename_i hne
    cases h
    refine ⟨rfl, rfl, rfl, rfl, ?_⟩
    obtain ⟨d, i⟩ := d
    cases d with
    | onDeny cls body => exact absurd rfl (hne cls body i)
    | _ => simp [Decl.denySites]

omit [FloatModel F] in
theorem Handles.refl (c : Compiler F) : Handles reg c c [] :=
  ⟨rfl, rfl, rfl, rfl, by simp⟩

omit [FloatModel F] in
theorem Handles.trans {c c₁ c₂ : Compiler F} {a b : List Site} (ha : Handles reg c c₁ a) (hb : Handles reg c₁ c₂ b) :
    Handles reg c c₂ (a ++ b) := by
  refine ⟨hb.patterns.trans ha.patterns, hb.base.trans ha.base, hb.tools.trans ha.tools,
    hb.fields.trans ha.fields, ?_⟩
  rw [hb.calls, ha.calls, target_congr ha.patterns ha.tools, List.append_assoc, ← List.filterMap_append]

theorem denyFold_handles (ds : List (Decl F × Nat)) {c c' : Compiler F} (h : ds.foldlM (denyStep reg) c = .ok c') :
    Handles reg c c' (ds.flatMap fun d => d.1.denySites) :=
  foldlM_relates (R := fun ds c c' => Handles reg c c' (ds.flatMap fun d => d.1.denySites)) Handles.refl
    (fun hstep hrest => (denyStep_handles hstep).trans hrest) ds h

theorem compileDenyHandlers_handles {decls : List (Decl F)} {c c' : Compiler F}
    (h : compileDenyHandlers reg c decls = .ok c') :
    Handles reg c c' (decls.flatMap Decl.denySites) := by
  have := denyFold_handles decls.zipIdx h
  rwa [← List.flatMap_map Prod.fst Decl.denySites, List.zipIdx_map_fst] at this

/-! ### The whole compilation -/

/-- The calls of a compiled list of declarations in the order of `CompiledProgram.calls`. -/
def chunkSites (structFields : List (String × List String)) (decls : List (Decl F)) : List Site :=
  fnSites decls ++ decls.flatMap Decl.denySites ++ decls.flatMap (Decl.mainSites structFields)

/-- What a successful compilation gives: `all` are the declarations with the imports resolved, `c` the
compiler at the end. -/
structure Compiles (env : Env F) (base : SessionBase) (decls all : List (Decl F)) (c : Compiler F)
    (p : CompiledProgram F) (snapshot : SessionBase) : Prop where
  resolved : resolveImports env.modules env.fuel decls = .ok all
  patterns : c.patterns = (fnKeys all).foldl SlotTable.declare (.ofNames base.patternNames)
  tools : ∀ n, n ∈ c.toolNames ↔ n ∈ all.flatMap Decl.tools
  keys : p.patterns.map (·.name) = fnKeys all
  calls : p.calls = (chunkSites c.structFields all).filterMap (c.tables env.reg).target
  snapshot : snapshot = c.sessionBaseSnapshot

theorem compile_compiles {env : Env F} {base : SessionBase} {decls : List (Decl F)}
    {p : CompiledProgram F} {snapshot : SessionBase}
    (h : compile env.reg env.modules env.fuel base decls = .ok (p, snapshot)) :
    ∃ all c, Compiles env base decls all c p snapshot := by
  simp only [compile, bind_ok, Except.ok.injEq, Prod.mk.injEq] at h
  obtain ⟨all, hall, c₁, h₁, c, hd, o, h₂, -, -, -, -, rfl, rfl⟩ := h
  have hcol := pass1_collects all h₁
  have hh := compileDenyHandlers_handles hd
  have ha := pass2_adds h₂
  refine ⟨all, c, hall, hh.patterns.trans hcol.patterns, ?_, by simpa using ha.keys, ?_, rfl⟩
  · intro n
    rw [hh.tools, hcol.tools]
    simp [Compiler.withSession]
  · have hdeny := hh.calls
    rw [hcol.deny] at hdeny
    rw [CompiledProgram.calls, ha.fns, ha.main, hdeny, ← target_congr hh.patterns hh.tools]
    simp [chunkSites, bodyCalls, mainCalls, Compiler.withSession]

end Pass2

/-! ## Sessions -/

/-- The last declaration of a name. -/
def lastDecl (fns : List (CompiledFn F)) (name : String) : Option (CompiledFn F) :=
  fns.reverse.find? fun f => f.name = name

theorem getElem?_lastIdx {fns : List (CompiledFn F)} {name : String} {i : Nat}
    (h : lastIdx name (fns.map (·.name)) = some i) : fns[i]? = lastDecl fns name := by
  induction fns using List.reverseRecOn generalizing i with
  | nil => simp [lastIdx] at h
  | append_singleton fns f ih =>
    rw [List.map_append, List.map_singleton, lastIdx_concat] at h
    rw [lastDecl, List.reverse_append, List.reverse_singleton, List.singleton_append, List.find?_cons]
    by_cases hf : f.name = name
    · rw [if_pos hf, Option.some.injEq] at h
      rw [← h, List.length_map]
      simp [hf]
    · rw [if_neg hf] at h
      have hi : i < fns.length := by
        have := ((lastIdx_eq_some_iff name _ i).mp h).1
        rw [List.getElem?_map, Option.map_eq_some_iff] at this
        obtain ⟨g, hg, -⟩ := this
        exact (List.getElem?_eq_some_iff.mp hg).1
      rw [List.getElem?_append_left hi, ih h, lastDecl]
      simp [hf]

/-- The name a call means: qualified by a tool, the method of that tool; otherwise the function. -/
def meantName (tools : List String) : Site → String
  | .plain name => name
  | .qualified ns fn => if ns ∈ tools then methodKey ns fn else fn

/-- The code of a line once it is loaded: its calls in the source and in the code, and the bodies and
tools declared when it was compiled. -/
structure Loaded (F : Type) where
  sites : List Site
  calls : List Nat
  visible : List (CompiledFn F)
  tools : List String

/-- Each `CallPattern` of the loaded code belongs to a call of the source, in order, and its index
denotes in `table` the last declaration of the name that call means. -/
def Loaded.Exact (l : Loaded F) (table : List (CompiledFn F)) : Prop :=
  ∃ pairs : List (Site × Nat), pairs.map Prod.snd = l.calls ∧ (pairs.map Prod.fst).Sublist l.sites ∧
    ∀ p ∈ pairs, ∃ f, table[p.2]? = some f ∧ lastDecl l.visible (meantName l.tools p.1) = some f

section Session

variable [FloatModel F]

/-- A session and what happened in it: the bodies and tools its kept lines declared, and the code
loaded so far. -/
structure Trace (F : Type) where
  repl : Repl F := {}
  visible : List (CompiledFn F) := []
  tools : List String := []
  loaded : List (Loaded F) := []

/-- The declarations of a line with its imports resolved. -/
def Env.allDecls (env : Env F) (l : Line F) : List (Decl F) :=
  match resolveImports env.modules env.fuel l.decls with
  | .ok all => all
  | .error _ => []

/-- The machine does not refuse the line as stale. -/
def Repl.accepts (r : Repl F) : Bool := r.vm.globals.length = r.base.globalNames.length

/-- The program a line brings into the machine, if any, and the symbol tables after it. -/
def Env.load (env : Env F) (r : Repl F) (l : Line F) : Option (CompiledProgram F × SessionBase) :=
  if l.decls.isEmpty then none
  else match env.compileLine r l with
    | .error _ => none
    | .ok r' => if r.accepts then some r' else none

/-- The record of a loaded line. -/
def Trace.record (env : Env F) (tr : Trace F) (l : Line F) (p : CompiledProgram F)
    (snapshot : SessionBase) : Loaded F where
  sites := chunkSites snapshot.structFields (env.allDecls l)
  calls := p.calls
  visible := tr.visible ++ p.patterns
  tools := tr.tools ++ (env.allDecls l).flatMap Decl.tools

/-- One line; what a failing line declares is not kept. -/
def Trace.step (env : Env F) (tr : Trace F) (l : Line F) : Trace F :=
  match env.load tr.repl l with
  | none => { tr with repl := (feedLine env tr.repl l).1 }
  | some (p, snapshot) =>
    let ld := tr.record env l p snapshot
    match l.out with
    | .done => {
        repl := (feedLine env tr.repl l).1, visible := ld.visible, tools := ld.tools
        loaded := tr.loaded ++ [ld] }
    | .failed _ _ => { tr with
        repl := (feedLine env tr.repl l).1, loaded := tr.loaded ++ [ld] }

def Trace.run (env : Env F) (tr : Trace F) (ls : List (Line F)) : Trace F := ls.foldl (Trace.step env) tr

theorem Trace.step_repl (env : Env F) (tr : Trace F) (l : Line F) :
    (tr.step env l).repl = (feedLine env tr.repl l).1 := by
  unfold Trace.step
  split
  · rfl
  · split <;> rfl

theorem Trace.run_repl (env : Env F) (ls : List (Line F)) : ∀ tr : Trace F,
    (tr.run env ls).repl = feedLines env tr.repl ls := by
  induction ls with
  | nil =>
    intro tr
    rfl
  | cons l ls ih =>
    intro tr
    rw [Trace.run, List.foldl_cons, feedLines, List.foldl_cons, ← tr.step_repl env l]
    exact ih (tr.step env l)

/-! ### What a line must not do -/

def Outcome.isDone : Outcome → Bool
  | .done => true
  | .failed _ _ => false

/-- A call qualified by a tool that only earlier lines declared (`earlier`, `own` are the tools of the
earlier lines and of this one) finds no flat pattern of the method's name. -/
def siteOk (reg : Registry F) (earlier own : List String) (visible : List (CompiledFn F)) : Site → Bool
  | .plain _ => true
  | .qualified ns fn => !(ns ∈ earlier) || ns ∈ own || (reg.builtinIdx (ns ++ "." ++ fn)).isSome ||
    (lastDecl visible fn).isNone

/-- A line that declares bodies runs to its end, and no call of it falls through to a flat pattern. -/
def stepOk (env : Env F) (tr : Trace F) (l : Line F) : Bool :=
  match env.load tr.repl l with
  | none => true
  | some (p, snapshot) =>
    (l.out.isDone || p.patterns.isEmpty) &&
      (tr.record env l p snapshot).sites.all
        (siteOk env.reg tr.tools ((env.allDecls l).flatMap Decl.tools) (tr.visible ++ p.patterns))

/-- Every line of a run meets the condition. -/
def runOk (env : Env F) : Trace F → List (Line F) → Bool
  | _, [] => true
  | tr, l :: ls => stepOk env tr l && runOk env (tr.step env l) ls

/-! ### The invariant -/

/-- The base gives every name the position of its last declaration in the machine's table, and all the
loaded code is exact. -/
structure Inv (tr : Trace F) : Prop where
  table : tr.repl.vm.patterns = tr.visible
  length : tr.repl.base.patternNames.length = tr.visible.length
  last : ∀ n, n ≠ "" → lastIdx n tr.repl.base.patternNames = lastIdx n (tr.visible.map (·.name))
  loaded : ∀ l ∈ tr.loaded, l.Exact tr.repl.vm.patterns

omit [FloatModel F] in
/-- The table only grows. -/
theorem Loaded.Exact.append {l : Loaded F} {table : List (CompiledFn F)} (h : l.Exact table)
    (more : List (CompiledFn F)) : l.Exact (table ++ more) := by
  obtain ⟨pairs, hc, hs, hp⟩ := h
  refine ⟨pairs, hc, hs, fun p hpm => ?_⟩
  obtain ⟨f, hf, hl⟩ := hp p hpm
  exact ⟨f, by rw [List.getElem?_append_left (List.getElem?_eq_some_iff.mp hf).1, hf], hl⟩

/-! ### One line -/

omit [FloatModel F] in
/-- A refused line: the counts of patterns and learnables are the machine's own, so only the globals
can differ. -/
theorem runChunk_eq (r : Repl F) (p : CompiledProgram F) (out : Outcome) :
    (r.accepts = false → ∃ e, runChunk r.vm p r.chunkBase out = (r.vm, .error e)) ∧
      (r.accepts = true → (runChunk r.vm p r.chunkBase out).1.patterns = r.vm.patterns ++ p.patterns ∧
        (runChunk r.vm p r.chunkBase out).2 = out.result) := by
  constructor
  · intro ha
    have hne : r.vm.globals.length ≠ r.chunkBase.globalCount := by
      simpa [Repl.accepts, Repl.chunkBase] using ha
    rw [runChunk, if_pos (Or.inl hne)]
    exact ⟨_, rfl⟩
  · intro ha
    have hfresh : ¬ (r.vm.globals.length ≠ r.chunkBase.globalCount ∨
        r.vm.patterns.length ≠ r.chunkBase.patternCount ∨
        r.vm.learnables.length ≠ r.chunkBase.learnableCount) := by
      simpa [Repl.accepts, Repl.chunkBase] using ha
    rw [runChunk, if_neg hfresh]
    exact ⟨rfl, rfl⟩

theorem feedLine_none {env : Env F} {r : Repl F} {l : Line F} (h : env.load r l = none) :
    (feedLine env r l).1 = r := by
  by_cases he : l.decls.isEmpty = true
  · rw [feedLine, if_pos he]
  · rw [Env.load, if_neg he] at h
    rw [feedLine, if_neg he]
    cases hc : env.compileLine r l with
    | error e => rfl
    | ok q =>
      simp only [hc] at h ⊢
      cases ha : r.accepts with
      | true => simp [ha] at h
      | false =>
        obtain ⟨e, hr⟩ := (runChunk_eq r q.1 l.out).1 ha
        rw [hr]

theorem feedLine_some {env : Env F} {r : Repl F} {l : Line F} {p : CompiledProgram F}
    {snapshot : SessionBase} (h : env.load r l = some (p, snapshot)) :
    compile env.reg env.modules env.fuel r.base l.decls = .ok (p, snapshot) ∧
      (feedLine env r l).1.vm.patterns = r.vm.patterns ++ p.patterns ∧
      (feedLine env r l).1.base = if l.out.isDone then snapshot else r.base := by
  by_cases he : l.decls.isEmpty = true
  · rw [Env.load, if_pos he] at h
    cases h
  · rw [Env.load, if_neg he] at h
    rw [feedLine, if_neg he]
    cases hc : env.compileLine r l with
    | error e => simp [hc] at h
    | ok q =>
      simp only [hc] at h ⊢
      cases ha : r.accepts with
      | false => simp [ha] at h
      | true =>
        rw [if_pos ha] at h
        cases h
        rw [Env.compileLine, bind_ok] at hc
        obtain ⟨-, -, hc⟩ := hc
        obtain ⟨hp, hout⟩ := (runChunk_eq r p l.out).2 ha
        refine ⟨hc, ?_⟩
        cases hrun : runChunk r.vm p r.chunkBase l.out with
        | mk vm res =>
          rw [hrun] at hp hout
          simp only at hp hout
          subst hout
          cases l.out with
          | done => exact ⟨hp, rfl⟩
          | failed n e => exact ⟨hp, rfl⟩

omit [FloatModel F] in
/-- Every call of an accepted line is named. -/
theorem chunkSites_named {env : Env F} {l : Line F} {all : List (Decl F)}
    (h : resolveImports env.modules env.fuel l.decls = .ok all)
    (structFields : List (String × List String)) :
    ∀ s ∈ chunkSites structFields all, s.Named := by
  have hall : ∀ d ∈ all, d.Named := resolveImports_mem env.named l.named h
  have hmain : ∀ d ∈ all, ∀ s ∈ d.mainSites structFields, s.Named := by
    intro d hd s hs
    refine hall d hd s (List.mem_append_right _ ?_)
    cases d with
    | entityRecord name typeName inits =>
      simp only [Decl.mainSites] at hs
      split at hs
      · cases hs
      · rename_i fields hf
        simp only [recordInits, List.flatMap_map, List.mem_flatMap, sitesExprs_eq] at hs
        obtain ⟨f, -, e, he, hs⟩ := hs
        simp only [Option.mem_toList, Option.map_eq_some_iff] at he
        obtain ⟨i, hi, rfl⟩ := he
        rw [sitesExprs_eq, List.mem_flatMap]
        exact ⟨i.2, List.mem_map_of_mem (List.mem_of_find?_eq_some hi), hs⟩
    | _ => exact hs
  intro s hs
  simp only [chunkSites, fnSites, List.mem_append, List.mem_flatMap] at hs
  rcases hs with (⟨d, hd, hs⟩ | ⟨d, hd, hs⟩) | ⟨d, hd, hs⟩
  · refine hall d hd s (List.mem_append_left _ (List.mem_append_left _ ?_))
    simpa [List.mem_flatMap] using hs
  · exact hall d hd s (List.mem_append_left _ (List.mem_append_right _ hs))
  · exact hmain d hd s hs

theorem methodKey_ne_empty (ns fn : String) : methodKey ns fn ≠ "" := by
  unfold methodKey
  intro h
  have := congrArg String.length h
  simp at this

omit [FloatModel F] in
/-- The tables of a line start from the bodies declared so far and end with its own. -/
theorem Compiles.tracks {env : Env F} {tr : Trace F} {l : Line F} {all : List (Decl F)}
    {c : Compiler F} {p : CompiledProgram F} {snapshot : SessionBase} (hinv : Inv tr)
    (hc : Compiles env tr.repl.base l.decls all c p snapshot) :
    c.patterns.Tracks (tr.repl.base.patternNames ++ fnKeys all) ∧
      ∀ n, n ≠ "" → lastIdx n (tr.repl.base.patternNames ++ fnKeys all) =
        lastIdx n ((tr.visible ++ p.patterns).map (·.name)) := by
  refine ⟨?_, fun n hn => ?_⟩
  · rw [hc.patterns]
    exact (SlotTable.tracks_ofNames tr.repl.base.patternNames).foldl (fnKeys all)
  · rw [List.map_append, hc.keys, lastIdx_append, lastIdx_append, hinv.last n hn, hinv.length,
      List.length_map]

omit [FloatModel F] in
/-- The name a call means has the index it is compiled to as the position of its last declaration. -/
theorem target_last {env : Env F} {tr : Trace F} {l : Line F} {all : List (Decl F)} {c : Compiler F}
    {p : CompiledProgram F} {snapshot : SessionBase} (hinv : Inv tr)
    (hc : Compiles env tr.repl.base l.decls all c p snapshot) {s : Site} {i : Nat} (hn : s.Named)
    (hok : siteOk env.reg tr.tools (all.flatMap Decl.tools) (tr.visible ++ p.patterns) s = true)
    (ht : (c.tables env.reg).target s = some i) :
    lastIdx (meantName (tr.tools ++ all.flatMap Decl.tools) s)
      ((tr.visible ++ p.patterns).map (·.name)) = some i := by
  obtain ⟨htr, hsame⟩ := hc.tracks hinv
  have hlookup : ∀ n, n ≠ "" →
      c.patterns.lookup n = lastIdx n ((tr.visible ++ p.patterns).map (·.name)) := by
    intro n hn
    rw [htr.last, hsame n hn]
  have htool : ∀ ns, (c.tables env.reg).isTool ns = true ↔ ns ∈ all.flatMap Decl.tools := by
    intro ns
    rw [← hc.tools]
    simp [Compiler.tables]
  cases s with
  | plain name =>
    simp only [Tables.target] at ht
    split at ht
    · cases ht
    · rw [meantName, ← hlookup name hn]
      exact ht
  | qualified ns fn =>
    simp only [Tables.target] at ht
    split at ht
    · cases ht
    · rename_i hb
      by_cases hown : ns ∈ all.flatMap Decl.tools
      · rw [if_pos ((htool ns).mpr hown)] at ht
        split at ht
        · cases ht
        · rw [meantName, if_pos (List.mem_append_right _ hown), ← hlookup _ (methodKey_ne_empty ns fn)]
          exact ht
      · rw [if_neg (mt (htool ns).mp hown)] at ht
        have hfn : lastIdx fn ((tr.visible ++ p.patterns).map (·.name)) = some i := by
          rw [← hlookup fn hn]
          exact ht
        by_cases hearly : ns ∈ tr.tools
        · -- a tool of an earlier line: the condition leaves no flat pattern to fall through to
          have hb' : env.reg.builtinIdx (ns ++ "." ++ fn) = none := hb
          have hnone : lastDecl (tr.visible ++ p.patterns) fn = none := by
            simpa [siteOk, hearly, hown, hb'] using hok
          rw [← getElem?_lastIdx hfn] at hnone
          have := ((lastIdx_eq_some_iff fn _ i).mp hfn).1
          rw [List.getElem?_map, hnone] at this
          cases this
        · have hnot : ns ∉ tr.tools ++ all.flatMap Decl.tools := fun hm =>
            (List.mem_append.mp hm).elim hearly hown
          rw [meantName, if_neg hnot]
          exact hfn

omit [FloatModel F] in
theorem filterMap_self_sublist {α β : Type} (f : α → Option β) :
    ∀ l : List α, (l.filterMap fun a => (f a).map fun _ => a).Sublist l := by
  intro l
  induction l with
  | nil => exact .slnil
  | cons a l ih =>
    cases h : f a with
    | none =>
      rw [List.filterMap_cons_none (by simp [h])]
      exact ih.cons a
    | some b =>
      rw [List.filterMap_cons_some (b := a) (by simp [h])]
      exact ih.cons_cons a

omit [FloatModel F] in
/-- The code of a line is exact in the table that holds the bodies declared so far and its own. -/
theorem record_exact {env : Env F} {tr : Trace F} {l : Line F} {all : List (Decl F)} {c : Compiler F}
    {p : CompiledProgram F} {snapshot : SessionBase} (hinv : Inv tr)
    (hc : Compiles env tr.repl.base l.decls all c p snapshot)
    (hok : (tr.record env l p snapshot).sites.all
      (siteOk env.reg tr.tools ((env.allDecls l).flatMap Decl.tools) (tr.visible ++ p.patterns)) = true) :
    (tr.record env l p snapshot).Exact (tr.visible ++ p.patterns) := by
  have hall : env.allDecls l = all := by rw [Env.allDecls, hc.resolved]
  have hsf : snapshot.structFields = c.structFields := by rw [hc.snapshot]; rfl
  rw [List.all_eq_true] at hok
  simp only [Trace.record, hall, hsf] at hok
  refine ⟨(chunkSites c.structFields all).filterMap fun s =>
    ((c.tables env.reg).target s).map fun i => (s, i), ?_, ?_, ?_⟩
  · simp only [Trace.record]
    rw [hc.calls, List.map_filterMap]
    simp [Option.map_map, Function.comp_def]
  · simp only [Trace.record, hall, hsf]
    rw [List.map_filterMap]
    simp only [Option.map_map, Function.comp_def]
    exact filterMap_self_sublist _ _
  · intro q hq
    obtain ⟨s, hs, hq⟩ := List.mem_filterMap.mp hq
    obtain ⟨i, ht, rfl⟩ := Option.map_eq_some_iff.mp hq
    have hlast := target_last hinv hc (chunkSites_named hc.resolved _ s hs) (hok s hs) ht
    have hget := ((lastIdx_eq_some_iff _ _ i).mp hlast).1
    rw [List.getElem?_map, Option.map_eq_some_iff] at hget
    obtain ⟨f, hf, -⟩ := hget
    refine ⟨f, hf, ?_⟩
    simp only [Trace.record, hall]
    rw [← getElem?_lastIdx hlast, hf]

/-- A line that meets the condition keeps the invariant. -/
theorem Inv.step {env : Env F} {tr : Trace F} {l : Line F} (hinv : Inv tr)
    (hok : stepOk env tr l = true) : Inv (tr.step env l) := by
  unfold stepOk at hok
  unfold Trace.step
  cases hload : env.load tr.repl l with
  | none =>
    simp only [feedLine_none hload]
    exact hinv
  | some q =>
    obtain ⟨p, snapshot⟩ := q
    obtain ⟨hcomp, hpat, hbase⟩ := feedLine_some hload
    obtain ⟨all, c, hc⟩ := compile_compiles hcomp
    simp only [hload, Bool.and_eq_true] at hok
    have hexact := record_exact hinv hc hok.2
    have hloaded : ∀ ld ∈ tr.loaded ++ [tr.record env l p snapshot],
        ld.Exact (feedLine env tr.repl l).1.vm.patterns := by
      rw [hpat, hinv.table]
      intro ld hld
      rcases List.mem_append.mp hld with hld | hld
      · exact hinv.table ▸ (hinv.loaded ld hld).append p.patterns
      · rw [List.mem_singleton.mp hld]
        exact hexact
    cases hout : l.out with
    | done =>
      simp only [hout, Outcome.isDone, if_true] at hbase
      obtain ⟨htr, hsame⟩ := hc.tracks hinv
      have hnames : snapshot.patternNames = c.patterns.names "" := by
        rw [hc.snapshot]
        rfl
      refine ⟨by simp [hpat, hinv.table, Trace.record], ?_, ?_, hloaded⟩
      · have hlen := congrArg List.length hc.keys
        simp only [hbase, hnames, SlotTable.length_names, htr.next, List.length_append, hinv.length,
          Trace.record, ← hlen, List.length_map]
      · intro n hn
        simp only [hbase, hnames]
        rw [htr.lastIdx_names hn, hsame n hn]
        rfl
    | failed n e =>
      -- nothing was declared, so nothing was lost
      have hnil : p.patterns = [] := by simpa [hout, Outcome.isDone] using hok.1
      simp only [hout, Outcome.isDone, Bool.false_eq_true, if_false] at hbase
      refine ⟨by simp [hpat, hnil, hinv.table], ?_, ?_, hloaded⟩
      · simp only [hbase, hinv.length]
      · simpa only [hbase] using hinv.last

omit [FloatModel F] in
theorem inv_new : Inv ({} : Trace F) where
  table := rfl
  length := rfl
  last _ _ := rfl
  loaded _ h := by cases h

theorem Inv.run {env : Env F} : ∀ (ls : List (Line F)) {tr : Trace F}, Inv tr →
    runOk env tr ls = true → Inv (tr.run env ls) := by
  intro ls
  induction ls with
  | nil =>
    intro tr hinv _
    exact hinv
  | cons l ls ih =>
    intro tr hinv hok
    rw [runOk, Bool.and_eq_true] at hok
    exact ih (hinv.step hok.1) hok.2

/-- **Dispatch is exact**: in a session whose lines all meet the condition, every `CallPattern` of all
the code loaded so far denotes, in the machine's table as it is now, the last declaration of the name it
was written for that was visible when its line was compiled. -/
theorem dispatch_exact (env : Env F) (ls : List (Line F)) (hok : runOk env {} ls = true) :
    ∀ l ∈ (Trace.run env {} ls).loaded, l.Exact (feedLines env {} ls).vm.patterns := by
  have hinv := inv_new.run ls hok
  have hrepl : (Trace.run env {} ls).repl = feedLines env {} ls := Trace.run_repl env ls {}
  rw [← hrepl]
  exact hinv.loaded

end Session

/-! ## Sessions that run -/

namespace Sample

/-- No builtins and no modules. -/
def env : Env Int where
  reg := ⟨fun _ => none, fun _ => none, ⟨fun _ => false, fun _ => false, fun _ => false⟩, fun _ => ""⟩
  modules := fun path => .error ("import '" ++ path ++ "': cannot read")
  named := fun _ _ h => nomatch h
  fuel := 0
  gates := fun _ => .ok ()

def fn (name : String) (value : Expr Int) : FnDecl Int := ⟨name, [], [.return_ value]⟩

/-- `pattern A { return 1 } pattern B { return A() }`, then `pattern A { return 2 } entity y = A()`. -/
def redeclared : List (Line Int) :=
  [⟨[.pattern (fn "A" (.floatLit 1)), .pattern (fn "B" (.fnCall "A" [] 1))], by decide, .done⟩,
    ⟨[.pattern (fn "A" (.floatLit 2)), .entitySimple "y" (.fnCall "A" [] 1)], by decide, .done⟩]

/-- `tool calc { double { return 1 } } pattern double { return 2 }`, then
`entity y = calc.double()`. -/
def laterTool : List (Line Int) :=
  [⟨[.tool "calc" [fn "double" (.floatLit 1)], .pattern (fn "double" (.floatLit 2))], by decide, .done⟩,
    ⟨[.entitySimple "y" (.qualifiedCall "calc" "double" [])], by decide, .done⟩]

/-- `pattern A { return 1 }` on a line that fails, then `pattern B { return 2 } entity y = B()`. -/
def afterFailure : List (Line Int) :=
  [⟨[.pattern (fn "A" (.floatLit 1))], by decide, .failed 0 "division by zero"⟩,
    ⟨[.pattern (fn "B" (.floatLit 2)), .entitySimple "y" (.fnCall "B" [] 1)], by decide, .done⟩]

end Sample

/-- `B` keeps the `A` it was compiled with, the second line gets its own. -/
theorem dispatch_exact_redeclared :
    runOk Sample.env {} Sample.redeclared = true ∧
      (Trace.run Sample.env {} Sample.redeclared).loaded.map (·.calls) = [[0], [2]] ∧
      ∀ l ∈ (Trace.run Sample.env {} Sample.redeclared).loaded,
        l.Exact (feedLines Sample.env {} Sample.redeclared).vm.patterns :=
  ⟨by decide +kernel, by decide +kernel, dispatch_exact _ _ (by decide +kernel)⟩

/-- A single call that lands on a body of another name. -/
theorem Loaded.not_exact {l : Loaded F} {table : List (CompiledFn F)} {s : Site} {i : Nat}
    {n m : String} (hcalls : l.calls = [i]) (hsites : l.sites = [s])
    (htable : (table[i]?).map (·.name) = some n)
    (hmeant : (lastDecl l.visible (meantName l.tools s)).map (·.name) = some m) (hne : n ≠ m) :
    ¬ l.Exact table := by
  rintro ⟨pairs, hc, hs, hp⟩
  rw [hcalls] at hc
  rw [hsites] at hs
  obtain ⟨⟨s', j⟩, rfl, hj⟩ := List.map_eq_singleton_iff.mp hc
  obtain rfl : s' = s := by simpa using hs.subset (List.mem_singleton_self s')
  obtain ⟨f, hf, hl⟩ := hp (s', j) (by simp)
  simp only at hj hf
  subst hj
  rw [hf, Option.map_some, Option.some.injEq] at htable
  rw [hl, Option.map_some, Option.some.injEq] at hmeant
  exact hne (htable ▸ hmeant)

/-- **Counterexample**: a call of an earlier line's tool runs a flat pattern; and after a line that
failed, the next line's pattern call runs a body of the failed line. -/
theorem dispatch_misbinds :
    (∃ l ∈ (Trace.run Sample.env {} Sample.laterTool).loaded,
      ¬ l.Exact (feedLines Sample.env {} Sample.laterTool).vm.patterns) ∧
    (∃ l ∈ (Trace.run Sample.env {} Sample.afterFailure).loaded,
      ¬ l.Exact (feedLines Sample.env {} Sample.afterFailure).vm.patterns) := by
  refine ⟨⟨(Trace.run Sample.env {} Sample.laterTool).loaded.get ⟨1, by decide +kernel⟩,
    List.get_mem _ _, ?_⟩,
    ⟨(Trace.run Sample.env {} Sample.afterFailure).loaded.get ⟨1, by decide +kernel⟩,
    List.get_mem _ _, ?_⟩⟩
  · exact Loaded.not_exact (s := .qualified "calc" "double") (i := 1) (n := "double")
      (m := "calc.double") (by decide +kernel) (by decide +kernel) (by decide +kernel)
      (by decide +kernel) (by decide)
  · exact Loaded.not_exact (s := .plain "B") (i := 0) (n := "A") (m := "B") (by decide +kernel)
      (by decide +kernel) (by decide +kernel) (by decide +kernel) (by decide)

end Metalogos.Program
