import Metalogos.Program.Dispatch

/-!
# Which declaration a call reaches

A name can belong to a builtin, a pattern and a learnable at once, and can be declared again. The
tree-walker looks it up in the tables it has filled so far, the compiler in the tables of the whole
program, the machine's flow steps and learnable maintenance in the loaded tables:

* an expression is learnable, builtin, pattern for the tree-walker, and builtin, pattern, learnable for
  the compiler;
* a flow step is learnable, builtin, pattern for the tree-walker, and learnable, pattern, builtin for
  the machine;
* `adapt`, `mutate` and `eval` take the last learnable of the name, the machine the first.

`callee_agrees_iff` is the exact condition under which the two reach one declaration. Bodies and
learnables are identified by their position among those of the program.
-/
namespace Metalogos.Program

open Metalogos.Lang Metalogos.Machine Metalogos.Compile Metalogos.Lib

variable {F : Type}

inductive Callee where
  | builtin (idx : Nat)
  | op (name : String)
  | fn (pos : Nat)
  | learnable (pos : Nat)
  deriving DecidableEq, Repr

/-- A use of a name that invokes what it stands for. -/
inductive Call where
  | expr (name : String)
  | qualified (ns fn : String)
  | step (name : String)
  | adapt (pattern : String)
  | mutate (pattern : String)
  | eval (pattern : String)
  deriving DecidableEq, Repr

/-- The registry, and the operations that are dispatched by name: by the tree-walker before it looks at any table, in an
expression and in a flow step, and by the machine's `call_builtin`. An operation need not have a row in the registry:
those of the media and reflex families are dispatched in every build, and their rows are there with their features. -/
structure Host (F : Type) where
  reg : Registry F
  exprOps : String → Bool
  stepOps : String → Bool
  machineOps : String → Bool

/-- An operation that is dispatched by name: it is the builtin of that name where the registry has one. -/
def Host.opCallee (h : Host F) (name : String) : Callee :=
  match h.reg.builtinIdx name with
  | some i => .builtin i
  | none => .op name

/-! ## The tree-walker -/

/-- `patterns`, `learnable_patterns` and `module_namespaces` (`true` for a tool). -/
structure TwNames where
  patterns : String → Option Nat := fun _ => none
  fnCount : Nat := 0
  learnables : String → Option Nat := fun _ => none
  learnableCount : Nat := 0
  namespaces : String → Option Bool := fun _ => none

/-- `HashMap::insert`. -/
def insertName {α : Type} (m : String → Option α) (name : String) (a : α) : String → Option α :=
  fun n => if n = name then some a else m n

def TwNames.insertFn (s : TwNames) (name : String) : TwNames :=
  { s with patterns := insertName s.patterns name s.fnCount, fnCount := s.fnCount + 1 }

/-- mirrors src/interpreter/execution.rs:115-158,308-325 and src/interpreter/modules.rs:10-28 -/
def TwNames.register (s : TwNames) : Decl F → TwNames
  | .pattern p => s.insertFn p.name
  | .tool name methods =>
    methods.foldl (fun s m => s.insertFn (methodKey name m.name))
      { s with namespaces := insertName s.namespaces name true }
  | .learnable name =>
    { s with
      learnables := insertName s.learnables name s.learnableCount
      learnableCount := s.learnableCount + 1 }
  | .import_ path asName => { s with namespaces := insertName s.namespaces (asName.getD path) false }
  | _ => s

/-- The tables after some declarations. -/
def twNames (done : List (Decl F)) : TwNames := done.foldl TwNames.register {}

/-- mirrors src/interpreter/execution.rs:994-1095 and :2706-2810, where `ops` is what stands before -/
def twPlain (h : Host F) (ops : String → Bool) (s : TwNames) (name : String) : Option Callee :=
  if ops name then some (h.opCallee name)
  else match s.learnables name with
    | some i => some (.learnable i)
    | none =>
      match h.reg.builtinIdx name with
      | some i => some (.builtin i)
      | none => (s.patterns name).map .fn

/-- mirrors src/interpreter/execution.rs:1850-1996 -/
def twQualified (reg : Registry F) (s : TwNames) (ns fn : String) : Option Callee :=
  match s.namespaces ns with
  | none => none
  | some isTool =>
    match reg.builtinIdx fn with
    | some i => some (.builtin i)
    | none => (s.patterns (if isTool then methodKey ns fn else fn)).map .fn

/-- What a call invokes when the declarations of `s` have been executed; the learnable maintenance is
mirrors src/interpreter/execution.rs:159-176 and src/interpreter/hooks.rs:114-140,383-392 -/
def twCallee (h : Host F) (s : TwNames) : Call → Option Callee
  | .expr name => twPlain h h.exprOps s name
  | .qualified ns fn => twQualified h.reg s ns fn
  | .step name => twPlain h h.stepOps s name
  | .adapt name | .mutate name | .eval name => (s.learnables name).map .learnable

/-! ## The machine -/

def calleeOf : Except String (Instr F) → Option Callee
  | .ok (.callBuiltin i _) => some (.builtin i)
  | .ok (.callPattern i _) => some (.fn i)
  | .ok (.llmCall i _) => some (.learnable i)
  | _ => none

/-- mirrors src/vm.rs:4148-4231 and, for the last case, :2899-3700 -/
def vmStep (h : Host F) (fns learnables : List String) (name : String) : Option Callee :=
  match lastIdx name learnables with
  | some i => some (.learnable i)
  | none =>
    match lastIdx name fns with
    | some i => some (.fn i)
    | none =>
      match h.reg.builtinIdx name with
      | some i => some (.builtin i)
      | none => if h.machineOps name then some (.op name) else none

/-- What a call of the compiled program invokes: expressions as they were compiled, the others by a
search of the loaded tables. The learnable maintenance is
mirrors src/vm.rs:1661-1668, :4399-4403, :4844-4853 -/
def vmCallee (h : Host F) (t : Tables) (fns learnables : List String) : Call → Option Callee
  | .expr name => calleeOf (compileCall t name 0 : Except String (Instr F))
  | .qualified ns fn => calleeOf (compileQualified t ns fn 0 : Except String (Instr F))
  | .step name => vmStep h fns learnables name
  | .adapt name | .mutate name | .eval name => (learnables.idxOf? name).map .learnable

/-! ## The condition -/

def learnableNames (decls : List (Decl F)) : List String := decls.flatMap Decl.learnables

/-- The tools and the imported namespaces of a list of declarations, tools as `true`. -/
def Decl.spaces : Decl F → List (String × Bool)
  | .tool name _ => [(name, true)]
  | .import_ path asName => [(asName.getD path, false)]
  | _ => []

/-- What a namespace is after some declarations. -/
def spaceOf (done : List (Decl F)) (ns : String) : Option Bool :=
  (done.flatMap Decl.spaces).reverse.lookup ns

def exprAlike (h : Host F) (done rest : List (Decl F)) (name : String) : Bool :=
  if (h.reg.builtinIdx name).isSome then h.exprOps name || !(learnableNames done).contains name
  else if h.exprOps name then false
  else if (fnKeys (done ++ rest)).contains name then
    !(learnableNames done).contains name && !(fnKeys rest).contains name
  else !(learnableNames rest).contains name

def stepAlike (h : Host F) (done rest : List (Decl F)) (name : String) : Bool :=
  if (learnableNames (done ++ rest)).contains name then
    !h.stepOps name && !(learnableNames rest).contains name
  else if (fnKeys (done ++ rest)).contains name then
    !h.stepOps name && (h.reg.builtinIdx name).isNone && !(fnKeys rest).contains name
  else (h.reg.builtinIdx name).isSome || h.stepOps name == h.machineOps name

def qualifiedAlike (h : Host F) (done rest : List (Decl F)) (ns fn : String) : Bool :=
  let key := methodKey ns fn
  let space := spaceOf done ns
  match h.reg.builtinIdx key with
  | some i => space.isSome && h.reg.builtinIdx fn == some i
  | none =>
    if ((done ++ rest).flatMap Decl.tools).contains ns then
      if (h.reg.builtinIdx fn).isSome then space.isSome
      else if (fnKeys (done ++ rest)).contains key then
        space == some true && !(fnKeys rest).contains key
      else space != some false || !(fnKeys done).contains fn
    else if (fnKeys (done ++ rest)).contains fn then
      space.isSome && (h.reg.builtinIdx fn).isNone && !(fnKeys rest).contains fn
    else (h.reg.builtinIdx fn).isNone || space.isSome

/-- When the two backends reach one declaration: `done` has been executed, `rest` comes later. -/
def resolvesAlike (h : Host F) (done rest : List (Decl F)) : Call → Bool
  | .expr name => exprAlike h done rest name
  | .qualified ns fn => qualifiedAlike h done rest ns fn
  | .step name => stepAlike h done rest name
  | .adapt name | .mutate name | .eval name =>
    (learnableNames done).count name == 1 || !(learnableNames (done ++ rest)).contains name

/-! ## The tables -/

/-- A map that gives each name the position of its last declaration. -/
structure Positions (m : String → Option Nat) (count : Nat) (names : List String) : Prop where
  last : ∀ n, m n = lastIdx n names
  count : count = names.length

theorem Positions.insert {m : String → Option Nat} {count : Nat} {names : List String}
    (h : Positions m count names) (name : String) :
    Positions (insertName m name count) (count + 1) (names ++ [name]) where
  last n := by
    rw [insertName, lastIdx_concat, h.last, h.count]
    by_cases hn : n = name
    · rw [if_pos hn, if_pos hn.symm]
    · rw [if_neg hn, if_neg (Ne.symm hn)]
  count := by rw [List.length_append, h.count, List.length_singleton]

theorem Positions.insertFns (keys : List String) : ∀ {s : TwNames} {names : List String},
    Positions s.patterns s.fnCount names →
    Positions (keys.foldl TwNames.insertFn s).patterns (keys.foldl TwNames.insertFn s).fnCount
      (names ++ keys) := by
  induction keys with
  | nil =>
    intro s names h
    simpa using h
  | cons k keys ih =>
    intro s names h
    have := ih (s := s.insertFn k) (h.insert k)
    rwa [List.append_assoc, List.singleton_append] at this

theorem insertFns_rest (keys : List String) : ∀ s : TwNames,
    (keys.foldl TwNames.insertFn s).learnables = s.learnables ∧
      (keys.foldl TwNames.insertFn s).learnableCount = s.learnableCount ∧
      (keys.foldl TwNames.insertFn s).namespaces = s.namespaces := by
  induction keys with
  | nil =>
    intro s
    exact ⟨rfl, rfl, rfl⟩
  | cons k keys ih =>
    intro s
    exact ih (s.insertFn k)

/-- The tree-walker's tables say what the declarations say. -/
structure TwNames.Holds (s : TwNames) (done : List (Decl F)) : Prop where
  fns : Positions s.patterns s.fnCount (fnKeys done)
  learnables : Positions s.learnables s.learnableCount (learnableNames done)
  namespaces : ∀ ns, s.namespaces ns = spaceOf done ns

theorem spaceOf_concat (done : List (Decl F)) (d : Decl F) (ns : String) :
    spaceOf (done ++ [d]) ns = (d.spaces.reverse ++ (done.flatMap Decl.spaces).reverse).lookup ns := by
  rw [spaceOf, List.flatMap_append, List.flatMap_singleton, List.reverse_append]

theorem spaceOf_insert {s : TwNames} {done : List (Decl F)} (h : ∀ ns, s.namespaces ns = spaceOf done ns)
    {d : Decl F} {name : String} {isTool : Bool} (hd : d.spaces = [(name, isTool)]) (ns : String) :
    insertName s.namespaces name isTool ns = spaceOf (done ++ [d]) ns := by
  rw [spaceOf_concat, hd, List.reverse_singleton, List.singleton_append, List.lookup_cons, insertName]
  by_cases hn : ns = name
  · simp [hn]
  · have hb : (ns == name) = false := by simpa using hn
    rw [if_neg hn, hb, h]
    rfl

theorem TwNames.Holds.register {s : TwNames} {done : List (Decl F)} (h : s.Holds done) (d : Decl F) :
    (s.register d).Holds (done ++ [d]) := by
  have hkeys : fnKeys (done ++ [d]) = fnKeys done ++ d.fns.map (·.name) := by simp [fnKeys]
  have hlearn : learnableNames (done ++ [d]) = learnableNames done ++ d.learnables := by
    simp [learnableNames]
  have hnofn : d.fns = [] → Positions s.patterns s.fnCount (fnKeys (done ++ [d])) := by
    intro hf
    rw [hkeys, hf, List.map_nil, List.append_nil]
    exact h.fns
  have hnolearn : d.learnables = [] →
      Positions s.learnables s.learnableCount (learnableNames (done ++ [d])) := by
    intro hl
    rw [hlearn, hl, List.append_nil]
    exact h.learnables
  have hnospace : d.spaces = [] → ∀ ns, s.namespaces ns = spaceOf (done ++ [d]) ns := by
    intro hs ns
    rw [spaceOf_concat, hs]
    exact h.namespaces ns
  cases d with
  | pattern p =>
    refine ⟨?_, hnolearn rfl, hnospace rfl⟩
    rw [hkeys]
    exact h.fns.insert p.name
  | learnable name =>
    refine ⟨hnofn rfl, ?_, hnospace rfl⟩
    rw [hlearn]
    exact h.learnables.insert name
  | import_ path asName =>
    exact ⟨hnofn rfl, hnolearn rfl, fun ns => spaceOf_insert h.namespaces rfl ns⟩
  | tool name methods =>
    have hfold : s.register (.tool name methods) =
        ((Decl.tool name methods).fns.map (·.name)).foldl TwNames.insertFn
          { s with namespaces := insertName s.namespaces name true } := by
      simp [TwNames.register, Decl.fns, List.foldl_map]
    obtain ⟨hl, hc, hn⟩ := insertFns_rest ((Decl.tool name methods).fns.map (·.name))
      { s with namespaces := insertName s.namespaces name true }
    rw [hfold]
    refine ⟨?_, ?_, fun ns => ?_⟩
    · rw [hkeys]
      exact Positions.insertFns _ h.fns
    · rw [hl, hc]
      exact hnolearn rfl
    · rw [hn]
      exact spaceOf_insert h.namespaces rfl ns
  | _ => exact ⟨hnofn rfl, hnolearn rfl, hnospace rfl⟩

theorem twNames_holds (done : List (Decl F)) : (twNames done).Holds done := by
  unfold twNames
  induction done using List.reverseRecOn with
  | nil => exact ⟨⟨fun _ => rfl, rfl⟩, ⟨fun _ => rfl, rfl⟩, fun _ => rfl⟩
  | append_singleton done d ih =>
    rw [List.foldl_append]
    exact ih.register d

section Compiled

variable {reg : Registry F}

theorem pass1Step_learnables {c c' : Compiler F} {d : Decl F} (h : pass1Step reg c d = .ok c') :
    c'.learnables = d.learnables.foldl SlotTable.declare c.learnables := by
  cases d with
  | rule r =>
    simp only [pass1Step, bind_ok, Except.ok.injEq] at h
    obtain ⟨r', -, rfl⟩ := h
    rfl
  | _ =>
    cases h
    rfl

theorem pass1_learnables (decls : List (Decl F)) {c c' : Compiler F} (h : pass1 reg c decls = .ok c') :
    c'.learnables = (learnableNames decls).foldl SlotTable.declare c.learnables := by
  refine foldlM_relates
    (R := fun ds c c' => c'.learnables = (learnableNames ds).foldl SlotTable.declare c.learnables)
    (fun _ => rfl) (fun {d ds _ _ _} hstep hrest => ?_) decls h
  have hcons : learnableNames (d :: ds) = d.learnables ++ learnableNames ds := List.flatMap_cons
  rw [hrest, hcons, List.foldl_append, pass1Step_learnables hstep]

variable [FloatModel F] {c : Compiler F}

/-- What emission adds to the learnables the main code registers. -/
def Registers (o o' : Emitted F) (names : List String) : Prop :=
  registeredLearnables o'.code = registeredLearnables o.code ++ names

omit [FloatModel F] in
theorem registeredLearnables_append (xs ys : List (MainInstr F)) :
    registeredLearnables (xs ++ ys) = registeredLearnables xs ++ registeredLearnables ys :=
  List.filterMap_append

omit [FloatModel F] in
theorem Registers.push {o o' : Emitted F} {names more : List String} (h : Registers o o' names)
    {is : List (MainInstr F)} (his : registeredLearnables is = more) :
    Registers o (o'.push is) (names ++ more) := by
  rw [Registers, Emitted.push, registeredLearnables_append, h, his, List.append_assoc]

omit [FloatModel F] in
theorem Registers.refl (o : Emitted F) : Registers o o [] := (List.append_nil _).symm

omit [FloatModel F] in
theorem Registers.trans {o o' o'' : Emitted F} {a b : List String} (h : Registers o o' a)
    (h' : Registers o' o'' b) : Registers o o'' (a ++ b) := by
  rw [Registers, h', h, List.append_assoc]

omit [FloatModel F] in
theorem Registers.foldlM {α : Type} {step : Emitted F → α → Except String (Emitted F)}
    {names : α → List String} (hstep : ∀ o a o', step o a = .ok o' → Registers o o' (names a)) (as : List α)
    {o o' : Emitted F} (h : as.foldlM step o = .ok o') : Registers o o' (as.flatMap names) :=
  foldlM_relates (R := fun as o o' => Registers o o' (as.flatMap names)) Registers.refl
    (fun h₁ hrest => (hstep _ _ _ h₁).trans hrest) as h

theorem compileInit_registers {o o' : Emitted F} {e : Expr F} (h : compileInit reg c o e = .ok o') :
    Registers o o' [] := by
  simp only [compileInit, bind_ok, Except.ok.injEq] at h
  obtain ⟨⟨frag, cs⟩, -, rfl⟩ := h
  refine (Registers.refl o).push (List.filterMap_eq_nil_iff.mpr ?_)
  intro i hi
  obtain ⟨em, -, rfl⟩ := List.mem_map.mp hi
  rfl

theorem compileFn_registers {o o' : Emitted F} {p : FnDecl F} (h : compileFn reg c o p = .ok o') :
    Registers o o' [] := by
  simp only [compileFn, bind_ok, Except.ok.injEq] at h
  obtain ⟨is, -, rfl⟩ := h
  rw [Registers, registeredLearnables_append]
  rfl

omit [FloatModel F] in
theorem flatMap_nil {α : Type} (as : List α) : as.flatMap (fun _ => ([] : List String)) = [] := by
  induction as with
  | nil => rfl
  | cons a as ih => rw [List.flatMap_cons, ih, List.append_nil]

omit [FloatModel F] in
theorem compileInits_registers {α : Type} {step : Emitted F → α → Except String (Emitted F)}
    (hstep : ∀ o a o', step o a = .ok o' → Registers o o' []) (as : List α) {o o' : Emitted F}
    (h : as.foldlM step o = .ok o') : Registers o o' [] := by
  have := Registers.foldlM hstep as h
  rwa [flatMap_nil] at this

theorem pass2Step_registers {o o' : Emitted F} {d : Decl F} (h : pass2Step reg c o d = .ok o') :
    Registers o o' d.learnables := by
  cases d with
  | entityRecord name typeName inits =>
    simp only [pass2Step] at h
    split at h
    · cases h
    · simp only [bind_ok, Except.ok.injEq] at h
      obtain ⟨o₁, h₁, rfl⟩ := h
      refine Registers.push (compileInits_registers ?_ _ h₁) rfl
      intro o e o' he
      cases e with
      | none =>
        cases he
        exact (Registers.refl o).push rfl
      | some e => exact compileInit_registers he
  | entitySimple name value =>
    simp only [pass2Step, bind_ok, Except.ok.injEq] at h
    obtain ⟨o₁, h₁, rfl⟩ := h
    exact (compileInit_registers h₁).push rfl
  | fluid name variants =>
    simp only [pass2Step, bind_ok, Except.ok.injEq] at h
    obtain ⟨o₁, h₁, rfl⟩ := h
    refine Registers.push (compileInits_registers ?_ _ h₁) rfl
    intro o v o' hv
    simp only [bind_ok, Except.ok.injEq] at hv
    obtain ⟨o₂, h₂, rfl⟩ := hv
    exact (compileInit_registers h₂).push rfl
  | pattern p => exact compileFn_registers h
  | tool name methods => exact compileInits_registers (fun _ _ _ h => compileFn_registers h) _ h
  | learnable name =>
    cases h
    exact (Registers.refl o).push rfl
  | memorize value priority =>
    simp only [pass2Step, bind_ok, Except.ok.injEq] at h
    obtain ⟨o₁, h₁, rfl⟩ := h
    exact (compileInit_registers h₁).push rfl
  | forget query days =>
    simp only [pass2Step, bind_ok, Except.ok.injEq] at h
    obtain ⟨o₁, h₁, rfl⟩ := h
    exact (compileInit_registers h₁).push rfl
  | relate source target relation =>
    simp only [pass2Step, bind_ok, Except.ok.injEq] at h
    obtain ⟨o₁, h₁, o₂, h₂, rfl⟩ := h
    exact ((compileInit_registers h₁).trans (compileInit_registers h₂)).push rfl
  | adapt pattern input output =>
    simp only [pass2Step, bind_ok, Except.ok.injEq] at h
    obtain ⟨o₁, h₁, o₂, h₂, rfl⟩ := h
    exact ((compileInit_registers h₁).trans (compileInit_registers h₂)).push rfl
  | mutate m =>
    simp only [pass2Step, bind_ok, Except.ok.injEq] at h
    obtain ⟨o₁, h₁, rfl⟩ := h
    refine Registers.push (compileInits_registers ?_ _ h₁) rfl
    intro o ex o' hex
    simp only [bind_ok] at hex
    obtain ⟨o₂, h₂, h₃⟩ := hex
    exact (compileInit_registers h₂).trans (compileInit_registers h₃)
  | flow f =>
    simp only [pass2Step, bind_ok, Except.ok.injEq] at h
    obtain ⟨o₁, h₁, rfl⟩ := h
    have hrules : Registers o (if c.rules.isEmpty then o else o.push [.executeRules]) [] := by
      split
      · exact .refl o
      · exact (Registers.refl o).push rfl
    exact (hrules.trans (compileInit_registers h₁)).push rfl
  | entityType _ _ | rule _ | onDeny _ _ | import_ _ _ | other =>
    cases h
    exact .refl o

/-- The machine's table of learnables is the list of their declarations. -/
theorem pass2_learnables {decls : List (Decl F)} {o : Emitted F} (h : pass2 reg c decls = .ok o) :
    registeredLearnables o.code = learnableNames decls := by
  simp only [pass2, bind_ok, Except.ok.injEq] at h
  obtain ⟨o₁, h₁, rfl⟩ := h
  have hreg := Registers.foldlM (fun _ _ _ h => pass2Step_registers h) _ h₁
  rw [Emitted.push, registeredLearnables_append, hreg]
  simp [learnableNames, registeredLearnables]

end Compiled

/-! ## Agreement -/

/-- The machine's tables of a whole program. -/
structure Serves (reg : Registry F) (t : Tables) (fns learnables : List String) (all : List (Decl F)) :
    Prop where
  builtins : t.builtinIdx = reg.builtinIdx
  patternIdx : ∀ n, t.patternIdx n = lastIdx n (fnKeys all)
  learnableIdx : ∀ n, t.learnableIdx n = lastIdx n (learnableNames all)
  isTool : ∀ n, t.isTool n = (all.flatMap Decl.tools).contains n
  fns : fns = fnKeys all
  learnables : learnables = learnableNames all

theorem fnKeys_append (done rest : List (Decl F)) : fnKeys (done ++ rest) = fnKeys done ++ fnKeys rest :=
  List.flatMap_append

theorem learnableNames_append (done rest : List (Decl F)) :
    learnableNames (done ++ rest) = learnableNames done ++ learnableNames rest := List.flatMap_append

section Agreement

variable {h : Host F} {done rest : List (Decl F)} {s : TwNames} {t : Tables} {fns learnables : List String}
  (hs : s.Holds done) (hv : Serves h.reg t fns learnables (done ++ rest))

theorem lastIdx_of_mem {n : String} {xs : List String} (hm : n ∈ xs) : ∃ i, lastIdx n xs = some i := by
  cases hl : lastIdx n xs with
  | none => exact absurd hm ((lastIdx_eq_none_iff _ _).mp hl)
  | some i => exact ⟨i, rfl⟩

theorem lastIdx_of_notMem {n : String} {xs : List String} (hm : n ∉ xs) : lastIdx n xs = none :=
  (lastIdx_eq_none_iff n xs).mpr hm

/-- The last declaration so far is the last one of all when no later one follows. -/
theorem map_lastIdx_eq_iff {f : Nat → Callee} (hf : Function.Injective f) (n : String)
    (xs ys : List String) :
    (lastIdx n xs).map f = (lastIdx n (xs ++ ys)).map f ↔ n ∉ ys := by
  rw [(Option.map_injective hf).eq_iff]
  exact lastIdx_append_eq_iff n xs ys

theorem fn_injective : Function.Injective Callee.fn := fun _ _ h => Callee.fn.inj h

theorem learnable_injective : Function.Injective Callee.learnable := fun _ _ h => Callee.learnable.inj h

include hs hv

theorem expr_agrees_iff (name : String) :
    twPlain h h.exprOps s name = calleeOf (compileCall t name 0 : Except String (Instr F)) ↔
      exprAlike h done rest name = true := by
  unfold twPlain exprAlike compileCall Host.opCallee
  rw [hv.builtins, hv.patternIdx, hv.learnableIdx, hs.learnables.last, hs.fns.last]
  cases hb : h.reg.builtinIdx name with
  | some i =>
    cases hop : h.exprOps name with
    | true => simp [calleeOf]
    | false =>
      by_cases hl : name ∈ learnableNames done
      · obtain ⟨j, hj⟩ := lastIdx_of_mem hl
        simp [calleeOf, hj, hl]
      · simp [calleeOf, lastIdx_of_notMem hl, hl]
  | none =>
    simp only [Option.isSome_none, Bool.false_eq_true, if_false, List.contains_iff_mem]
    cases hop : h.exprOps name with
    | true =>
      -- the compiler knows no operation without a row
      simp only [if_true, Bool.false_eq_true, iff_false]
      cases lastIdx name (fnKeys (done ++ rest)) <;>
        cases lastIdx name (learnableNames (done ++ rest)) <;>
        cases hpk : t.parked name <;> simp [calleeOf]
    | false =>
      simp only [Bool.false_eq_true, if_false]
      by_cases hp : name ∈ fnKeys (done ++ rest)
      · obtain ⟨i, hi⟩ := lastIdx_of_mem hp
        rw [if_pos hp, hi]
        simp only [calleeOf, Bool.and_eq_true, Bool.not_eq_true', List.contains_eq_mem,
          decide_eq_false_iff_not]
        by_cases hl : name ∈ learnableNames done
        · obtain ⟨j, hj⟩ := lastIdx_of_mem hl
          simp [hj, hl]
        · rw [lastIdx_of_notMem hl]
          have hkeys := map_lastIdx_eq_iff fn_injective name (fnKeys done) (fnKeys rest)
          rw [← fnKeys_append, hi, Option.map_some] at hkeys
          simp only [hkeys, hl, not_false_eq_true, true_and]
      · rw [if_neg hp, lastIdx_of_notMem hp]
        have hdone : name ∉ fnKeys done := fun hm => hp (by rw [fnKeys_append]; simp [hm])
        rw [lastIdx_of_notMem hdone]
        have hlast := lastIdx_append_eq_iff name (learnableNames done) (learnableNames rest)
        rw [← learnableNames_append] at hlast
        simp only [Bool.not_eq_true', List.contains_eq_mem, decide_eq_false_iff_not, ← hlast]
        cases lastIdx name (learnableNames done) <;>
          cases lastIdx name (learnableNames (done ++ rest)) <;>
          cases h.reg.parked name <;>
          cases hpk : t.parked name <;> simp [calleeOf]

theorem step_agrees_iff (name : String) :
    twPlain h h.stepOps s name = vmStep h fns learnables name ↔
      stepAlike h done rest name = true := by
  unfold twPlain stepAlike vmStep Host.opCallee
  rw [hv.fns, hv.learnables, hs.learnables.last, hs.fns.last]
  simp only [List.contains_iff_mem]
  by_cases hl : name ∈ learnableNames (done ++ rest)
  · obtain ⟨i, hi⟩ := lastIdx_of_mem hl
    rw [if_pos hl, hi]
    have hlast := lastIdx_append_eq_iff name (learnableNames done) (learnableNames rest)
    rw [← learnableNames_append, hi] at hlast
    simp only [Bool.and_eq_true, Bool.not_eq_true', List.contains_eq_mem, decide_eq_false_iff_not,
      ← hlast]
    cases hstep : h.stepOps name with
    | true => cases h.reg.builtinIdx name <;> simp
    | false =>
      cases hj : lastIdx name (learnableNames done) with
      | some j => simp
      | none => cases h.reg.builtinIdx name <;> simp
  · rw [if_neg hl, lastIdx_of_notMem hl]
    have hdone : name ∉ learnableNames done := fun hm => hl (by rw [learnableNames_append]; simp [hm])
    rw [lastIdx_of_notMem hdone]
    by_cases hp : name ∈ fnKeys (done ++ rest)
    · obtain ⟨i, hi⟩ := lastIdx_of_mem hp
      rw [if_pos hp, hi]
      have hkeys := map_lastIdx_eq_iff fn_injective name (fnKeys done) (fnKeys rest)
      rw [← fnKeys_append, hi, Option.map_some] at hkeys
      simp only [Bool.and_eq_true, Bool.not_eq_true', List.contains_eq_mem, decide_eq_false_iff_not,
        Option.isNone_iff_eq_none]
      cases hb : h.reg.builtinIdx name with
      | some b => cases h.stepOps name <;> simp
      | none => cases h.stepOps name <;> simp [hkeys]
    · have hfd : name ∉ fnKeys done := fun hm => hp (by rw [fnKeys_append]; simp [hm])
      rw [if_neg hp, lastIdx_of_notMem hp, lastIdx_of_notMem hfd]
      cases hb : h.reg.builtinIdx name <;> cases h.stepOps name <;> cases h.machineOps name <;> simp

theorem learnable_agrees_iff (name : String) :
    (s.learnables name).map Callee.learnable = (learnables.idxOf? name).map .learnable ↔
      ((learnableNames done).count name == 1 ||
        !(learnableNames (done ++ rest)).contains name) = true := by
  rw [hv.learnables, hs.learnables.last, (Option.map_injective learnable_injective).eq_iff,
    learnableNames_append]
  simp only [Bool.or_eq_true, beq_iff_eq, Bool.not_eq_true', List.contains_eq_mem,
    decide_eq_false_iff_not, List.mem_append, not_or]
  by_cases hd : name ∈ learnableNames done
  · -- the first of all is the first so far
    have hfirst : (learnableNames done ++ learnableNames rest).idxOf? name =
        (learnableNames done).idxOf? name := by
      change (learnableNames done ++ learnableNames rest).findIdx? (· == name) = _
      rw [List.findIdx?_append]
      obtain ⟨i, hi⟩ : ∃ i, (learnableNames done).findIdx? (· == name) = some i := by
        cases hf : (learnableNames done).findIdx? (· == name) with
        | none => exact absurd hd (List.idxOf?_eq_none_iff.mp hf)
        | some i => exact ⟨i, rfl⟩
      rw [hi]
      exact hi.symm
    rw [hfirst, lastIdx_eq_idxOf?_iff]
    have := List.count_pos_iff.mpr hd
    constructor
    · intro hc
      exact .inl (by omega)
    · rintro (hc | ⟨hn, -⟩)
      · omega
      · exact absurd hd hn
  · have hcount := List.count_eq_zero_of_not_mem hd
    rw [lastIdx_of_notMem hd, hcount, eq_comm, List.idxOf?_eq_none_iff]
    simp [hd]

omit hv in
/-- A namespace that is a tool so far was declared as one. -/
theorem tool_of_space (rest : List (Decl F)) (ns : String) (hn : s.namespaces ns = some true) :
    ns ∈ (done ++ rest).flatMap Decl.tools := by
  rw [hs.namespaces, spaceOf] at hn
  obtain ⟨l₁, l₂, hl, -⟩ := List.lookup_eq_some_iff.mp hn
  have hmem : (ns, true) ∈ done.flatMap Decl.spaces := by
    rw [← List.mem_reverse, hl]
    simp
  obtain ⟨d, hd, hsp⟩ := List.mem_flatMap.mp hmem
  refine List.mem_flatMap.mpr ⟨d, List.mem_append_left _ hd, ?_⟩
  cases d with
  | tool name methods =>
    simp only [Decl.spaces, List.mem_singleton, Prod.mk.injEq] at hsp
    simp [Decl.tools, hsp.1]
  | import_ path asName => simp [Decl.spaces] at hsp
  | _ => cases hsp

omit hs hv in
theorem methodKey_ne (ns fn : String) : methodKey ns fn ≠ fn := by
  intro he
  have := congrArg String.length he
  simp only [methodKey, String.length_append] at this
  have : (".": String).length = 1 := rfl
  omega

omit hs hv in
/-- A position so far and a position of all are of one name when they are equal. -/
theorem lastIdx_ne {a b : String} (hab : a ≠ b) {xs ys : List String} {i : Nat}
    (ha : lastIdx a xs = some i) : lastIdx b (xs ++ ys) ≠ some i := by
  intro hb
  have h₁ := ((lastIdx_eq_some_iff _ _ _).mp ha).1
  have h₂ := ((lastIdx_eq_some_iff _ _ _).mp hb).1
  rw [List.getElem?_append_left (lastIdx_lt ha), h₁] at h₂
  exact hab (Option.some.inj h₂)

omit hs in
/-- What the compiler makes of a qualified call. -/
theorem compileQualified_callee (ns fn : String) :
    calleeOf (compileQualified t ns fn 0 : Except String (Instr F)) =
      match h.reg.builtinIdx (methodKey ns fn) with
      | some i => some (.builtin i)
      | none =>
        if ns ∈ (done ++ rest).flatMap Decl.tools then
          match h.reg.builtinIdx fn with
          | some i => some (.builtin i)
          | none => (lastIdx (methodKey ns fn) (fnKeys (done ++ rest))).map .fn
        else match lastIdx fn (fnKeys (done ++ rest)) with
          | some i => some (.fn i)
          | none => (h.reg.builtinIdx fn).map .builtin := by
  unfold compileQualified
  simp only [hv.builtins, hv.patternIdx, hv.isTool, List.contains_iff_mem]
  change calleeOf (match h.reg.builtinIdx (methodKey ns fn) with | some i => _ | none => _) = _
  cases h.reg.builtinIdx (methodKey ns fn) with
  | some i => rfl
  | none =>
    simp only
    split
    · cases h.reg.builtinIdx fn with
      | some i => rfl
      | none =>
        simp only
        change calleeOf (match lastIdx (methodKey ns fn) _ with | some i => _ | none => _) = _
        cases lastIdx (methodKey ns fn) (fnKeys (done ++ rest)) <;> rfl
    · cases lastIdx fn (fnKeys (done ++ rest)) with
      | some i => rfl
      | none => cases h.reg.builtinIdx fn <;> rfl

theorem qualified_agrees_iff (ns fn : String) :
    twQualified h.reg s ns fn = calleeOf (compileQualified t ns fn 0 : Except String (Instr F)) ↔
      qualifiedAlike h done rest ns fn = true := by
  have htool := tool_of_space hs rest ns
  rw [compileQualified_callee hv]
  unfold twQualified qualifiedAlike
  rw [hs.namespaces] at htool ⊢
  simp only [hs.fns.last, List.contains_iff_mem]
  cases hq : h.reg.builtinIdx (methodKey ns fn) with
  | some i =>
    cases hsp : spaceOf done ns with
    | none => simp
    | some b => cases hf : h.reg.builtinIdx fn <;> cases b <;> simp
  | none =>
    simp only
    by_cases htl : ns ∈ (done ++ rest).flatMap Decl.tools
    · rw [if_pos htl, if_pos htl]
      cases hf : h.reg.builtinIdx fn with
      | some j => cases spaceOf done ns <;> simp
      | none =>
        simp only [Option.isSome_none, Bool.false_eq_true, if_false]
        have hkeys := map_lastIdx_eq_iff fn_injective (methodKey ns fn) (fnKeys done) (fnKeys rest)
        rw [← fnKeys_append] at hkeys
        by_cases hk : methodKey ns fn ∈ fnKeys (done ++ rest)
        · rw [if_pos hk]
          obtain ⟨i, hi⟩ := lastIdx_of_mem hk
          rw [hi, Option.map_some] at hkeys ⊢
          cases spaceOf done ns with
          | none => simp
          | some b =>
            cases b with
            | true => simp [hkeys]
            | false =>
              -- the flat name has another position than the method
              have hne : (lastIdx fn (fnKeys done)).map Callee.fn ≠ some (.fn i) := by
                intro he
                obtain ⟨j, hj, hji⟩ := Option.map_eq_some_iff.mp he
                rw [fnKeys_append] at hi
                exact lastIdx_ne (Ne.symm (methodKey_ne ns fn)) hj (Callee.fn.inj hji ▸ hi)
              simp [hne]
        · rw [if_neg hk, lastIdx_of_notMem hk]
          have hkd : methodKey ns fn ∉ fnKeys done := fun hm => hk (by rw [fnKeys_append]; simp [hm])
          cases spaceOf done ns with
          | none => simp
          | some b =>
            cases b with
            | true => simp [lastIdx_of_notMem hkd]
            | false => simp [lastIdx_eq_none_iff]
    · rw [if_neg htl, if_neg htl]
      have hspace : spaceOf done ns ≠ some true := fun he => htl (htool he)
      have hkeys := map_lastIdx_eq_iff fn_injective fn (fnKeys done) (fnKeys rest)
      rw [← fnKeys_append] at hkeys
      by_cases hk : fn ∈ fnKeys (done ++ rest)
      · rw [if_pos hk]
        obtain ⟨i, hi⟩ := lastIdx_of_mem hk
        rw [hi, Option.map_some] at hkeys
        rw [hi]
        cases hsp : spaceOf done ns with
        | none => simp
        | some b =>
          cases b with
          | true => exact absurd hsp hspace
          | false => cases hf : h.reg.builtinIdx fn <;> simp [hkeys]
      · rw [if_neg hk, lastIdx_of_notMem hk]
        have hkd : fn ∉ fnKeys done := fun hm => hk (by rw [fnKeys_append]; simp [hm])
        cases hsp : spaceOf done ns with
        | none => cases hf : h.reg.builtinIdx fn <;> simp
        | some b =>
          cases b with
          | true => exact absurd hsp hspace
          | false => cases hf : h.reg.builtinIdx fn <;> simp [lastIdx_of_notMem hkd]

end Agreement

section Whole

variable [FloatModel F]

theorem denyFold_learnables {reg : Registry F} (ds : List (Decl F × Nat)) {c c' : Compiler F}
    (h : ds.foldlM (denyStep reg) c = .ok c') : c'.learnables = c.learnables := by
  refine foldlM_relates (R := fun _ c c' => c'.learnables = c.learnables) (fun _ => rfl) (fun hstep hrest => ?_) ds h
  rw [hrest]
  unfold denyStep at hstep
  split at hstep
  · simp only [bind_ok, Except.ok.injEq] at hstep
    obtain ⟨_, -, rfl⟩ := hstep
    rfl
  · cases hstep
    rfl

/-- The tables of a compiled program. -/
theorem serves_of_passes {reg : Registry F} {all : List (Decl F)} {c c' : Compiler F} {o : Emitted F}
    (hp : pass1 reg (.withSession {}) all = .ok c) (hd : compileDenyHandlers reg c all = .ok c')
    (ho : pass2 reg c' all = .ok o) :
    Serves reg (c'.tables reg) (o.bodies.map (·.name)) (registeredLearnables o.code) all := by
  have hcol := pass1_collects all hp
  have hkeep := compileDenyHandlers_handles hd
  have hpat : c'.patterns.Tracks (fnKeys all) := by
    rw [hkeep.patterns, hcol.patterns]
    exact SlotTable.tracks_empty.foldl (fnKeys all)
  have hlt : c'.learnables.Tracks (learnableNames all) := by
    rw [denyFold_learnables _ hd, pass1_learnables all hp]
    exact SlotTable.tracks_empty.foldl (learnableNames all)
  refine ⟨rfl, hpat.last, hlt.last, fun n => ?_, ?_, pass2_learnables ho⟩
  · have := hcol.tools n
    rw [← hkeep.tools] at this
    simp only [Compiler.tables, List.contains_eq_mem]
    congr 1
    simpa [Compiler.withSession] using this
  · simpa using (pass2_adds ho).keys

end Whole

/-! ## Programs that run -/

namespace Sample

/-- One builtin, `len`, and one operation, `vision_edit`, whose row is not in the build. -/
def host : Host Int where
  reg := { env.reg with builtinIdx := fun n => if n = "len" then some 0 else none }
  exprOps name := name = "vision_edit"
  stepOps name := name = "vision_edit"
  machineOps name := name = "vision_edit"

/-- The compiler and the output of pass 2 for a program. -/
def passes (program : List (Decl Int)) : Except String (Compiler Int × Compiler Int × Emitted Int) := do
  let c ← pass1 host.reg (.withSession {}) program
  let c' ← compileDenyHandlers host.reg c program
  let o ← pass2 host.reg c' program
  .ok (c, c', o)

/-- What a call reaches in the compiled program. -/
def compiledCallee (program : List (Decl Int)) (call : Call) : Option Callee :=
  match passes program with
  | .ok (_, c', o) =>
    vmCallee host (c'.tables host.reg) (o.bodies.map (·.name)) (registeredLearnables o.code) call
  | .error _ => none

/-- A pattern declared twice, a tool, a learnable. -/
def shadowed : List (Decl Int) :=
  [.pattern (fn "f" (.floatLit 1)), .tool "calc" [fn "f" (.floatLit 2)], .pattern (fn "f" (.floatLit 3)),
    .learnable "ask"]

/-- A learnable and a pattern of one name, a pattern with the name of a builtin and one with that of an operation, a
learnable twice. -/
def overlapping : List (Decl Int) :=
  [.pattern (fn "f" (.floatLit 1)), .learnable "f", .pattern (fn "len" (.floatLit 2)),
    .pattern (fn "vision_edit" (.floatLit 3)), .learnable "ask", .learnable "ask"]

end Sample

end Metalogos.Program
