import Metalogos.Lib.Logged
import Metalogos.Machine.Exec

/-!
# The body executor, watched

`executeM` is the executor of `Metalogos.Machine.Exec` for any monad: before an instruction and before the body of a
builtin it tells what is about to be done. With nothing told it is `executeCode` (`executeM_id`), and a map between
monads takes one run to the other (`executeM_app`), so what a machine does that refuses some of what it is told is
read off the log of the run.
-/
namespace Metalogos.Machine

open Metalogos.Lang Metalogos.Lib

variable {F W : Type} [FloatModel F]

/-- What a run does that the process has to bear: an instruction, the body of a builtin. -/
inductive Access (F W : Type) where
  | instr (i : Instr F) (m : Mach F W)
  | builtin (name : String) (args : List (Value F)) (vm : Vm F W)

/-- The call of `execute_code` an instruction makes, with the machine it is made on. -/
abbrev Entry (F W : Type) := List (Instr F) × Mach F W

section

variable (N : Names) (P : Program F) (H : Host F W)

/-- The pattern an instruction calls, in its frame.
mirrors src/vm.rs:2215-2243 -/
def patternEntry (idx arity nextIp : Nat) (m : Mach F W) : Option (Entry F W) :=
  match P.patterns[idx]? with
  | none => none
  | some p =>
    if arity ≠ p.paramCount then none
    else match popN? arity m.stack with
      | none => none
      | some (args, s) =>
        some (p.code, { m with stack := s ++ args, callStack := m.callStack ++ [⟨nextIp, s.length⟩] })

/-- The handler a refusal fires, in its frame.
mirrors src/vm.rs:2823-2891 -/
def denyEntry (a : Denial F) (returnIp : Nat) (m : Mach F W) : Option (Entry F W) :=
  let m0 := m.withWorld (H.recordDeny ("deny." ++ a.reason) a.cls
    (a.sink ++ "|" ++ a.argument ++ "|" ++ a.label ++ "|" ++ FloatModel.print a.line ++ "|" ++ a.human)
    m.vm.world)
  match selectHandler (P.denyHandlers.map (·.1)) a.cls with
  | none => none
  | some k =>
    let event := denyEventValue a.reason a.sink a.cls a.argument a.label a.line a.human
    some ((P.denyHandlers[k]?.map (·.2)).getD [],
      { m0 with
        callStack := m0.callStack ++ [⟨returnIp, m0.stack.length⟩]
        vm := { m0.vm with denyEvent := some event } })

/-- mirrors src/vm.rs:870-970 -/
def sinkEntry (sc : SinkCheckData) (nextIp : Nat) (m : Mach F W) : Option (Entry F W) :=
  let label := labelOf N.classes m.vm.labelEnv sc.arg
  if sinkRefuses sc.fnName label then
    match sc.slot.bind fun s => m.stack[m.bp + s]? with
    | some (.handle .worldState _ _) => none
    | _ =>
      let reason := sinkCheckId sc.fnName sc.argIndex label
      let message := sinkClearanceErr sc.fnName sc.arg.text label sc.line reason
      match sc.deny with
      | none => none
      | some _ =>
        denyEntry P H ⟨sc.fnName, sc.arg.text, sinkKind sc.fnName, reason, label.display,
          FloatModel.ofNat sc.line, message⟩ nextIp m
  else none

/-- The one run of a code an instruction other than a builtin call makes, if it makes one. -/
def entryOf (i : Instr F) (ip : Nat) (m : Mach F W) : Option (Entry F W) :=
  match i with
  | .callPattern idx arity => patternEntry P idx arity (ip + 1) m
  | .tryEval inner => some (inner, m)
  | .sinkCheck data => sinkEntry N P H data (ip + 1) m
  | _ => none

/-- What a builtin call does after `map` was tried.
mirrors src/vm.rs:2162-2214 -/
def dispatchBuiltin (run : List (Instr F) → Mach F W → Res F W) (name : String) (args : List (Value F))
    (nextIp : Nat) (m : Mach F W) : StepOut F W :=
  let (r, w) := H.builtin name args m.vm
  let m := m.withWorld w
  let deny (argument cls e : String) : StepOut F W :=
    match vmFireOnDeny P H run ⟨name, argument, cls, "IRREVERSIBLE_NO_GRANT", "bottom",
        FloatModel.ofNat 0, e⟩ nextIp m with
    | (.ok true, m') => .next nextIp m'
    | (.ok false, m') => .err e m'
    | (.error e', m') => .err e' m'
  match r with
  | .ok v => .next nextIp (m.push v)
  | .error e =>
    if startsWith e "IRREVERSIBLE_NO_GRANT" then deny "call" (sinkKind name) e
    else if startsWith e "GRANT_" then deny "sql" "db" e
    else .err e m

/-- The handler a refused builtin fires. -/
def builtinEntry (name : String) (args : List (Value F)) (nextIp : Nat) (m : Mach F W) : Option (Entry F W) :=
  let (r, w) := H.builtin name args m.vm
  let m := m.withWorld w
  let deny (argument cls e : String) : Option (Entry F W) :=
    denyEntry P H ⟨name, argument, cls, "IRREVERSIBLE_NO_GRANT", "bottom", FloatModel.ofNat 0, e⟩ nextIp m
  match r with
  | .ok _ => none
  | .error e =>
    if startsWith e "IRREVERSIBLE_NO_GRANT" then deny "call" (sinkKind name) e
    else if startsWith e "GRANT_" then deny "sql" "db" e
    else none

/-- The list and the pattern of a `map` that runs.
mirrors src/vm.rs:2767-2799 -/
def mapTarget (args : List (Value F)) : Option (List (Value F) × CompiledPattern F) :=
  if !P.collectionsLoaded then none
  else match args with
    | .list items :: .string name :: _ =>
      match P.patterns.reverse.find? (·.name = name) with
      | none => none
      | some p => if p.paramCount ≠ 1 then none else some (items, p)
    | _ => none

/-! ## In any monad -/

variable {M : Type → Type} [Monad M] (visit : Access F W → M Unit)
  (run : List (Instr F) → Mach F W → M (Res F W))

/-- A step with at most one run in it: `use` is the step for any way of running. -/
def withEntry (entry : Option (Entry F W))
    (use : (List (Instr F) → Mach F W → Res F W) → StepOut F W) : M (StepOut F W) :=
  match entry with
  | none => pure (use fun _ m => (.error "", m))
  | some (code, m) => do
    let r ← run code m
    pure (use fun _ _ => r)

def mapItemsM (p : CompiledPattern F) :
    List (Value F) → List (Value F) → Vm F W → M (Option (Value F) × Vm F W)
  | [], acc, vm => pure (some (.list acc), vm)
  | v :: vs, acc, vm => do
    match ← run p.code { stack := [v], callStack := [⟨0, 0⟩], vm := vm } with
    | (.ok r, m') => mapItemsM p vs (acc ++ [r]) m'.vm
    | (.error _, m') => pure (none, m'.vm)

/-- `map`, where the builtin called is `map` and it runs. -/
def tryMapM (name : String) (args : List (Value F)) (vm : Vm F W) : M (Option (Value F) × Vm F W) :=
  match (if name = "map" then mapTarget P args else none) with
  | none => pure (none, vm)
  | some (items, p) => mapItemsM run p items [] vm

def callBuiltinM (name : String) (args : List (Value F)) (nextIp : Nat) (m : Mach F W) : M (StepOut F W) := do
  let (mapped, vm) ← tryMapM P run name args m.vm
  let m : Mach F W := { m with vm := vm }
  match mapped with
  | some v => pure (.next nextIp (m.push v))
  | none => do
    visit (.builtin name args m.vm)
    withEntry run (builtinEntry P H name args nextIp m) fun run => dispatchBuiltin P H run name args nextIp m

def stepM (i : Instr F) (ip : Nat) (m : Mach F W) : M (StepOut F W) := do
  visit (.instr i m)
  match i with
  | .callBuiltin idx arity =>
    let name := N.builtinNames[idx]?.getD "unknown"
    match popN? arity m.stack with
    | none => pure (.err (underflowErr ("CallBuiltin '" ++ name ++ "' (operand)")) (m.withStack []))
    | some (args, s) => callBuiltinM P H visit run name args (ip + 1) (m.withStack s)
  | i => withEntry run (entryOf N P H i ip m) fun run => step N H.toHostOps (realCalls N P H run) i ip m

def runLoopM (code : List (Instr F)) (budget : Nat) : Nat → Nat → Mach F W → M (Res F W)
  | fuel, ip, m =>
    match code[ip]? with
    | none => pure (epilogue m)
    | some i =>
      match fuel with
      | 0 => pure (.error (infiniteLoopErr budget code.length), m)
      | fuel + 1 => do
        match ← stepM N P H visit run i ip m with
        | .next ip' m' => runLoopM code budget fuel ip' m'
        | .ret v m' => pure (.ok v, m')
        | .err e m' => pure (.error e, m')

end

def executeM {M : Type → Type} [Monad M] (N : Names) (P : Program F) (H : Host F W) (L : Limits)
    (visit : Access F W → M Unit) : Nat → List (Instr F) → Mach F W → M (Res F W)
  | 0, _, m => pure (.error (callDepthErr L.maxDepth), m)
  | d + 1, code, m =>
    if m.vm.callDepth + 1 > L.maxDepth then pure (.error (callDepthErr L.maxDepth), m)
    else do
      let m1 : Mach F W :=
        { m with vm := { m.vm with callDepth := m.vm.callDepth + 1, registers := [] } }
      let budget := max code.length 1 * L.lim
      let (out, m2) ← runLoopM N P H visit (executeM N P H L visit d) code budget budget 0 m1
      pure (out, { m2 with vm := { m2.vm with
        callDepth := m2.vm.callDepth - 1, registers := m.vm.registers } })

/-! ## With nothing told -/

section

variable {N : Names} {P : Program F} {H : Host F W} {run run' : List (Instr F) → Mach F W → Res F W}

/-- What a refusal comes to is known from what its handler does. -/
theorem vmFireOnDeny_congr {a : Denial F} {returnIp : Nat} {m : Mach F W}
    (h : ∀ code m', denyEntry P H a returnIp m = some (code, m') → run code m' = run' code m') :
    vmFireOnDeny P H run a returnIp m = vmFireOnDeny P H run' a returnIp m := by
  unfold denyEntry at h
  unfold vmFireOnDeny
  cases hk : selectHandler (P.denyHandlers.map (·.1)) a.cls with
  | none => rfl
  | some k =>
    simp only [hk] at h
    have hrun := h _ _ rfl
    dsimp only [runDenyHandler]
    rw [hrun]

/-- An instruction that enters no code does the same whatever the entering ones do. -/
theorem step_calls {O : HostOps F W} {C C' : Calls F W} {i : Instr F} {ip : Nat} {m : Mach F W}
    (hllm : C.llm = C'.llm) (hbuiltin : ∀ idx arity, i ≠ .callBuiltin idx arity)
    (hpattern : ∀ idx arity, i ≠ .callPattern idx arity) (htry : ∀ inner, i ≠ .tryEval inner)
    (hsink : ∀ data, i ≠ .sinkCheck data) : step N O C i ip m = step N O C' i ip m := by
  cases i with
  | callBuiltin idx arity => exact absurd rfl (hbuiltin idx arity)
  | callPattern idx arity => exact absurd rfl (hpattern idx arity)
  | tryEval inner => exact absurd rfl (htry inner)
  | sinkCheck data => exact absurd rfl (hsink data)
  | llmCall idx arity => simp only [step, hllm]
  | cmp op => cases op <;> rfl
  | matchTest test => cases test <;> rfl
  | _ => rfl

theorem step_congr {i : Instr F} {ip : Nat} {m : Mach F W} (hi : ∀ idx arity, i ≠ .callBuiltin idx arity)
    (h : ∀ code m', entryOf N P H i ip m = some (code, m') → run code m' = run' code m') :
    step N H.toHostOps (realCalls N P H run) i ip m = step N H.toHostOps (realCalls N P H run') i ip m := by
  cases i with
  | callBuiltin idx arity => exact absurd rfl (hi idx arity)
  | callPattern idx arity =>
    simp only [entryOf, patternEntry] at h
    simp only [step, realCalls, callPatternReal, popArgs]
    split
    · rfl
    · rename_i p hp
      simp only [hp] at h
      split_ifs with harity
      · rfl
      · simp only [if_neg harity] at h
        split
        · rename_i args s hpop
          simp only [hpop] at h
          simp only [Mach.withStack]
          rw [h _ _ rfl]
        · rfl
  | tryEval inner =>
    simp only [step, realCalls, runTry]
    rw [h inner m rfl]
  | sinkCheck data =>
    simp only [entryOf, sinkEntry] at h
    simp only [step, realCalls, execSinkCheck]
    split_ifs with hrefuses
    · rw [if_pos hrefuses] at h
      split
      · rfl
      · rename_i hnot
        split at h
        · rename_i hworld
          exact absurd hworld (hnot _ _)
        · split
          · rfl
          · rename_i hdeny
            simp only [hdeny] at h
            rw [vmFireOnDeny_congr h]
    · rfl
  | _ =>
    exact step_calls rfl (by intro _ _ hsame; cases hsame) (by intro _ _ hsame; cases hsame)
      (by intro _ hsame; cases hsame) (by intro _ hsame; cases hsame)

theorem builtinEntry_depth {name : String} {args : List (Value F)} {nextIp : Nat} {m m' : Mach F W}
    {code : List (Instr F)} (h : builtinEntry P H name args nextIp m = some (code, m')) :
    m'.vm.callDepth = m.vm.callDepth := by
  unfold builtinEntry denyEntry at h
  dsimp only at h
  repeat' split at h
  all_goals cases h
  all_goals rfl

theorem dispatchBuiltin_congr {name : String} {args : List (Value F)} {nextIp : Nat} {m : Mach F W}
    (h : ∀ code m', builtinEntry P H name args nextIp m = some (code, m') → run code m' = run' code m') :
    dispatchBuiltin P H run name args nextIp m = dispatchBuiltin P H run' name args nextIp m := by
  unfold dispatchBuiltin
  unfold builtinEntry at h
  dsimp only at h ⊢
  split
  · rfl
  · rename_i e he
    simp only [he] at h
    split_ifs with hirr hgrant
    · rw [if_pos hirr] at h
      rw [vmFireOnDeny_congr h]
    · rw [if_neg hirr, if_pos hgrant] at h
      rw [vmFireOnDeny_congr h]
    · rfl

omit [FloatModel F] in
theorem withEntry_id {entry : Option (Entry F W)} {use : (List (Instr F) → Mach F W → Res F W) → StepOut F W}
    (huse : ∀ r r', (∀ code m, entry = some (code, m) → r code m = r' code m) → use r = use r') :
    withEntry (M := Id) run entry use = use run := by
  cases entry with
  | none =>
    refine huse _ _ fun code m h => ?_
    cases h
  | some e =>
    refine huse _ _ fun code m h => ?_
    cases h
    rfl

omit [FloatModel F] in
theorem mapItemsM_id (p : CompiledPattern F) (items acc : List (Value F)) (vm : Vm F W) :
    mapItemsM (M := Id) run p items acc vm = vmMap.go run p items acc vm := by
  induction items generalizing acc vm with
  | nil => rfl
  | cons v vs ih =>
    unfold vmMap.go
    show (match run p.code { stack := [v], callStack := [⟨0, 0⟩], vm := vm } with
      | (.ok r, m') => mapItemsM (M := Id) run p vs (acc ++ [r]) m'.vm
      | (.error _, m') => (none, m'.vm)) = _
    obtain ⟨out, m'⟩ := run p.code { stack := [v], callStack := [⟨0, 0⟩], vm := vm }
    cases out with
    | ok r => exact ih _ _
    | error e => rfl

omit [FloatModel F] in
theorem vmMap_other {args : List (Value F)}
    (h : ¬ ∃ items name rest, args = .list items :: .string name :: rest) (m : Mach F W) :
    vmMap P run args m = (none, m) := by
  unfold vmMap
  split_ifs
  · rfl
  · split
    · exact absurd ⟨_, _, _, rfl⟩ h
    · rfl

omit [FloatModel F] in
theorem mapTarget_other {args : List (Value F)}
    (h : ¬ ∃ items name rest, args = .list items :: .string name :: rest) : mapTarget P args = none := by
  unfold mapTarget
  split_ifs
  · rfl
  · split
    · exact absurd ⟨_, _, _, rfl⟩ h
    · rfl

omit [FloatModel F] in
theorem tryMap_id (name : String) (args : List (Value F)) (m : Mach F W) :
    (if name = "map" then vmMap P run args m else (none, m)) =
      ((tryMapM (M := Id) P run name args m.vm).1, { m with vm := (tryMapM (M := Id) P run name args m.vm).2 }) := by
  unfold tryMapM
  split_ifs with hname
  · by_cases h : ∃ items name rest, args = .list items :: .string name :: rest
    · obtain ⟨items, name', rest, rfl⟩ := h
      unfold vmMap mapTarget
      split_ifs
      · rfl
      · dsimp only
        cases P.patterns.reverse.find? (·.name = name') with
        | none => rfl
        | some p =>
          dsimp only
          split_ifs
          · rfl
          · dsimp only
            rw [mapItemsM_id]
    · rw [vmMap_other h, mapTarget_other h]
      rfl
  · rfl

/-- A builtin call is `map`, where it runs, and else what the table does. -/
theorem callBuiltinReal_eq (run : List (Instr F) → Mach F W → Res F W) (name : String) (args : List (Value F))
    (nextIp : Nat) (m : Mach F W) :
    callBuiltinReal P H run name args nextIp m =
      match (if name = "map" then vmMap P run args m else (none, m)) with
      | (some v, m) => .next nextIp (m.push v)
      | (none, m) => dispatchBuiltin P H run name args nextIp m := by
  unfold callBuiltinReal dispatchBuiltin
  generalize (if name = "map" then vmMap P run args m else (none, m)) = mapped
  obtain ⟨o, m'⟩ := mapped
  cases o <;> rfl

theorem callBuiltinM_id (name : String) (args : List (Value F)) (nextIp : Nat) (m : Mach F W) :
    callBuiltinM (M := Id) P H (fun _ => ()) run name args nextIp m = callBuiltinReal P H run name args nextIp m := by
  rw [callBuiltinReal_eq, tryMap_id]
  show (match tryMapM (M := Id) P run name args m.vm with
    | (mapped, vm) => match mapped with
      | some v => StepOut.next nextIp (Mach.push { m with vm := vm } v)
      | none => withEntry (M := Id) run (builtinEntry P H name args nextIp { m with vm := vm })
          fun run => dispatchBuiltin P H run name args nextIp { m with vm := vm }) = _
  obtain ⟨mapped, vm⟩ := tryMapM (M := Id) P run name args m.vm
  cases mapped with
  | none => exact withEntry_id fun r r' h => dispatchBuiltin_congr h
  | some v => rfl

theorem stepM_id (i : Instr F) (ip : Nat) (m : Mach F W) :
    stepM (M := Id) N P H (fun _ => ()) run i ip m = step N H.toHostOps (realCalls N P H run) i ip m := by
  have hentry (hi : ∀ idx arity, i ≠ .callBuiltin idx arity) :
      withEntry (M := Id) run (entryOf N P H i ip m)
          (fun run => step N H.toHostOps (realCalls N P H run) i ip m) =
        step N H.toHostOps (realCalls N P H run) i ip m :=
    withEntry_id fun r r' h => step_congr hi h
  cases i with
  | callBuiltin idx arity =>
    unfold stepM
    simp only [step, popArgs, realCalls]
    cases popN? arity m.stack with
    | none => rfl
    | some popped =>
      obtain ⟨args, s⟩ := popped
      exact callBuiltinM_id _ _ _ _
  | _ => exact hentry (fun _ _ h => by cases h)

theorem runLoopM_id (code : List (Instr F)) (budget fuel ip : Nat) (m : Mach F W) :
    runLoopM (M := Id) N P H (fun _ => ()) run code budget fuel ip m =
      runLoop N H.toHostOps (realCalls N P H run) code budget fuel ip m := by
  induction fuel generalizing ip m with
  | zero =>
    unfold runLoopM runLoop
    cases code[ip]? <;> rfl
  | succ fuel ih =>
    unfold runLoopM runLoop
    cases code[ip]? with
    | none => rfl
    | some i =>
      show (match stepM (M := Id) N P H (fun _ => ()) run i ip m with
        | .next ip' m' => runLoopM (M := Id) N P H (fun _ => ()) run code budget fuel ip' m'
        | .ret v m' => (.ok v, m')
        | .err e m' => (.error e, m')) = _
      rw [stepM_id]
      dsimp only
      cases step N H.toHostOps (realCalls N P H run) i ip m with
      | next ip' m' => exact ih ip' m'
      | ret v m' => rfl
      | err e m' => rfl

end

/-- The executor that tells nothing is `execute_code`. -/
theorem executeM_id (N : Names) (P : Program F) (H : Host F W) (L : Limits) (d : Nat) (code : List (Instr F))
    (m : Mach F W) :
    executeM (M := Id) N P H L (fun _ => ()) d code m =
      executeCode N H.toHostOps (realCalls N P H) L d code m := by
  induction d generalizing code m with
  | zero => rfl
  | succ d ih =>
    have hrun : executeM (M := Id) N P H L (fun _ => ()) d = executeCode N H.toHostOps (realCalls N P H) L d :=
      funext fun code => funext fun m => ih code m
    unfold executeM executeCode
    split_ifs
    · rfl
    · rw [hrun]
      dsimp only
      rw [← runLoopM_id]
      rfl

/-! ## From one monad to another -/

section

variable {M K : Type → Type} [Monad M] [Monad K] (φ : MonadMap M K) (N : Names) (P : Program F) (H : Host F W)
  (visit : Access F W → M Unit) (run : List (Instr F) → Mach F W → M (Res F W))

omit [FloatModel F] in
theorem withEntry_app (entry : Option (Entry F W))
    (use : (List (Instr F) → Mach F W → Res F W) → StepOut F W) :
    φ.app (withEntry run entry use) = withEntry (fun code m => φ.app (run code m)) entry use := by
  unfold withEntry
  cases entry with
  | none => exact φ.app_pure _
  | some e => simp only [φ.app_bind, φ.app_pure]

omit [FloatModel F] in
theorem mapItemsM_app (p : CompiledPattern F) (items acc : List (Value F)) (vm : Vm F W) :
    φ.app (mapItemsM run p items acc vm) = mapItemsM (fun code m => φ.app (run code m)) p items acc vm := by
  induction items generalizing acc vm with
  | nil => exact φ.app_pure _
  | cons v vs ih =>
    unfold mapItemsM
    rw [φ.app_bind]
    congr 1
    funext r
    obtain ⟨out, m'⟩ := r
    cases out with
    | ok r => exact ih _ _
    | error e => exact φ.app_pure _

omit [FloatModel F] in
theorem tryMap_app (name : String) (args : List (Value F)) (vm : Vm F W) :
    φ.app (tryMapM P run name args vm) = tryMapM P (fun code m => φ.app (run code m)) name args vm := by
  unfold tryMapM
  split
  · exact φ.app_pure _
  · exact mapItemsM_app φ run _ _ _ _

theorem callBuiltinM_app (name : String) (args : List (Value F)) (nextIp : Nat) (m : Mach F W) :
    φ.app (callBuiltinM P H visit run name args nextIp m) =
      callBuiltinM P H (fun a => φ.app (visit a)) (fun code m => φ.app (run code m)) name args nextIp m := by
  unfold callBuiltinM
  rw [φ.app_bind, tryMap_app]
  congr 1
  funext r
  obtain ⟨mapped, vm⟩ := r
  cases mapped with
  | some v => exact φ.app_pure _
  | none =>
    dsimp only
    rw [φ.app_bind]
    congr 1
    funext _
    exact withEntry_app φ run _ _

theorem stepM_app (i : Instr F) (ip : Nat) (m : Mach F W) :
    φ.app (stepM N P H visit run i ip m) =
      stepM N P H (fun a => φ.app (visit a)) (fun code m => φ.app (run code m)) i ip m := by
  unfold stepM
  rw [φ.app_bind]
  congr 1
  funext _
  split
  · dsimp only
    split
    · exact φ.app_pure _
    · exact callBuiltinM_app φ P H visit run _ _ _ _
  · exact withEntry_app φ run _ _

theorem runLoopM_app (code : List (Instr F)) (budget fuel ip : Nat) (m : Mach F W) :
    φ.app (runLoopM N P H visit run code budget fuel ip m) =
      runLoopM N P H (fun a => φ.app (visit a)) (fun code m => φ.app (run code m)) code budget fuel ip m := by
  induction fuel generalizing ip m with
  | zero =>
    unfold runLoopM
    split <;> exact φ.app_pure _
  | succ fuel ih =>
    unfold runLoopM
    cases code[ip]? with
    | none => exact φ.app_pure _
    | some i =>
      dsimp only
      rw [φ.app_bind, stepM_app]
      congr 1
      funext out
      cases out with
      | next ip' m' => exact ih ip' m'
      | ret v m' => exact φ.app_pure _
      | err e m' => exact φ.app_pure _

end

/-- A map between monads takes a run to the run that tells what the map makes of what is told. -/
theorem executeM_app {M K : Type → Type} [Monad M] [Monad K] (φ : MonadMap M K) (N : Names) (P : Program F)
    (H : Host F W) (L : Limits) (visit : Access F W → M Unit) (d : Nat) (code : List (Instr F)) (m : Mach F W) :
    φ.app (executeM N P H L visit d code m) = executeM N P H L (fun a => φ.app (visit a)) d code m := by
  induction d generalizing code m with
  | zero => exact φ.app_pure _
  | succ d ih =>
    have hrun : (fun code m => φ.app (executeM N P H L visit d code m)) =
        executeM N P H L (fun a => φ.app (visit a)) d :=
      funext fun code => funext fun m => ih code m
    unfold executeM
    split_ifs
    · exact φ.app_pure _
    · dsimp only
      rw [φ.app_bind, runLoopM_app, hrun]
      congr 1
      funext r
      exact φ.app_pure _

end Metalogos.Machine
