import Metalogos.Machine.Watched

/-!
# The depth cap bounds the recursion

Everything that runs a code comes back at the call depth it started from, so the cap leaves a run only so many levels:
a bound on the native recursion that covers them is as good as any larger one (`executeCode_bound`).
-/
namespace Metalogos.Machine

open Metalogos.Lang

variable {F W : Type} [FloatModel F]

def StepOut.mach : StepOut F W → Mach F W
  | .next _ m => m
  | .ret _ m => m
  | .err _ m => m

/-- What runs a code comes back at the depth it was called at. -/
def KeepsDepth (run : List (Instr F) → Mach F W → Res F W) : Prop :=
  ∀ code m, (run code m).2.vm.callDepth = m.vm.callDepth

section

variable {N : Names} {P : Program F} {H : Host F W} {run run' : List (Instr F) → Mach F W → Res F W}

theorem vmFireOnDeny_depth (hr : KeepsDepth run) (a : Denial F) (returnIp : Nat) (m : Mach F W) :
    (vmFireOnDeny P H run a returnIp m).2.vm.callDepth = m.vm.callDepth := by
  unfold vmFireOnDeny
  cases selectHandler (P.denyHandlers.map (·.1)) a.cls with
  | none => rfl
  | some k =>
    dsimp only [runDenyHandler]
    generalize hout : run _ _ = out
    have hdepth : out.2.vm.callDepth = m.vm.callDepth := by
      rw [← hout, hr]
      rfl
    obtain ⟨r, m'⟩ := out
    cases r <;> exact hdepth

omit [FloatModel F] in
theorem vmMapGo_depth (hr : KeepsDepth run) (p : CompiledPattern F) (items acc : List (Value F)) (vm : Vm F W) :
    (vmMap.go run p items acc vm).2.callDepth = vm.callDepth := by
  induction items generalizing acc vm with
  | nil => rfl
  | cons v vs ih =>
    unfold vmMap.go
    generalize hout : run p.code _ = out
    have hdepth : out.2.vm.callDepth = vm.callDepth := by rw [← hout, hr]
    obtain ⟨r, m'⟩ := out
    cases r with
    | ok r => exact (ih _ _).trans hdepth
    | error e => exact hdepth

omit [FloatModel F] in
theorem vmMap_depth (hr : KeepsDepth run) (args : List (Value F)) (m : Mach F W) :
    (vmMap P run args m).2.vm.callDepth = m.vm.callDepth := by
  unfold vmMap
  split_ifs
  · rfl
  · split
    · split
      · rfl
      · split_ifs
        · rfl
        · exact vmMapGo_depth hr _ _ _ _
    · rfl

/-- What a denied builtin ends with, by what its handlers did. -/
theorem denied_depth (hr : KeepsDepth run) (a : Denial F) (nextIp : Nat) (m : Mach F W)
    (e : String) :
    (match vmFireOnDeny P H run a nextIp m with
      | (.ok true, m') => StepOut.next nextIp m'
      | (.ok false, m') => .err e m'
      | (.error e', m') => .err e' m').mach.vm.callDepth = m.vm.callDepth := by
  have hfire := vmFireOnDeny_depth (P := P) (H := H) hr a nextIp m
  generalize vmFireOnDeny P H run a nextIp m = fired at hfire ⊢
  obtain ⟨r, m'⟩ := fired
  cases r with
  | error e' => exact hfire
  | ok b => cases b <;> exact hfire

theorem callBuiltin_depth (hr : KeepsDepth run) (name : String) (args : List (Value F)) (nextIp : Nat) (m : Mach F W) :
    (callBuiltinReal P H run name args nextIp m).mach.vm.callDepth = m.vm.callDepth := by
  have hmapped : (if name = "map" then vmMap P run args m else (none, m)).2.vm.callDepth = m.vm.callDepth := by
    split_ifs
    · exact vmMap_depth hr args m
    · rfl
  unfold callBuiltinReal
  generalize (if name = "map" then vmMap P run args m else (none, m)) = mapped at hmapped ⊢
  obtain ⟨o, m1⟩ := mapped
  cases o with
  | some v => exact hmapped
  | none =>
    dsimp only
    split
    · exact hmapped
    · split_ifs
      · exact (denied_depth hr _ _ _ _).trans hmapped
      · exact (denied_depth hr _ _ _ _).trans hmapped
      · exact hmapped

theorem step_depth (hr : KeepsDepth run) (i : Instr F) (ip : Nat) (m : Mach F W) :
    (step N H.toHostOps (realCalls N P H run) i ip m).mach.vm.callDepth = m.vm.callDepth := by
  cases i with
  | callBuiltin idx arity =>
    simp only [step, popArgs]
    split
    · exact callBuiltin_depth hr _ _ _ _
    · rfl
  | callPattern idx arity =>
    simp only [step, realCalls, callPatternReal, popArgs]
    repeat' split
    all_goals first
      | rfl
      | (rename_i h; exact (congrArg (fun r => r.2.vm.callDepth) h).symm.trans (hr _ _))
  | tryEval inner =>
    simp only [step, realCalls, runTry]
    split
    all_goals
      rename_i h
      exact (congrArg (fun r => r.2.vm.callDepth) h).symm.trans (hr _ _)
  | sinkCheck data =>
    simp only [step, realCalls, execSinkCheck]
    repeat' split
    all_goals first
      | rfl
      | (rename_i h; exact (congrArg (fun r => r.2.vm.callDepth) h).symm.trans (vmFireOnDeny_depth hr _ _ _))
  | cmp op => cases op <;> simp only [step, popLoud, popSoft, pushResult] <;> repeat' split
              all_goals rfl
  | matchTest test => cases test <;> simp only [step, popLoud] <;> repeat' split
                      all_goals rfl
  | _ =>
    simp only [step, popLoud, popSoft, popArgs, pushResult, realCalls]
    repeat' split
    all_goals rfl

theorem runLoop_depth (hr : KeepsDepth run) (code : List (Instr F)) (budget fuel ip : Nat) (m : Mach F W) :
    (runLoop N H.toHostOps (realCalls N P H run) code budget fuel ip m).2.vm.callDepth = m.vm.callDepth := by
  induction fuel generalizing ip m with
  | zero =>
    unfold runLoop epilogue
    split
    · split <;> rfl
    · rfl
  | succ fuel ih =>
    unfold runLoop epilogue
    split
    · split <;> rfl
    · rename_i i _
      have hstep := step_depth (N := N) (P := P) (H := H) hr i ip m
      generalize step N H.toHostOps (realCalls N P H run) i ip m = out at hstep ⊢
      cases out with
      | next ip' m' => exact (ih ip' m').trans hstep
      | ret v m' => exact hstep
      | err e m' => exact hstep

/-- Two ways to run that agree on the machines of a depth, and keep it. -/
def AgreeAt (depth : Nat) (run run' : List (Instr F) → Mach F W → Res F W) : Prop :=
  ∀ code m, m.vm.callDepth = depth → run code m = run' code m

theorem entryOf_depth {i : Instr F} {ip : Nat} {m m' : Mach F W} {code : List (Instr F)}
    (h : entryOf N P H i ip m = some (code, m')) : m'.vm.callDepth = m.vm.callDepth := by
  cases i with
  | callPattern idx arity =>
    simp only [entryOf, patternEntry] at h
    repeat' split at h
    all_goals cases h
    rfl
  | tryEval inner =>
    simp only [entryOf] at h
    cases h
    rfl
  | sinkCheck data =>
    simp only [entryOf, sinkEntry, denyEntry] at h
    repeat' split at h
    all_goals cases h
    rfl
  | _ => cases h

omit [FloatModel F] in
theorem vmMap_congr {args : List (Value F)} {m : Mach F W} (hr : KeepsDepth run')
    (h : AgreeAt m.vm.callDepth run run') : vmMap P run args m = vmMap P run' args m := by
  have hgo (p : CompiledPattern F) (items acc : List (Value F)) (vm : Vm F W) (hvm : vm.callDepth = m.vm.callDepth) :
      vmMap.go run p items acc vm = vmMap.go run' p items acc vm := by
    induction items generalizing acc vm with
    | nil => rfl
    | cons v vs ih =>
      unfold vmMap.go
      rw [h _ _ hvm]
      generalize hout : run' p.code _ = out
      have hdepth : out.2.vm.callDepth = m.vm.callDepth := by
        rw [← hout, hr]
        exact hvm
      obtain ⟨r, m'⟩ := out
      cases r with
      | ok r => exact ih _ _ hdepth
      | error e => rfl
  unfold vmMap
  split_ifs
  · rfl
  · split
    · split
      · rfl
      · split_ifs
        · rfl
        · rw [hgo _ _ _ _ rfl]
    · rfl

theorem callBuiltin_congr {name : String} {args : List (Value F)} {nextIp : Nat} {m : Mach F W} (hr : KeepsDepth run')
    (h : AgreeAt m.vm.callDepth run run') :
    callBuiltinReal P H run name args nextIp m = callBuiltinReal P H run' name args nextIp m := by
  have hmapped : (if name = "map" then vmMap P run' args m else (none, m)).2.vm.callDepth = m.vm.callDepth := by
    split_ifs
    · exact vmMap_depth hr args m
    · rfl
  rw [callBuiltinReal_eq, callBuiltinReal_eq, vmMap_congr hr h]
  generalize (if name = "map" then vmMap P run' args m else (none, m)) = mapped at hmapped ⊢
  obtain ⟨o, m1⟩ := mapped
  cases o with
  | some v => rfl
  | none =>
    refine dispatchBuiltin_congr fun code m' hentry => h code m' ?_
    rw [builtinEntry_depth hentry]
    exact hmapped

theorem runLoop_congr {depth : Nat} (hr : KeepsDepth run') (h : AgreeAt depth run run') (code : List (Instr F))
    (budget fuel ip : Nat) (m : Mach F W) (hm : m.vm.callDepth = depth) :
    runLoop N H.toHostOps (realCalls N P H run) code budget fuel ip m =
      runLoop N H.toHostOps (realCalls N P H run') code budget fuel ip m := by
  induction fuel generalizing ip m with
  | zero => unfold runLoop; rfl
  | succ fuel ih =>
    unfold runLoop
    cases code[ip]? with
    | none => rfl
    | some i =>
      have hsame : step N H.toHostOps (realCalls N P H run) i ip m =
          step N H.toHostOps (realCalls N P H run') i ip m := by
        cases i with
        | callBuiltin idx arity =>
          simp only [step, popArgs]
          split
          · exact callBuiltin_congr hr (hm ▸ h)
          · rfl
        | _ =>
          refine step_congr (fun _ _ heq => by cases heq) fun code m' hentry => h code m' ?_
          rw [entryOf_depth hentry, hm]
      have hstep := step_depth (N := N) (P := P) (H := H) hr i ip m
      dsimp only
      rw [hsame]
      generalize step N H.toHostOps (realCalls N P H run') i ip m = out at hstep ⊢
      cases out with
      | next ip' m' => exact ih ip' m' (hstep.trans hm)
      | ret v m' => rfl
      | err e m' => rfl

end

theorem executeCode_depth (N : Names) (P : Program F) (H : Host F W) (L : Limits) (d : Nat) :
    KeepsDepth (executeCode N H.toHostOps (realCalls N P H) L d) := by
  induction d with
  | zero => exact fun _ _ => rfl
  | succ d ih =>
    intro code m
    unfold executeCode
    split_ifs
    · rfl
    · dsimp only
      rw [runLoop_depth ih]
      rfl

/-- A bound on the recursion that covers the depth left is as good as any larger one. -/
theorem executeCode_bound (N : Names) (P : Program F) (H : Host F W) (L : Limits) (d k : Nat) (code : List (Instr F))
    (m : Mach F W) (hd : L.maxDepth < m.vm.callDepth + d) :
    executeCode N H.toHostOps (realCalls N P H) L (d + k) code m =
      executeCode N H.toHostOps (realCalls N P H) L d code m := by
  induction d generalizing code m with
  | zero =>
    cases k with
    | zero => rfl
    | succ k =>
      have hcap : m.vm.callDepth + 1 > L.maxDepth := by omega
      rw [Nat.zero_add]
      unfold executeCode
      rw [if_pos hcap]
  | succ d ih =>
    have hagree : AgreeAt (m.vm.callDepth + 1) (executeCode N H.toHostOps (realCalls N P H) L (d + k))
        (executeCode N H.toHostOps (realCalls N P H) L d) := by
      intro code' m' hm'
      exact ih code' m' (by omega)
    rw [Nat.add_right_comm]
    unfold executeCode
    split_ifs
    · rfl
    · dsimp only
      rw [runLoop_congr (executeCode_depth N P H L d) hagree _ _ _ _ _ rfl]

end Metalogos.Machine
