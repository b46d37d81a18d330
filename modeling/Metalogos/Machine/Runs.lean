import Metalogos.Lib.Budget
import Metalogos.Machine.Exec

/-!
# Runs of the body executor

`executeCode` is a loop with an instruction budget around `step`. For proofs about compiled code
the budget is in the way, so a run is first described without it, as a run of the step function in
the sense of `Metalogos.Lib.Budget`: `next` and `fin` are one step and the end of `runLoop`. The
two meet in `executeCode_of_halts`: if the machine halts with `r`, then `execute_code` returns `r`
under every large enough instruction factor.
-/
namespace Metalogos.Machine

open Metalogos.Lang Metalogos.Lib

variable {F W : Type} [FloatModel F]

/-- A configuration: instruction pointer and machine. -/
abbrev Cfg (F W : Type) := Nat × Mach F W

section

variable (N : Names) (H : HostOps F W) (C : Calls F W) (code : List (Instr F))

/-- One step of the loop, if it goes on. -/
def nextCfg (c : Cfg F W) : Option (Cfg F W) :=
  match code[c.1]? with
  | none => none
  | some i =>
    match step N H C i c.1 c.2 with
    | .next ip m => some (ip, m)
    | _ => none

/-- The result of the loop, if it ends here. -/
def finCfg (c : Cfg F W) : Option (Res F W) :=
  match code[c.1]? with
  | none => some (epilogue c.2)
  | some i =>
    match step N H C i c.1 c.2 with
    | .next _ _ => none
    | .ret v m => some (.ok v, m)
    | .err e m => some (.error e, m)

variable {N H C code}

theorem nextCfg_of_step {ip ip' : Nat} {i : Instr F} {m m' : Mach F W} (h : code[ip]? = some i)
    (hs : step N H C i ip m = .next ip' m') : nextCfg N H C code (ip, m) = some (ip', m') := by
  simp only [nextCfg, h, hs]

theorem finCfg_of_err {ip : Nat} {i : Instr F} {m m' : Mach F W} {e : String}
    (h : code[ip]? = some i) (hs : step N H C i ip m = .err e m') :
    finCfg N H C code (ip, m) = some (.error e, m') := by
  simp only [finCfg, h, hs]

theorem finCfg_of_ret {ip : Nat} {i : Instr F} {m m' : Mach F W} {v : Value F}
    (h : code[ip]? = some i) (hs : step N H C i ip m = .ret v m') :
    finCfg N H C code (ip, m) = some (.ok v, m') := by
  simp only [finCfg, h, hs]

theorem runLoop_of_iter {budget n fuel : Nat} {c c' : Cfg F W} {r : Res F W}
    (hi : iter (nextCfg N H C code) n c = some c') (hf : finCfg N H C code c' = some r)
    (hn : n < fuel) : runLoop N H C code budget fuel c.1 c.2 = r := by
  induction n generalizing c fuel with
  | zero =>
    obtain rfl : c = c' := by simpa [iter] using hi
    obtain ⟨fuel, rfl⟩ : ∃ k, fuel = k + 1 := ⟨fuel - 1, by omega⟩
    unfold runLoop
    unfold finCfg at hf
    split at hf <;> simp_all
    split at hf <;> simp_all
  | succ n ih =>
    obtain ⟨fuel, rfl⟩ : ∃ k, fuel = k + 1 := ⟨fuel - 1, by omega⟩
    simp only [iter] at hi
    cases hx : nextCfg N H C code c with
    | none => simp [hx] at hi
    | some c₁ =>
      rw [hx] at hi
      have hrec : runLoop N H C code budget fuel c₁.1 c₁.2 = r := ih (by simpa using hi) (by omega)
      unfold nextCfg at hx
      split at hx
      · simp at hx
      · rename_i i hci
        unfold runLoop
        rw [hci]
        dsimp only
        split at hx
        · rename_i ip m hs
          obtain rfl : c₁ = (ip, m) := by simpa using hx.symm
          simpa [hs] using hrec
        · simp at hx

end

section

variable (N : Names) (H : HostOps F W)
  (mk : (List (Instr F) → Mach F W → Res F W) → Calls F W) (maxDepth d : Nat)
  (code : List (Instr F))

/-- The step of a body at nesting depth `d`, by instruction factor. -/
def bodyNext (lim : Nat) : Cfg F W → Option (Cfg F W) :=
  nextCfg N H (mk (executeCode N H mk ⟨maxDepth, lim⟩ d)) code

def bodyFin (lim : Nat) : Cfg F W → Option (Res F W) :=
  finCfg N H (mk (executeCode N H mk ⟨maxDepth, lim⟩ d)) code

end

/-- The machine as the loop starts: one level deeper, no open registers.
mirrors src/vm.rs:2036,2051 -/
def Mach.enter (m : Mach F W) : Mach F W :=
  { m with vm := { m.vm with callDepth := m.vm.callDepth + 1, registers := [] } }

/-- The machine as the entry guard hands it back.
mirrors src/vm.rs:2053-2054 -/
def Mach.leave (m m' : Mach F W) : Mach F W :=
  { m' with vm := { m'.vm with callDepth := m'.vm.callDepth - 1, registers := m.vm.registers } }

variable {N : Names} {H : HostOps F W}
  {mk : (List (Instr F) → Mach F W → Res F W) → Calls F W} {maxDepth d : Nat}
  {code : List (Instr F)}

theorem executeCode_of_halts {m : Mach F W} {r : Res F W}
    (hd : m.vm.callDepth + 1 ≤ maxDepth)
    (h : Halts (bodyNext N H mk maxDepth d code) (bodyFin N H mk maxDepth d code) (0, m.enter) r) :
    ∃ k, ∀ lim ≥ k, executeCode N H mk ⟨maxDepth, lim⟩ (d + 1) code m = (r.1, m.leave r.2) := by
  obtain ⟨k, hk⟩ := h
  refine ⟨k + 1, fun lim hl => ?_⟩
  obtain ⟨n, hn, c', hi, hf⟩ := hk lim (by omega)
  have hb : n < max code.length 1 * lim := by
    have h1 : 1 ≤ max code.length 1 := Nat.le_max_right _ _
    have h2 : 1 * lim ≤ max code.length 1 * lim := Nat.mul_le_mul_right _ h1
    omega
  have hr : runLoop N H _ code (max code.length 1 * lim) _ 0 m.enter = r :=
    runLoop_of_iter hi hf hb
  have hg : ¬ (m.vm.callDepth + 1 > maxDepth) := by omega
  unfold executeCode
  simp only [hg, if_false]
  rw [show ({ m with vm := { m.vm with callDepth := m.vm.callDepth + 1, registers := [] } } :
    Mach F W) = m.enter from rfl, hr]
  rfl

end Metalogos.Machine
