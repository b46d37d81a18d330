import Mathlib.Data.List.Basic

/-!
# Runs of a machine whose step depends on a budget

A deterministic machine is given by `next : Nat → σ → Option σ`: the step it takes under a budget,
`none` when it is done. The budget is what nested runs may use, so a step is only known once the
budget is large enough, and a run of `n` steps only fits when `n` does.

* `Reaches next s s'`: under every large enough budget the machine gets from `s` to `s'` within it;
* `Halts next fin s r`: under every large enough budget it gets to a state where it is done with
  result `r` (`fin`).

Both compose; nothing has to be said about how large is large enough.
-/
namespace Metalogos.Lib

variable {σ ρ : Type*}

/-- `n` steps of a partial function. -/
def iter (f : σ → Option σ) : Nat → σ → Option σ
  | 0, s => some s
  | n + 1, s => (f s).bind (iter f n)

theorem iter_add (f : σ → Option σ) (m n : Nat) (s : σ) :
    iter f (m + n) s = (iter f m s).bind (iter f n) := by
  induction m generalizing s with
  | zero => simp [iter]
  | succ m ih =>
    rw [Nat.succ_add]
    simp only [iter]
    cases h : f s with
    | none => simp
    | some s' => simp [ih]

/-- From `s` to `s'` under every large enough budget, in at most that many steps. -/
def Reaches (next : Nat → σ → Option σ) (s s' : σ) : Prop :=
  ∃ k, ∀ lim ≥ k, ∃ n ≤ k, iter (next lim) n s = some s'

/-- Done with result `r`, under every large enough budget. -/
def Halts (next : Nat → σ → Option σ) (fin : Nat → σ → Option ρ) (s : σ) (r : ρ) : Prop :=
  ∃ k, ∀ lim ≥ k, ∃ n ≤ k, ∃ s', iter (next lim) n s = some s' ∧ fin lim s' = some r

variable {next : Nat → σ → Option σ} {fin : Nat → σ → Option ρ} {s s' s'' : σ} {r : ρ}

namespace Reaches

theorem refl (s : σ) : Reaches next s s := ⟨0, fun _ _ => ⟨0, Nat.le_refl 0, rfl⟩⟩

/-- A step that is the same under every large enough budget. -/
theorem single (h : ∃ k, ∀ lim ≥ k, next lim s = some s') : Reaches next s s' := by
  obtain ⟨k, hk⟩ := h
  refine ⟨k + 1, fun lim hl => ⟨1, by omega, ?_⟩⟩
  simp [iter, hk lim (by omega)]

theorem trans (h : Reaches next s s') (h' : Reaches next s' s'') : Reaches next s s'' := by
  obtain ⟨k, hk⟩ := h
  obtain ⟨k', hk'⟩ := h'
  refine ⟨k + k', fun lim hl => ?_⟩
  obtain ⟨n, hn, e⟩ := hk lim (by omega)
  obtain ⟨n', hn', e'⟩ := hk' lim (by omega)
  exact ⟨n + n', by omega, by rw [iter_add, e]; exact e'⟩

theorem halts (h : Reaches next s s') (h' : Halts next fin s' r) : Halts next fin s r := by
  obtain ⟨k, hk⟩ := h
  obtain ⟨k', hk'⟩ := h'
  refine ⟨k + k', fun lim hl => ?_⟩
  obtain ⟨n, hn, e⟩ := hk lim (by omega)
  obtain ⟨n', hn', s₂, e', hf⟩ := hk' lim (by omega)
  exact ⟨n + n', by omega, s₂, by rw [iter_add, e]; exact e', hf⟩

end Reaches

theorem Halts.now (h : ∃ k, ∀ lim ≥ k, fin lim s = some r) : Halts next fin s r := by
  obtain ⟨k, hk⟩ := h
  exact ⟨k, fun lim hl => ⟨0, by omega, s, rfl, hk lim hl⟩⟩

end Metalogos.Lib
