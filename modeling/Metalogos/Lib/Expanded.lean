import Mathlib.Data.List.Basic

/-!
# Searches with a bound on the depth

A search meets nodes, each at some depth, and expands those met below the bound. `Expanded` is what the
meetings of such a search have in common, whatever the order: a node is met from one that is expanded, and
what is expanded has met its neighbours. Every node met is within its depth of the start (`Expanded.within`).
The converse needs that no node is first met at the bound and cut off there: `Expanded.metAll_iff`. A node is
cut off only at the end of a path without repetition that is as long as the bound, so without such detours all
within the bound are met, in any order of the search: `Expanded.metAll_of_noDetour`.
-/
namespace Metalogos.Lib

variable {α : Type} {adj : α → α → Prop} {start : α} {bound : Nat}

/-- At most `n` steps from the start. -/
def Within (adj : α → α → Prop) (start : α) : Nat → α → Prop
  | 0, v => v = start
  | n + 1, v => Within adj start n v ∨ ∃ u, Within adj start n u ∧ adj u v

theorem Within.mono {m n : Nat} (h : m ≤ n) {v : α} (hv : Within adj start m v) : Within adj start n v := by
  induction n with
  | zero =>
    obtain rfl : m = 0 := by omega
    exact hv
  | succ n ih =>
    by_cases hm : m = n + 1
    · subst hm
      exact hv
    · exact .inl (ih (by omega))

/-- A path from the start that comes to no node twice; `p` are the nodes before the last one, the nearest first. -/
inductive SimplePath (adj : α → α → Prop) (start : α) : α → List α → Prop
  | origin : SimplePath adj start start []
  | step {u v : α} {p : List α} : SimplePath adj start u p → adj u v → v ∉ u :: p → SimplePath adj start v (u :: p)

theorem SimplePath.start_mem {v : α} {p : List α} (h : SimplePath adj start v p) : start ∈ v :: p := by
  induction h with
  | origin => exact List.mem_cons_self
  | step _ _ _ ih => exact List.mem_cons_of_mem _ ih

/-- No path leads back to the start. -/
theorem SimplePath.eq_nil {p : List α} (h : SimplePath adj start start p) : p = [] := by
  cases h with
  | origin => rfl
  | step hu _ hout => exact absurd hu.start_mem hout

/-- Every node within the bound has a neighbour nearer to the start at which it cannot be cut off: no path of as
many steps as the bound ends there, unless it comes through the node itself. -/
def NoDetour (adj : α → α → Prop) (start : α) (bound : Nat) : Prop :=
  ∀ v, Within adj start bound v → v ≠ start → ∃ u k, Within adj start k u ∧ ¬ Within adj start k v ∧ adj u v ∧
    ∀ p, SimplePath adj start u p → p.length = bound → v ∈ p

/-- What a search with depths met. -/
structure Expanded (adj : α → α → Prop) (start : α) (bound : Nat) (met : α → Nat → Prop) : Prop where
  origin : met start 0
  parent : ∀ v n, met v n → v = start ∧ n = 0 ∨ ∃ u m, n = m + 1 ∧ m < bound ∧ met u m ∧ adj u v
  closed : ∀ u n v, met u n → n < bound → adj u v → ∃ m, met v m

namespace Expanded

variable {met : α → Nat → Prop}

theorem within (h : Expanded adj start bound met) {n : Nat} : ∀ {v : α}, met v n → Within adj start n v := by
  induction n with
  | zero =>
    intro v hv
    rcases h.parent v 0 hv with ⟨rfl, -⟩ | ⟨u, m, hm, -⟩
    · rfl
    · omega
  | succ n ih =>
    intro v hv
    rcases h.parent v (n + 1) hv with ⟨-, hn⟩ | ⟨u, m, hm, -, hu, hadj⟩
    · omega
    · obtain rfl : m = n := by omega
      exact .inr ⟨u, ih hu, hadj⟩

theorem le_bound (h : Expanded adj start bound met) {v : α} {n : Nat} (hv : met v n) : n ≤ bound := by
  rcases h.parent v n hv with ⟨-, rfl⟩ | ⟨u, m, rfl, hm, -⟩
  · exact Nat.zero_le bound
  · exact hm

/-- Everything within the bound is met exactly when each of it has a neighbour met below the bound. -/
theorem metAll_iff (h : Expanded adj start bound met) :
    (∀ v, Within adj start bound v → ∃ n, met v n) ↔
      ∀ v, Within adj start bound v → v ≠ start → ∃ u n, adj u v ∧ met u n ∧ n < bound := by
  constructor
  · intro hall v hv hne
    obtain ⟨n, hn⟩ := hall v hv
    rcases h.parent v n hn with ⟨heq, -⟩ | ⟨u, m, -, hm, hu, hadj⟩
    · exact absurd heq hne
    · exact ⟨u, m, hadj, hu, hm⟩
  · intro hnear v hv
    by_cases heq : v = start
    · exact ⟨0, heq ▸ h.origin⟩
    · obtain ⟨u, n, hadj, hu, hn⟩ := hnear v hv heq
      exact h.closed u n v hu hn hadj

/-- A node that is met at one depth only is met along a path of as many steps. -/
theorem simplePath (h : Expanded adj start bound met) (hone : ∀ v m n, met v m → met v n → m = n) {n : Nat} :
    ∀ {v : α}, met v n → ∃ p, SimplePath adj start v p ∧ p.length = n ∧ ∀ x ∈ p, ∃ m < n, met x m := by
  induction n with
  | zero =>
    intro v hv
    rcases h.parent v 0 hv with ⟨rfl, -⟩ | ⟨u, m, hm, -⟩
    · exact ⟨[], .origin, rfl, by simp⟩
    · omega
  | succ n ih =>
    intro v hv
    rcases h.parent v (n + 1) hv with ⟨-, hn⟩ | ⟨u, m, hm, -, hu, hadj⟩
    · omega
    · obtain rfl : m = n := by omega
      obtain ⟨p, hp, hlen, hmet⟩ := ih hu
      have hall : ∀ x ∈ u :: p, ∃ k < m + 1, met x k := by
        refine List.forall_mem_cons.2 ⟨⟨m, by omega, hu⟩, fun x hx => ?_⟩
        obtain ⟨k, hk, hxk⟩ := hmet x hx
        exact ⟨k, by omega, hxk⟩
      refine ⟨u :: p, hp.step hadj fun hin => ?_, by rw [List.length_cons, hlen], hall⟩
      -- the nodes of the path are met at smaller depths
      obtain ⟨k, hk, hvk⟩ := hall v hin
      have := hone v k (m + 1) hvk hv
      omega

theorem metAll_of_noDetour (h : Expanded adj start bound met) (hone : ∀ v m n, met v m → met v n → m = n)
    (hnear : NoDetour adj start bound) {k : Nat} :
    ∀ {v : α}, k ≤ bound → Within adj start k v → ∃ n, met v n := by
  induction k with
  | zero =>
    rintro v - rfl
    exact ⟨0, h.origin⟩
  | succ k ih =>
    intro v hk hv
    by_cases heq : v = start
    · exact ⟨0, heq ▸ h.origin⟩
    · obtain ⟨u, j, hu, hout, hadj, hpath⟩ := hnear v (hv.mono hk) heq
      have hj : j ≤ k := by
        by_contra hj
        exact hout (hv.mono (by omega))
      obtain ⟨n, hn⟩ := ih (by omega) (hu.mono hj)
      rcases Nat.lt_or_eq_of_le (h.le_bound hn) with hlt | rfl
      · exact h.closed u n v hn hlt hadj
      · -- met at the bound: along a path that came through `v`
        obtain ⟨p, hp, hlen, hmet⟩ := h.simplePath hone hn
        obtain ⟨m, -, hm⟩ := hmet v (hpath p hp hlen)
        exact ⟨m, hm⟩

end Expanded

end Metalogos.Lib
