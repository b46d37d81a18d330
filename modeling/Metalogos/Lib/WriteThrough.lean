import Mathlib.Logic.Function.Basic

/-!
# Write-through caches

A cache and what backs it, written by calls in two atomic steps: a call puts its value in the cache and owes
the backing a write of the same key, and pays it later. Other calls may come between, so two writes of one
key may reach the two in opposite orders. A key on which nobody owes a write agrees as long as every payment
`Settles`: somebody else still owes a write of the key, or what is paid is what the cache holds
(`Coherent.pay`, which needs no less by `pay_coherent`).
-/
namespace Metalogos.Lib

variable {ι κ α : Type} [DecidableEq ι] [DecidableEq κ]

/-- `due i` is the key that call `i` owes the backing, and what it makes of the entry it finds. -/
structure Cached (ι κ α : Type) where
  cache : κ → Option α
  backing : κ → Option α
  due : ι → Option (κ × (Option α → Option α))

namespace Cached

/-- Call `i` writes the cache and owes `w`. -/
def put (s : Cached ι κ α) (i : ι) (k : κ) (v : Option α) (w : Option α → Option α) : Cached ι κ α :=
  { s with cache := Function.update s.cache k v, due := Function.update s.due i (some (k, w)) }

/-- Call `i` pays `w`. -/
def pay (s : Cached ι κ α) (i : ι) (k : κ) (w : Option α → Option α) : Cached ι κ α :=
  { s with backing := Function.update s.backing k (w (s.backing k)), due := Function.update s.due i none }

/-- A call other than `i` owes a write of `k`. -/
def OthersOwe (s : Cached ι κ α) (i : ι) (k : κ) : Prop := ∃ j, j ≠ i ∧ ∃ w, s.due j = some (k, w)

/-- Call `i` may pay `w`. -/
def Settles (s : Cached ι κ α) (i : ι) (k : κ) (w : Option α → Option α) : Prop :=
  s.OthersOwe i k ∨ w (s.backing k) = s.cache k

/-- A key on which nobody owes a write is the same on both sides. -/
def Coherent (s : Cached ι κ α) : Prop := ∀ k, s.backing k = s.cache k ∨ ∃ i w, s.due i = some (k, w)

variable {s : Cached ι κ α} {i : ι} {k : κ} {v : Option α} {w : Option α → Option α}

theorem Coherent.put (h : s.Coherent) (hi : s.due i = none) : (s.put i k v w).Coherent := by
  intro k'
  by_cases hk : k' = k
  · exact .inr ⟨i, w, by simp [Cached.put, hk]⟩
  · rcases h k' with h | ⟨j, w', hj⟩
    · exact .inl (by simpa [Cached.put, hk] using h)
    · have hji : j ≠ i := by
        rintro rfl
        rw [hi] at hj
        cases hj
      exact .inr ⟨j, w', by simpa [Cached.put, hji] using hj⟩

theorem Coherent.pay (h : s.Coherent) (hi : s.due i = some (k, w)) (hset : s.Settles i k w) :
    (s.pay i k w).Coherent := by
  intro k'
  by_cases hk : k' = k
  · subst hk
    rcases hset with ⟨j, hji, w', hj⟩ | hsame
    · exact .inr ⟨j, w', by simpa [Cached.pay, hji] using hj⟩
    · exact .inl (by simpa [Cached.pay] using hsame)
  · rcases h k' with h | ⟨j, w', hj⟩
    · exact .inl (by simpa [Cached.pay, hk] using h)
    · have hji : j ≠ i := by
        rintro rfl
        rw [hi] at hj
        cases hj
        exact hk rfl
      exact .inr ⟨j, w', by simpa [Cached.pay, hji] using hj⟩

/-- A payment that does not settle leaves its key apart. -/
theorem pay_coherent (h : (s.pay i k w).Coherent) : s.Settles i k w := by
  rcases h k with h | ⟨j, w', hj⟩
  · exact .inr (by simpa [Cached.pay] using h)
  · by_cases hji : j = i
    · simp [Cached.pay, hji] at hj
    · exact .inl ⟨j, hji, w', by simpa [Cached.pay, hji] using hj⟩

omit [DecidableEq ι] [DecidableEq κ] in
/-- When nobody owes anything, both sides are the same. -/
theorem Coherent.settled (h : s.Coherent) (hdue : ∀ i, s.due i = none) (k : κ) : s.backing k = s.cache k := by
  rcases h k with h | ⟨i, w, hi⟩
  · exact h
  · rw [hdue i] at hi
    cases hi

end Cached

end Metalogos.Lib
