import Mathlib.Data.List.Basic

/-!
# Fragments of a code vector

`CodeAt code pc frag`: the list `frag` stands in `code` from position `pc` on. The simp lemmas cut
a fragment at its appends and conses, so a hypothesis about a compiled fragment becomes one
`code[pc]? = some i` per instruction.
-/
namespace Metalogos.Lib

variable {α : Type*}

def CodeAt (code : List α) (pc : Nat) (frag : List α) : Prop :=
  ∀ i, i < frag.length → code[pc + i]? = frag[i]?

namespace CodeAt

variable {code a b : List α} {pc : Nat} {x : α}

@[simp] theorem nil : CodeAt code pc [] := by
  intro i h
  simp at h

@[simp] theorem cons_iff : CodeAt code pc (x :: a) ↔ code[pc]? = some x ∧ CodeAt code (pc + 1) a := by
  constructor
  · intro h
    refine ⟨by simpa using h 0 (by simp), ?_⟩
    intro i hi
    have := h (i + 1) (by simpa using hi)
    simpa [Nat.add_assoc, Nat.add_comm 1 i] using this
  · rintro ⟨h0, h⟩ i hi
    cases i with
    | zero => simpa using h0
    | succ i =>
      have := h i (by simpa using hi)
      simpa [Nat.add_assoc, Nat.add_comm 1 i] using this

@[simp] theorem append_iff :
    CodeAt code pc (a ++ b) ↔ CodeAt code pc a ∧ CodeAt code (pc + a.length) b := by
  induction a generalizing pc with
  | nil => simp
  | cons x a ih =>
    simp only [List.cons_append, cons_iff, ih, List.length_cons, and_assoc]
    rw [show pc + 1 + a.length = pc + (a.length + 1) by omega]

theorem self : CodeAt code 0 code := by
  intro i _
  simp

end CodeAt

end Metalogos.Lib
