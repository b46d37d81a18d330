import Mathlib.Data.List.Basic

/-!
# Searching for a pattern again and again

`tailsAfter pat t`: the texts behind the matches of `pat` in `t` that a search from left to right finds when it goes
on behind each match. A pattern that cannot overlap itself is found at every place it stands (`mem_tailsAfter`).
-/
namespace Metalogos.Lib

variable {α : Type} [DecidableEq α]

/-- The next `skip` symbols belong to the last match. -/
def tailsFrom (pat : List α) : Nat → List α → List (List α)
  | _, [] => []
  | skip + 1, _ :: t => tailsFrom pat skip t
  | 0, c :: t =>
    if pat <+: c :: t then (c :: t).drop pat.length :: tailsFrom pat (pat.length - 1) t else tailsFrom pat 0 t

def tailsAfter (pat t : List α) : List (List α) := tailsFrom pat 0 t

/-- No part at the end of the pattern is a part at its start. -/
def Borderless (pat : List α) : Prop := ∀ d < pat.length, 0 < d → pat.drop d ≠ pat.take (pat.length - d)

instance (pat : List α) : Decidable (Borderless pat) := inferInstanceAs (Decidable (∀ d < pat.length, _))

omit [DecidableEq α] in
/-- A second match starts behind the first one. -/
theorem Borderless.behind {pat rest pre tail : List α} (h : Borderless pat) (hpre : 0 < pre.length)
    (heq : pat ++ rest = pre ++ pat ++ tail) : pat.length ≤ pre.length := by
  by_contra hlt
  have hd : pre.length < pat.length := by omega
  refine h pre.length hd hpre ?_
  have hdrop := congrArg (List.drop pre.length) heq
  rw [List.append_assoc, List.drop_left, List.drop_append_of_le_length (by omega)] at hdrop
  have htake := congrArg (List.take (pat.length - pre.length)) hdrop
  have hrest : (pat.drop pre.length).length = pat.length - pre.length := List.length_drop
  rw [List.take_append_of_le_length (by omega), List.take_append_of_le_length (by omega)] at htake
  rw [← htake, List.take_of_length_le (by omega)]

theorem mem_tailsFrom {pat : List α} (hne : pat ≠ []) (h : Borderless pat) {tail : List α} :
    ∀ (t : List α) (skip : Nat), (∀ pre tail, t = pre ++ pat ++ tail → skip ≤ pre.length) →
      (tail ∈ tailsFrom pat skip t ↔ ∃ pre, t = pre ++ pat ++ tail)
  | [], skip, _ => by
    constructor
    · intro hmem
      cases skip <;> cases hmem
    · rintro ⟨pre, heq⟩
      have hnil : pat = [] := by
        have := congrArg List.length heq
        simp only [List.length_nil, List.length_append] at this
        exact List.length_eq_zero_iff.1 (by omega)
      exact absurd hnil hne
  | c :: t, skip + 1, hskip => by
    have hskip' : ∀ pre tail, t = pre ++ pat ++ tail → skip ≤ pre.length := by
      intro pre tail heq
      simpa using hskip (c :: pre) tail (by rw [heq]; rfl)
    rw [tailsFrom, mem_tailsFrom hne h t skip hskip']
    constructor
    · rintro ⟨pre, heq⟩
      exact ⟨c :: pre, by rw [heq]; rfl⟩
    · rintro ⟨pre, heq⟩
      have hlen := hskip pre tail heq
      cases pre with
      | nil => simp at hlen
      | cons d pre => exact ⟨pre, (List.cons.inj heq).2⟩
  | c :: t, 0, _ => by
    unfold tailsFrom
    split_ifs with hmatch
    · obtain ⟨rest, hrest⟩ := hmatch
      have hbehind : ∀ pre tail, t = pre ++ pat ++ tail → pat.length - 1 ≤ pre.length := by
        intro pre tail heq
        have hle : pat.length ≤ (c :: pre).length :=
          h.behind (by simp) (show pat ++ rest = (c :: pre) ++ pat ++ tail by rw [hrest, heq]; rfl)
        simp only [List.length_cons] at hle
        omega
      rw [List.mem_cons, mem_tailsFrom hne h t _ hbehind]
      have hdrop : (c :: t).drop pat.length = rest := by rw [← hrest, List.drop_left]
      rw [hdrop]
      constructor
      · rintro (rfl | ⟨pre, heq⟩)
        · exact ⟨[], hrest.symm⟩
        · exact ⟨c :: pre, by rw [heq]; rfl⟩
      · rintro ⟨pre, heq⟩
        cases pre with
        | nil =>
          rw [← hrest] at heq
          exact .inl (List.append_cancel_left heq).symm
        | cons d pre => exact .inr ⟨pre, (List.cons.inj heq).2⟩
    · rw [mem_tailsFrom hne h t 0 fun _ _ _ => Nat.zero_le _]
      constructor
      · rintro ⟨pre, heq⟩
        exact ⟨c :: pre, by rw [heq]; rfl⟩
      · rintro ⟨pre, heq⟩
        cases pre with
        | nil => exact absurd ⟨tail, heq.symm⟩ hmatch
        | cons d pre => exact ⟨pre, (List.cons.inj heq).2⟩

theorem mem_tailsAfter {pat t tail : List α} (hne : pat ≠ []) (h : Borderless pat) :
    tail ∈ tailsAfter pat t ↔ ∃ pre, t = pre ++ pat ++ tail :=
  mem_tailsFrom hne h t 0 fun _ _ _ => Nat.zero_le _

end Metalogos.Lib
