import Mathlib.Data.List.Induction

/-!
# Since

The past operator of temporal logic on a finite history, the latest event last: `Since p q l` says that `p`
happened and `q` has not happened after it. One step of a history is `since_concat`. A table whose rows are
numbered in the order of the history decides it by comparing row numbers (`since_iff_row`).
-/
namespace Metalogos.Lib

variable {α β : Type} {p q : α → Prop} {l : List α} {x : α}

def Since (p q : α → Prop) (l : List α) : Prop := ∃ a x b, l = a ++ x :: b ∧ p x ∧ ∀ y ∈ b, ¬ q y

theorem not_since_nil : ¬ Since p q [] := by
  rintro ⟨a, x, b, h, -⟩
  exact absurd h (by simp)

theorem since_concat : Since p q (l ++ [x]) ↔ p x ∨ Since p q l ∧ ¬ q x := by
  constructor
  · rintro ⟨a, y, b, h, hp, hq⟩
    rcases List.eq_nil_or_concat b with rfl | ⟨b, z, rfl⟩
    · obtain ⟨-, hx⟩ := List.append_inj' h rfl
      obtain rfl : x = y := by simpa using hx
      exact .inl hp
    · rw [List.concat_eq_append, ← List.cons_append, ← List.append_assoc] at h
      obtain ⟨rfl, hx⟩ := List.append_inj' h rfl
      obtain rfl : x = z := by simpa using hx
      exact .inr ⟨⟨a, y, b, rfl, hp, fun w hw => hq w (by simp [hw])⟩, hq x (by simp)⟩
  · rintro (hp | ⟨⟨a, y, b, rfl, hp, hq⟩, hx⟩)
    · exact ⟨l, x, [], rfl, hp, by simp⟩
    · refine ⟨a, y, b ++ [x], by simp, hp, fun w hw => ?_⟩
      rcases List.mem_append.1 hw with hw | hw
      · exact hq w hw
      · obtain rfl : w = x := by simpa using hw
        exact hx

/-- Two histories agree as long as each step does. -/
theorem since_congr {p' q' : β → Prop} {l' : List β} {y : β} (h : Since p q l ↔ Since p' q' l')
    (hp : p x ↔ p' y) (hq : q x ↔ q' y) : Since p q (l ++ [x]) ↔ Since p' q' (l' ++ [y]) := by
  rw [since_concat, since_concat, h, hp, hq]

theorem Since.mono {p' : α → Prop} (h : Since p q l) (hp : ∀ x, p x → p' x) : Since p' q l := by
  obtain ⟨a, x, b, hl, hx, hq⟩ := h
  exact ⟨a, x, b, hl, hp x hx, hq⟩

/-! ## Rows -/

/-- The number of the last row with `q`, or 0: `COALESCE(MAX(rowid), 0)`. -/
def lastRow (q : α → Bool) (l : List α) : Nat := (((l.zipIdx 1).filter fun r => q r.1).map (·.2)).max?.getD 0

theorem lastRow_le (q : α → Bool) (l : List α) : lastRow q l ≤ l.length := by
  unfold lastRow
  cases hm : (((l.zipIdx 1).filter fun r => q r.1).map (·.2)).max? with
  | none => exact Nat.zero_le _
  | some m =>
    obtain ⟨r, hr, rfl⟩ := List.mem_map.1 (List.max?_mem hm)
    have hlt := (List.mem_zipIdx (List.mem_filter.1 hr).1).2.1
    show r.2 ≤ _
    omega

theorem lastRow_concat (q : α → Bool) (l : List α) (x : α) :
    lastRow q (l ++ [x]) = if q x then l.length + 1 else lastRow q l := by
  have hzip : (l ++ [x]).zipIdx 1 = l.zipIdx 1 ++ [(x, l.length + 1)] := by
    simp [List.zipIdx_append, Nat.add_comm]
  unfold lastRow
  rw [hzip, List.filter_append]
  split_ifs with hx
  · have hmax : ((((l.zipIdx 1) ++ [(x, l.length + 1)]).filter fun r => q r.1).map (·.2)).max? =
        some (l.length + 1) := by
      refine List.max?_eq_some_iff.2 ⟨by simp [hx], fun k hk => ?_⟩
      obtain ⟨r, hr, rfl⟩ := List.mem_map.1 hk
      rcases List.mem_append.1 (List.mem_filter.1 hr).1 with hr | hr
      · have hlt := (List.mem_zipIdx hr).2.1
        omega
      · obtain rfl : r = (x, l.length + 1) := by simpa using hr
        exact Nat.le_refl _
    rw [← List.filter_append, hmax]
    rfl
  · simp [hx]

/-- The row numbers decide `Since`. -/
theorem since_iff_row (p q : α → Bool) (hpq : ∀ x, p x → ¬ q x) (l : List α) :
    ((l.zipIdx 1).any fun r => p r.1 && decide (lastRow q l < r.2)) = true ↔
      Since (p ·) (q ·) l := by
  induction l using List.reverseRecOn with
  | nil =>
    constructor
    · intro h
      cases h
    · exact fun h => absurd h not_since_nil
  | append_singleton l x ih =>
    have hzip : (l ++ [x]).zipIdx 1 = l.zipIdx 1 ++ [(x, l.length + 1)] := by
      simp [List.zipIdx_append, Nat.add_comm]
    rw [since_concat, ← ih, hzip, List.any_append, lastRow_concat]
    split_ifs with hx
    · have hold : ((l.zipIdx 1).any fun r => p r.1 && decide (l.length + 1 < r.2)) = false := by
        rw [List.any_eq_false]
        intro r hr
        have hlt := (List.mem_zipIdx hr).2.1
        have hnot : ¬ l.length + 1 < r.2 := by omega
        simp [hnot]
      have hnp : p x = false := by
        by_contra hne
        exact hpq x (by simpa using hne) hx
      simp [hold, hnp, hx]
    · have hlt : lastRow q l < l.length + 1 := Nat.lt_succ_of_le (lastRow_le q l)
      simp [hx, hlt, or_comm]

end Metalogos.Lib
