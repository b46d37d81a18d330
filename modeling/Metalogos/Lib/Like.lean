import Mathlib.Data.List.Infix

/-!
# The pattern operator `LIKE`

`LIKE` of SQLite on character lists: `%` stands for any text, `_` for any character, and a letter of ASCII for
itself in either case. A pattern `%q%` where `q` has none of the three finds `q` in a text and nothing else
(`like_contains`).
-/
namespace Metalogos.Lib

/-- The code of a character, of the lower-case letter for a letter of ASCII. -/
def foldCase (c : Char) : Nat := if 65 ≤ c.toNat ∧ c.toNat ≤ 90 then c.toNat + 32 else c.toNat

def like : List Char → List Char → Bool
  | [], s => s.isEmpty
  | c :: p, s =>
    if c = '%' then s.tails.any (like p)
    else
      match s with
      | [] => false
      | d :: s => (c = '_' || foldCase c = foldCase d) && like p s

theorem like_cons_cons {c d : Char} {p s : List Char} : like (c :: p) (d :: s) =
    if c = '%' then (d :: s).tails.any (like p) else (c = '_' || foldCase c = foldCase d) && like p s := rfl

/-- Neither a wildcard nor a letter of ASCII. -/
structure Literal (c : Char) : Prop where
  percent : c ≠ '%'
  underscore : c ≠ '_'
  upper : ¬ (65 ≤ c.toNat ∧ c.toNat ≤ 90)
  lower : ¬ (97 ≤ c.toNat ∧ c.toNat ≤ 122)

theorem Literal.foldCase_eq {c d : Char} (h : Literal c) : foldCase c = foldCase d ↔ c = d := by
  constructor
  · intro hfold
    have hu := h.upper
    have hl := h.lower
    unfold foldCase at hfold
    rw [if_neg hu] at hfold
    split at hfold
    · omega
    · exact Char.toNat_inj.1 hfold
  · rintro rfl
    rfl

theorem like_percent {p s : List Char} : like ('%' :: p) s = true ↔ ∃ t, t <:+ s ∧ like p t = true := by
  change s.tails.any (like p) = true ↔ _
  simp only [List.any_eq_true, List.mem_tails]

theorem like_literal {q s : List Char} (h : ∀ c ∈ q, Literal c) : like (q ++ ['%']) s = true ↔ q <+: s := by
  induction q generalizing s with
  | nil =>
    rw [List.nil_append, like_percent]
    simp only [List.nil_prefix, iff_true]
    exact ⟨[], List.nil_suffix, rfl⟩
  | cons c q ih =>
    have hc := h c List.mem_cons_self
    cases s with
    | nil => simp [like, hc.percent]
    | cons d s =>
      rw [List.cons_append, like_cons_cons, if_neg hc.percent]
      simp only [Bool.and_eq_true, Bool.or_eq_true, decide_eq_true_eq, hc.underscore, false_or, hc.foldCase_eq,
        ih fun x hx => h x (List.mem_cons_of_mem c hx)]
      rw [List.cons_prefix_cons]

theorem like_contains {q s : List Char} (h : ∀ c ∈ q, Literal c) :
    like ('%' :: (q ++ ['%'])) s = true ↔ q <:+: s := by
  rw [like_percent, List.infix_iff_prefix_suffix]
  constructor
  · rintro ⟨t, ht, hq⟩
    exact ⟨t, (like_literal h).1 hq, ht⟩
  · rintro ⟨t, hq, ht⟩
    exact ⟨t, ht, (like_literal h).2 hq⟩

end Metalogos.Lib
