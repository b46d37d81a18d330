import Metalogos.Lib.Text

/-!
# The lines around a place

The first occurrence of a text (`findStr`), and the lines of a text that is cut at a place: the ended lines in front
of it stay as they are (`lines_ended`), and what stands in front of a word on its own line stands in front of that
line (`lines_word`).
-/
namespace Metalogos.Lib

/-- `str::find`: what stands before the first occurrence, and the text from there on. -/
def findStr (pat : List Char) : List Char → Option (List Char × List Char)
  | [] => if pat = [] then some ([], []) else none
  | c :: text =>
    if pat <+: c :: text then some ([], c :: text)
    else (findStr pat text).map fun found => (c :: found.1, found.2)

section find

variable {pat text before rest : List Char}

theorem findStr_some (h : findStr pat text = some (before, rest)) : text = before ++ rest ∧ pat <+: rest := by
  induction text generalizing before with
  | nil =>
    rw [findStr] at h
    split_ifs at h with hp
    obtain ⟨rfl, rfl⟩ := Prod.mk.inj (Option.some.inj h)
    exact ⟨rfl, hp ▸ List.prefix_rfl⟩
  | cons c text ih =>
    rw [findStr] at h
    split_ifs at h with hpre
    · obtain ⟨rfl, rfl⟩ := Prod.mk.inj (Option.some.inj h)
      exact ⟨rfl, hpre⟩
    · obtain ⟨⟨before', rest'⟩, hfound, hpair⟩ := Option.map_eq_some_iff.1 h
      obtain ⟨rfl, rfl⟩ := Prod.mk.inj hpair
      obtain ⟨htext, hprefix⟩ := ih hfound
      exact ⟨by rw [htext, List.cons_append], hprefix⟩

theorem findStr_none (h : findStr pat text = none) : ¬ pat <:+: text := by
  induction text with
  | nil =>
    rw [findStr] at h
    split_ifs at h with hp
    intro hin
    exact hp (List.infix_nil.1 hin)
  | cons c text ih =>
    rw [findStr] at h
    split_ifs at h with hpre
    intro hin
    rcases List.infix_cons_iff.1 hin with hhere | hlater
    · exact hpre hhere
    · exact ih (Option.map_eq_none_iff.1 h) hlater

theorem findStr_isSome (h : pat <:+: text) : ∃ before rest, findStr pat text = some (before, rest) := by
  cases hfound : findStr pat text with
  | none => exact absurd h (findStr_none hfound)
  | some found => exact ⟨found.1, found.2, rfl⟩

end find

/-! ## Lines at a cut -/

theorem splitLines_ne_nil (s : List Char) : splitLines s ≠ [] := by
  cases s with
  | nil => simp [splitLines]
  | cons c s =>
    rw [splitLines]
    split_ifs
    · simp
    · split <;> simp

theorem lines_cons {l : List Char} (h : '\n' ∉ l) (rest : List Char) :
    lines (l ++ '\n' :: rest) = stripCr l :: lines rest := by
  have hsplit : splitLines (l ++ '\n' :: rest) = l :: splitLines rest := splitLines_terminated rest h
  obtain ⟨ls, last, hrest⟩ : ∃ ls last, splitLines rest = ls ++ [last] := by
    refine ⟨(splitLines rest).dropLast, (splitLines rest).getLast (splitLines_ne_nil rest), ?_⟩
    exact (List.dropLast_append_getLast _).symm
  rw [hrest, ← List.cons_append] at hsplit
  rw [lines_eq hsplit, lines_eq hrest, List.map_cons, List.cons_append]

theorem lines_crlf_cons {l : List Char} (h : '\n' ∉ l) (rest : List Char) :
    lines (l ++ '\r' :: '\n' :: rest) = l :: lines rest := by
  have hl : '\n' ∉ l ++ ['\r'] := by simpa using h
  have hcons := lines_cons hl rest
  rw [List.append_assoc, List.singleton_append] at hcons
  rw [hcons]
  simp [stripCr]

theorem lines_last {l : List Char} (h : '\n' ∉ l) (hne : l ≠ []) : lines l = [l] := by
  have hsplit : splitLines l = [] ++ [l] := splitLines_last h
  rw [lines_eq hsplit, if_neg hne]
  rfl

/-- Ended lines, one after the other. -/
def ended (ls : List (List Char)) : List Char := ls.flatMap (· ++ ['\n'])

theorem lines_ended {ls : List (List Char)} (h : ∀ l ∈ ls, '\n' ∉ l) (rest : List Char) :
    lines (ended ls ++ rest) = ls.map stripCr ++ lines rest := by
  induction ls with
  | nil => rfl
  | cons l ls ih =>
    have hcut : ended (l :: ls) ++ rest = l ++ '\n' :: (ended ls ++ rest) := by simp [ended]
    rw [hcut, lines_cons (h l List.mem_cons_self), ih fun l hl => h l (List.mem_cons_of_mem _ hl)]
    rfl

/-- A text is ended lines and the line that goes on. -/
theorem cut_at_line (p : List Char) :
    ∃ ls q, (∀ l ∈ ls, '\n' ∉ l) ∧ '\n' ∉ q ∧ p = ended ls ++ q := by
  induction p with
  | nil => exact ⟨[], [], by simp, by simp, rfl⟩
  | cons c p ih =>
    obtain ⟨ls, q, hls, hq, rfl⟩ := ih
    by_cases hc : c = '\n'
    · subst hc
      exact ⟨[] :: ls, q, by simpa using hls, hq, rfl⟩
    · cases ls with
      | nil => exact ⟨[], c :: q, by simp, by simp [Ne.symm hc, hq], rfl⟩
      | cons l ls =>
        refine ⟨(c :: l) :: ls, q, ?_, hq, rfl⟩
        intro m hm
        rcases List.mem_cons.1 hm with rfl | hm
        · simp [Ne.symm hc, hls l List.mem_cons_self]
        · exact hls m (List.mem_cons_of_mem _ hm)

/-- At the start of a line. -/
def AtStart (p : List Char) : Prop := p = [] ∨ p.getLast? = some '\n'

instance (p : List Char) : Decidable (AtStart p) := inferInstanceAs (Decidable (_ ∨ _))

theorem atStart_iff {ls : List (List Char)} {q : List Char} (hq : '\n' ∉ q) :
    AtStart (ended ls ++ q) ↔ q = [] := by
  constructor
  · intro h
    by_contra hne
    rcases h with h | h
    · exact hne (List.append_eq_nil_iff.1 h).2
    · rw [List.getLast?_append_of_ne_nil _ hne] at h
      exact hq (List.mem_of_getLast? h)
  · rintro rfl
    rw [List.append_nil]
    rcases List.eq_nil_or_concat ls with rfl | ⟨ls, l, rfl⟩
    · exact .inl rfl
    · exact .inr (by simp [ended])

theorem ended_of_atStart {p : List Char} (h : AtStart p) : ∃ ls, (∀ l ∈ ls, '\n' ∉ l) ∧ p = ended ls := by
  obtain ⟨ls, q, hls, hq, rfl⟩ := cut_at_line p
  have hnil : q = [] := (atStart_iff hq).1 h
  exact ⟨ls, hls, by rw [hnil, List.append_nil]⟩

theorem lines_append {p : List Char} (h : AtStart p) (s : List Char) : lines (p ++ s) = lines p ++ lines s := by
  obtain ⟨ls, hls, rfl⟩ := ended_of_atStart h
  have hp := lines_ended hls []
  rw [List.append_nil] at hp
  rw [lines_ended hls, hp, List.append_assoc]
  rfl

theorem stripCr_append {w t : List Char} (h : w.getLast? ≠ some '\r') : stripCr (w ++ t) = w ++ stripCr t := by
  cases t with
  | nil => simp [stripCr, h]
  | cons c t =>
    unfold stripCr
    rw [List.getLast?_append_of_ne_nil _ (List.cons_ne_nil c t)]
    split_ifs
    · rw [List.dropLast_append_of_ne_nil (List.cons_ne_nil c t)]
    · rfl

theorem not_mem_stripCr {l : List Char} (h : '\n' ∉ l) : '\n' ∉ stripCr l := by
  unfold stripCr
  split_ifs
  · exact fun hin => h ((List.dropLast_sublist l).subset hin)
  · exact h

/-- A word on its line, and what stands in front of it there. -/
theorem lines_word {w : List Char} (hne : w ≠ []) (hn : '\n' ∉ w) (hcr : w.getLast? ≠ some '\r') (s : List Char) :
    ∃ t ls, ∀ q, '\n' ∉ q → lines (q ++ (w ++ s)) = (q ++ w ++ t) :: ls := by
  have hgets : ∀ q : List Char, (q ++ w).getLast? ≠ some '\r' := fun q => by
    rwa [List.getLast?_append_of_ne_nil _ hne]
  by_cases hs : '\n' ∈ s
  · obtain ⟨t, rest, rfl, ht⟩ := List.eq_append_cons_of_mem hs
    refine ⟨stripCr t, lines rest, fun q hq => ?_⟩
    have hline : '\n' ∉ q ++ w ++ t := by simp [hq, hn, ht]
    have hcut : q ++ (w ++ (t ++ '\n' :: rest)) = q ++ w ++ t ++ '\n' :: rest := by simp
    rw [hcut, lines_cons hline, stripCr_append (hgets q)]
  · refine ⟨s, [], fun q hq => ?_⟩
    rw [← List.append_assoc]
    refine lines_last ?_ (by simp [hne])
    simp [hq, hn, hs]

theorem not_mem_lines {s l : List Char} (h : l ∈ lines s) : '\n' ∉ l := by
  obtain ⟨ls, q, hls, hq, rfl⟩ := cut_at_line s
  rw [lines_ended hls] at h
  rcases List.mem_append.1 h with h | h
  · obtain ⟨m, hm, rfl⟩ := List.mem_map.1 h
    exact not_mem_stripCr (hls m hm)
  · by_cases hne : q = []
    · subst hne
      cases h
    · rw [lines_last hq hne, List.mem_singleton] at h
      rwa [h]

end Metalogos.Lib
