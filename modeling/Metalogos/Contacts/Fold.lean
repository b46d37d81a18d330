import Metalogos.Contacts.VCard
import Metalogos.Lib.ByteCut
import Metalogos.Lib.Lines

/-!
# Folding a vCard line

`fold_vcard_line` cuts a line after 75 bytes and then after every 74. The first cut slices the text and stops the
program inside of a character; the later ones go over `from_utf8(..).unwrap_or("")`, so that a piece with a cut
character at one of its ends is left out.

`fold_lossless_iff`: a line comes back exactly when every cut lies between two characters and the line does not start
as a continuation does.
-/
namespace Metalogos.Contacts

open Metalogos.Lib

def continuation : List Char := ['\r', '\n', ' ']

/-- The pieces from an offset on.
mirrors src/builtins/contacts.rs:1033-1039 -/
def laterPieces (line : List Char) (pos : Nat) : List (List Char) :=
  if pos < byteLen line then
    let chunkEnd := min (pos + 74) (byteLen line)
    (sliceBytes line pos chunkEnd).getD [] :: laterPieces line chunkEnd
  else []
termination_by byteLen line - pos

/-- `none` where the first slice stops the program.
mirrors src/builtins/contacts.rs:1018-1042 -/
def foldVcardLine (line : List Char) : Option (List Char) :=
  if byteLen line ≤ 75 then some line
  else do
    let first ← sliceBytes line 0 75
    some (first ++ (laterPieces line 75).flatMap fun piece => continuation ++ piece)

/-- The folding completes with physical lines of 75 bytes at most, and unfolds to the line. -/
def Lossless (line : List Char) : Prop :=
  ∃ out, foldVcardLine line = some out ∧ (∀ l ∈ lines out, byteLen l ≤ 75) ∧ unfoldVcardLines out = line

/-- Every cut lies between two characters. -/
def Aligned (line : List Char) (pos : Nat) : Prop := ∀ k, pos + 74 * k < byteLen line → Boundary (pos + 74 * k) line

/-! ## The pieces -/

section

variable {line : List Char} {pos : Nat}

theorem aligned_step (hlt : pos < byteLen line) :
    Aligned line pos ↔ Boundary pos line ∧ Aligned line (min (pos + 74) (byteLen line)) := by
  constructor
  · intro h
    refine ⟨h 0 hlt, fun k hk => ?_⟩
    have hmin : min (pos + 74) (byteLen line) = pos + 74 := by omega
    rw [hmin] at hk ⊢
    have hnext := h (k + 1) (by omega)
    have heq : pos + 74 * (k + 1) = pos + 74 + 74 * k := by omega
    rwa [heq] at hnext
  · intro ⟨hb, h⟩ k hk
    cases k with
    | zero => exact hb
    | succ k =>
      have hmin : min (pos + 74) (byteLen line) = pos + 74 := by omega
      rw [hmin] at h
      have heq : pos + 74 * (k + 1) = pos + 74 + 74 * k := by omega
      rw [heq] at hk ⊢
      exact h k hk

/-- No piece is longer than the cuts allow, and none is as long where a cut falls inside of a character. -/
theorem byteLen_slice {e : Nat} (hlt : pos < e) :
    byteLen ((sliceBytes line pos e).getD []) ≤ e - pos ∧
      (byteLen ((sliceBytes line pos e).getD []) = e - pos ↔ Boundary pos line ∧ Boundary e line) := by
  cases hs : sliceBytes line pos e with
  | none =>
    refine ⟨Nat.zero_le _, fun h => ?_, fun h => ?_⟩
    · have hzero : 0 = e - pos := h
      omega
    · obtain ⟨m, hm⟩ := exists_slice h.1 h.2 (Nat.le_of_lt hlt)
      rw [hm] at hs
      cases hs
  | some m =>
    obtain ⟨a, b, -, -, hm⟩ := sliceBytes_iff.1 hs
    exact ⟨Nat.le_of_eq hm, fun _ => boundary_of_slice hs (Nat.le_of_lt hlt), fun _ => hm⟩

theorem boundary_min {n : Nat} (h : Aligned line (min n (byteLen line))) : Boundary (min n (byteLen line)) line := by
  by_cases hlt : n < byteLen line
  · exact h 0 (by omega)
  · have hmin : min n (byteLen line) = byteLen line := by omega
    rw [hmin]
    exact boundary_end

theorem laterPieces_cons (hlt : pos < byteLen line) : laterPieces line pos =
    (sliceBytes line pos (min (pos + 74) (byteLen line))).getD [] ::
      laterPieces line (min (pos + 74) (byteLen line)) := by
  rw [laterPieces, if_pos hlt]

/-- Together the pieces are as long as the rest exactly where the cuts are aligned. -/
theorem byteLen_pieces (hle : pos ≤ byteLen line) :
    byteLen (laterPieces line pos).flatten ≤ byteLen line - pos ∧
      (byteLen (laterPieces line pos).flatten = byteLen line - pos ↔ Aligned line pos) := by
  induction pos using laterPieces.induct line with
  | case1 pos hlt chunkEnd ih =>
    obtain ⟨hrest, hrestIff⟩ := ih (Nat.min_le_right _ _)
    have hend : pos < chunkEnd := by omega
    have hendLe : chunkEnd ≤ byteLen line := Nat.min_le_right _ _
    have halign : Aligned line pos ↔ Boundary pos line ∧ Aligned line chunkEnd := aligned_step hlt
    have hends : Aligned line chunkEnd → Boundary chunkEnd line := boundary_min
    obtain ⟨hpiece, hpieceIff⟩ := @byteLen_slice line pos chunkEnd hend
    rw [laterPieces_cons hlt, halign, List.flatten_cons, byteLen_append]
    change byteLen ((sliceBytes line pos chunkEnd).getD []) + byteLen (laterPieces line chunkEnd).flatten ≤ _ ∧
      (byteLen ((sliceBytes line pos chunkEnd).getD []) + byteLen (laterPieces line chunkEnd).flatten = _ ↔ _)
    refine ⟨by omega, fun h => ?_, fun h => ?_⟩
    · exact ⟨(hpieceIff.1 (by omega)).1, hrestIff.1 (by omega)⟩
    · have hp := hpieceIff.2 ⟨h.1, hends h.2⟩
      have hr := hrestIff.2 h.2
      omega
  | case2 pos hnlt =>
    rw [laterPieces, if_neg hnlt]
    refine ⟨Nat.zero_le _, fun _ k hk => ?_, fun _ => ?_⟩
    · omega
    · simp
      omega

/-- Aligned cuts lose nothing. -/
theorem flatten_pieces : ∀ a rest : List Char, Aligned line pos → line = a ++ rest → byteLen a = pos →
    (laterPieces line pos).flatten = rest := by
  induction pos using laterPieces.induct line with
  | case1 pos hlt chunkEnd ih =>
    intro a rest h hline ha
    have halign := ((aligned_step hlt).1 h).2
    have hpos : Boundary pos line := h 0 hlt
    obtain ⟨m, hm⟩ := exists_slice hpos (boundary_min halign) (by omega)
    obtain ⟨a', b, hs, ha', hmlen⟩ := sliceBytes_iff.1 hm
    have hcut : a = a' ∧ rest = m ++ b := by
      have h1 : splitBytes pos line = some (a, rest) := splitBytes_iff.2 ⟨hline, ha⟩
      have h2 : splitBytes pos line = some (a', m ++ b) := splitBytes_iff.2 ⟨hs, ha'⟩
      rw [h1] at h2
      cases h2
      exact ⟨rfl, rfl⟩
    obtain ⟨rfl, rfl⟩ := hcut
    have hrest := ih (a ++ m) b halign (by rw [hline, List.append_assoc]) (by rw [byteLen_append]; omega)
    rw [laterPieces_cons hlt, List.flatten_cons, hm, hrest]
    rfl
  | case2 pos hnlt =>
    intro a rest h hline ha
    rw [laterPieces, if_neg hnlt]
    have hlen := congrArg byteLen hline
    rw [byteLen_append] at hlen
    exact (byteLen_eq_zero (by omega)).symm

theorem mem_pieces {piece : List Char} (h : piece ∈ laterPieces line pos) :
    byteLen piece ≤ 74 ∧ ∀ c ∈ piece, c ∈ line := by
  induction pos using laterPieces.induct line with
  | case1 pos hlt chunkEnd ih =>
    rw [laterPieces_cons hlt] at h
    rcases List.mem_cons.1 h with rfl | hrest
    · have hend : pos < chunkEnd := by omega
      refine ⟨Nat.le_trans (byteLen_slice hend).1 (by omega), fun c hc => ?_⟩
      cases hs : sliceBytes line pos chunkEnd with
      | none =>
        rw [hs] at hc
        cases hc
      | some m =>
        rw [hs] at hc
        obtain ⟨a, b, hline, -, -⟩ := sliceBytes_iff.1 hs
        rw [hline]
        have hcm : c ∈ m := hc
        simp [hcm]
    · exact ih hrest
  | case2 pos hnlt =>
    rw [laterPieces, if_neg hnlt] at h
    cases h

/-! ## Unfolding -/

theorem lines_folded {first : List Char} {pieces : List (List Char)} (hne : first ≠ []) (hfirst : '\n' ∉ first)
    (hpieces : ∀ piece ∈ pieces, '\n' ∉ piece) :
    lines (first ++ pieces.flatMap fun piece => continuation ++ piece) = first :: pieces.map (' ' :: ·) := by
  induction pieces generalizing first with
  | nil => simpa using lines_last hfirst hne
  | cons piece pieces ih =>
    have hnext : '\n' ∉ ' ' :: piece := by simpa using hpieces piece List.mem_cons_self
    have hrest := ih (List.cons_ne_nil ' ' piece) hnext fun q hq => hpieces q (List.mem_cons_of_mem _ hq)
    have htext : first ++ (piece :: pieces).flatMap (fun piece => continuation ++ piece) =
        first ++ '\r' :: '\n' :: (' ' :: piece ++ pieces.flatMap fun piece => continuation ++ piece) := by
      simp [continuation]
    rw [htext, lines_crlf_cons hfirst, hrest, List.map_cons]

theorem foldl_continued (pieces : List (List Char)) (s : List Char × Bool) :
    ((pieces.map (' ' :: ·)).foldl unfoldLine s).1 = s.1 ++ pieces.flatten := by
  induction pieces generalizing s with
  | nil => simp
  | cons piece pieces ih =>
    rw [List.map_cons, List.foldl_cons, ih, List.flatten_cons]
    simp [unfoldLine]

/-- What a line is read as when it is the first one. -/
def unindent : List Char → List Char
  | ' ' :: rest => rest
  | '\t' :: rest => rest
  | l => l

theorem unfoldLine_first (l : List Char) : (unfoldLine ([], false) l).1 = unindent l := by
  unfold unfoldLine unindent
  split <;> simp

/-- The line does not start as a continuation does. -/
def Unindented (l : List Char) : Prop := ∀ c ∈ l.head?, c ≠ ' ' ∧ c ≠ '\t'

theorem unindent_eq {l : List Char} (h : Unindented l) : unindent l = l := by
  unfold unindent
  split
  · exact absurd rfl (h ' ' rfl).1
  · exact absurd rfl (h '\t' rfl).2
  · rfl

theorem unindent_lt {l : List Char} (h : ¬ Unindented l) : byteLen (unindent l) < byteLen l := by
  unfold unindent
  split
  · rw [byteLen_cons]
    have hpos := Char.utf8Size_pos ' '
    omega
  · rw [byteLen_cons]
    have hpos := Char.utf8Size_pos '\t'
    omega
  · rename_i hspace htab
    refine absurd (fun c hc => ?_) h
    cases l with
    | nil => cases hc
    | cons d l =>
      cases hc
      refine ⟨fun heq => ?_, fun heq => ?_⟩
      · exact hspace l (by rw [heq])
      · exact htab l (by rw [heq])

theorem unfold_folded {first : List Char} {pieces : List (List Char)} (hne : first ≠ []) (hfirst : '\n' ∉ first)
    (hpieces : ∀ piece ∈ pieces, '\n' ∉ piece) :
    unfoldVcardLines (first ++ pieces.flatMap fun piece => continuation ++ piece) = unindent first ++ pieces.flatten := by
  unfold unfoldVcardLines
  rw [lines_folded hne hfirst hpieces, List.foldl_cons, foldl_continued, unfoldLine_first]

theorem unfold_last {l : List Char} (h : '\n' ∉ l) : unfoldVcardLines l = unindent l := by
  cases l with
  | nil => rfl
  | cons c l =>
    unfold unfoldVcardLines
    rw [lines_last h (List.cons_ne_nil c l), List.foldl_cons, List.foldl_nil, unfoldLine_first]

theorem lossless_short (hn : '\n' ∉ line) (hshort : byteLen line ≤ 75) : Lossless line ↔ Unindented line := by
  have hfold : foldVcardLine line = some line := if_pos hshort
  constructor
  · rintro ⟨out, hout, -, hunfold⟩
    obtain rfl : line = out := Option.some.inj (hfold.symm.trans hout)
    by_contra hindent
    have hlt := unindent_lt hindent
    rw [← unfold_last hn, hunfold] at hlt
    exact Nat.lt_irrefl _ hlt
  · intro hindent
    refine ⟨line, hfold, fun l hl => ?_, (unfold_last hn).trans (unindent_eq hindent)⟩
    cases line with
    | nil => cases hl
    | cons c line =>
      rw [lines_last hn (List.cons_ne_nil c line), List.mem_singleton] at hl
      rwa [hl]

/-- What is put out, where the first cut lies between two characters. -/
theorem folded_spec {first rest : List Char} (hn : '\n' ∉ line) (hline : line = first ++ rest)
    (hfirst : byteLen first = 75) (hlong : 75 < byteLen line) :
    foldVcardLine line = some (first ++ (laterPieces line 75).flatMap fun piece => continuation ++ piece) ∧
      lines (first ++ (laterPieces line 75).flatMap fun piece => continuation ++ piece) =
        first :: (laterPieces line 75).map (' ' :: ·) ∧
      unfoldVcardLines (first ++ (laterPieces line 75).flatMap fun piece => continuation ++ piece) =
        unindent first ++ (laterPieces line 75).flatten := by
  have hne : first ≠ [] := by
    rintro rfl
    cases hfirst
  have hfree : '\n' ∉ first := fun h => hn (by rw [hline]; exact List.mem_append_left _ h)
  have hpieces : ∀ piece ∈ laterPieces line 75, '\n' ∉ piece := fun piece hp h => hn ((mem_pieces hp).2 _ h)
  have hslice : sliceBytes line 0 75 = some first := sliceBytes_iff.2 ⟨[], rest, hline, rfl, hfirst⟩
  refine ⟨?_, lines_folded hne hfree hpieces, unfold_folded hne hfree hpieces⟩
  unfold foldVcardLine
  rw [if_neg (by omega), hslice]
  rfl

theorem unindented_append {first rest : List Char} (hne : first ≠ []) (hline : line = first ++ rest) :
    Unindented line ↔ Unindented first := by
  cases first with
  | nil => exact absurd rfl hne
  | cons c first =>
    subst hline
    exact Iff.rfl

theorem lossless_long (hn : '\n' ∉ line) (hlong : 75 < byteLen line) :
    Lossless line ↔ Unindented line ∧ Aligned line 75 := by
  constructor
  · rintro ⟨out, hout, -, hunfold⟩
    cases hs : sliceBytes line 0 75 with
    | none =>
      unfold foldVcardLine at hout
      rw [if_neg (by omega), hs] at hout
      cases hout
    | some first =>
      obtain ⟨a, rest, hline, ha, hfirst⟩ := sliceBytes_iff.1 hs
      obtain rfl := byteLen_eq_zero ha
      rw [List.nil_append] at hline
      have hne : first ≠ [] := by
        rintro rfl
        cases hfirst
      obtain ⟨hfold, -, hunf⟩ := folded_spec hn hline hfirst hlong
      obtain rfl := Option.some.inj (hfold.symm.trans hout)
      rw [hunf] at hunfold
      have hlen := congrArg byteLen hunfold
      rw [byteLen_append] at hlen
      obtain ⟨hle, hiff⟩ := byteLen_pieces (Nat.le_of_lt hlong)
      have hindent : Unindented first := by
        by_contra hindent
        have hlt := unindent_lt hindent
        omega
      rw [unindent_eq hindent] at hlen
      exact ⟨(unindented_append hne hline).2 hindent, hiff.1 (by omega)⟩
  · rintro ⟨hindent, halign⟩
    obtain ⟨first, rest, hline, hfirst⟩ := halign 0 hlong
    have hne : first ≠ [] := by
      rintro rfl
      cases hfirst
    obtain ⟨hfold, hlines, hunf⟩ := folded_spec hn hline hfirst hlong
    refine ⟨_, hfold, fun l hl => ?_, ?_⟩
    · rw [hlines] at hl
      rcases List.mem_cons.1 hl with rfl | hl
      · exact Nat.le_of_eq hfirst
      · obtain ⟨piece, hp, rfl⟩ := List.mem_map.1 hl
        have hlen := (mem_pieces hp).1
        have hspace : Char.utf8Size ' ' = 1 := by decide
        rw [byteLen_cons]
        omega
    · rw [hunf, unindent_eq ((unindented_append hne hline).1 hindent), flatten_pieces first rest halign hline hfirst, hline]

end

/-- A line comes back exactly where it does not start as a continuation and no cut falls inside of a character. -/
theorem fold_lossless_iff {line : List Char} (hn : '\n' ∉ line) :
    Lossless line ↔ Unindented line ∧ Aligned line 75 := by
  by_cases hshort : byteLen line ≤ 75
  · rw [lossless_short hn hshort]
    refine ⟨fun h => ⟨h, fun k hk => ?_⟩, fun h => h.1⟩
    omega
  · exact lossless_long hn (by omega)

/-- A card's note in ASCII, of whatever length. -/
theorem fold_lossless_note : Lossless ("NOTE:".toList ++ List.replicate 200 'x') := by
  refine (fold_lossless_iff (by decide +kernel)).2 ⟨?_, fun k hk => ?_⟩
  · intro c hc
    cases hc
    decide
  · have hlen : byteLen ("NOTE:".toList ++ List.replicate 200 'x') = 205 := by decide +kernel
    rw [hlen] at hk
    refine ⟨_, _, (List.take_append_drop (75 + 74 * k) _).symm, ?_⟩
    obtain rfl | rfl : k = 0 ∨ k = 1 := by omega
    · decide +kernel
    · decide +kernel

/-- 74 bytes and then a letter of two. -/
theorem fold_inside_character :
    foldVcardLine (List.replicate 74 'x' ++ List.replicate 3 'é') = none := by
  unfold foldVcardLine
  rw [if_neg (by decide +kernel)]
  have hslice : sliceBytes (List.replicate 74 'x' ++ List.replicate 3 'é') 0 75 = none := by decide +kernel
  rw [hslice]
  rfl

theorem fold_not_lossless : ¬ ∀ line : List Char, '\n' ∉ line → '\r' ∉ line → Lossless line := by
  intro hall
  obtain ⟨out, hout, -⟩ := hall (List.replicate 74 'x' ++ List.replicate 3 'é') (by decide) (by decide)
  rw [fold_inside_character] at hout
  cases hout

end Metalogos.Contacts
