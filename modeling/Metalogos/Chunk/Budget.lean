import Mathlib.Algebra.Order.Field.Rat
import Mathlib.Tactic.Linarith
import Metalogos.Chunk.Split

/-!
# No chunk is over the budget

Atoms are within the budget by the way they are cut, and joining checks it again. In a section with a header line
the body is cut for what the header line and its line end leave, so the first chunk has room for both
(`textChunk_budget`).
-/
namespace Metalogos.Chunk

open Metalogos.Lib

section

variable {m : Metric} {budget : ℚ} {overlap : Limit}

theorem grow_le (cs : List Char) : ∀ w : List Char, grow m budget w cs = w ∨ m.len (grow m budget w cs) ≤ budget := by
  induction cs with
  | nil => intro w; exact .inl rfl
  | cons c cs ih =>
    intro w
    unfold grow
    by_cases hover : (budget : Limit) < m.len (w ++ [c])
    · rw [if_pos hover]
      exact .inl rfl
    · rw [if_neg hover]
      rcases ih (w ++ [c]) with heq | hle
      · rw [heq]
        exact .inr (not_lt.1 (mt Limit.finite_lt_finite.2 hover))
      · exact .inr hle

theorem hardWindows_le {cs : List Char} : ∀ {skip : Nat} {ws : List (List Char)},
    hardWindows m budget overlap skip cs = .ok ws → ∀ w ∈ ws, m.len w ≤ budget := by
  induction cs with
  | nil =>
    intro skip ws h w hw
    cases skip <;> cases h <;> cases hw
  | cons c cs ih =>
    intro skip ws h
    cases skip with
    | succ skip => exact ih h
    | zero =>
      simp only [hardWindows] at h
      have hgrow : grow m budget [] (c :: cs) ≠ [] → m.len (grow m budget [] (c :: cs)) ≤ budget :=
        fun hne => (grow_le (c :: cs) []).resolve_left hne
      generalize grow m budget [] (c :: cs) = w at h hgrow
      by_cases hnil : w = []
      · rw [if_pos hnil] at h
        cases h
      · rw [if_neg hnil] at h
        by_cases hlast : (c :: cs).length ≤ w.length
        · rw [if_pos hlast] at h
          cases h
          intro x hx
          rw [List.mem_singleton.1 hx]
          exact hgrow hnil
        · rw [if_neg hlast] at h
          cases hrest : hardWindows m budget overlap (max (w.length - stepBack overlap) 1 - 1) cs with
          | error e => rw [hrest] at h; cases h
          | ok ws' =>
            rw [hrest] at h
            cases h
            intro x hx
            rcases List.mem_cons.1 hx with rfl | hx
            · exact hgrow hnil
            · exact ih hrest x hx

/-- What holds of the atoms of every piece holds of all. -/
theorem splitPieces_forall {P : List Char → Prop} {f : List Char → Except ChunkError (List (List Char))}
    (hf : ∀ p sub, f p = .ok sub → ∀ a ∈ sub, P a) {ps atoms : List (List Char)} (h : splitPieces f ps = .ok atoms) :
    ∀ a ∈ atoms, P a := by
  induction ps generalizing atoms with
  | nil =>
    cases h
    intro a ha
    cases ha
  | cons p ps ih =>
    rcases splitPieces_cases h with ⟨-, hrest⟩ | ⟨-, sub, rest, hsub, hrest, rfl⟩
    · exact ih hrest
    · intro a ha
      rcases List.mem_append.1 ha with ha | ha
      · exact hf p sub hsub a ha
      · exact ih hrest a ha

theorem splitAtoms_le {headerGuard : Bool} {ss : List (List Char)} : ∀ {text : List Char} {atoms : List (List Char)},
    splitAtoms m budget overlap headerGuard ss text = .ok atoms → ∀ a ∈ atoms, m.len a ≤ budget := by
  have hone {text : List Char} (hfits : m.len text ≤ budget) : ∀ a ∈ [text], m.len a ≤ budget := by
    intro a ha
    rw [List.mem_singleton.1 ha]
    exact hfits
  induction ss with
  | nil =>
    intro text atoms h
    rcases splitAtoms_nil_cases h with ⟨hfits, rfl⟩ | h
    · exact hone (Limit.finite_le_finite.1 hfits)
    · exact hardWindows_le h
  | cons sep ss ih =>
    intro text atoms h
    rcases splitAtoms_cons_cases h with ⟨hfits, rfl⟩ | h
    · exact hone (Limit.finite_le_finite.1 hfits)
    · exact splitPieces_forall (fun p sub hsub => ih hsub) h

theorem mergeFrom_le {atoms : List (List Char)} (ha : ∀ a ∈ atoms, m.len a ≤ budget) :
    ∀ {cur : List Char}, m.len cur ≤ budget → ∀ c ∈ mergeFrom m budget overlap cur atoms, m.len c ≤ budget := by
  induction atoms with
  | nil =>
    intro cur hcur c hc
    rw [List.mem_singleton.1 hc]
    exact hcur
  | cons a atoms ih =>
    intro cur hcur
    have hnext : ∀ {cur : List Char}, m.len cur ≤ budget → ∀ c ∈ mergeFrom m budget overlap cur atoms, m.len c ≤ budget :=
      ih fun a' ha' => ha a' (List.mem_cons_of_mem _ ha')
    unfold mergeFrom
    by_cases hjoin : (m.len (cur ++ a) : Limit) ≤ budget
    · rw [if_pos hjoin]
      exact hnext (Limit.finite_le_finite.1 hjoin)
    · rw [if_neg hjoin]
      intro c hc
      rcases List.mem_cons.1 hc with rfl | hc
      · exact hcur
      · refine hnext ?_ c hc
        split_ifs with hcarry
        · exact Limit.finite_le_finite.1 hcarry
        · exact ha a List.mem_cons_self

theorem mergeAtoms_le {atoms : List (List Char)} (ha : ∀ a ∈ atoms, m.len a ≤ budget) :
    ∀ c ∈ mergeAtoms m budget overlap atoms, m.len c ≤ budget := by
  cases atoms with
  | nil =>
    intro c hc
    cases hc
  | cons a atoms =>
    exact mergeFrom_le (fun a' ha' => ha a' (List.mem_cons_of_mem _ ha')) (ha a List.mem_cons_self)

theorem chunkParagraph_le {text : List Char} {chunks : List (List Char)}
    (h : chunkParagraph m budget overlap text = .ok chunks) : ∀ c ∈ chunks, m.len c ≤ budget := by
  obtain ⟨atoms, hatoms, rfl⟩ := chunkParagraph_cases h
  exact mergeAtoms_le (splitAtoms_le hatoms)

end

/-! ## Sections -/

section

variable {budget : ℚ} {overlap : Limit}

theorem withHeader_le {h : List Char} {chunks : List (List Char)} (hh : (h.length : ℚ) + 1 ≤ budget)
    (hc : ∀ c ∈ chunks, (c.length : ℚ) ≤ budget - h.length - 1) : ∀ c ∈ withHeader h chunks, (c.length : ℚ) ≤ budget := by
  cases chunks with
  | nil =>
    intro c hmem
    rw [List.mem_singleton.1 hmem]
    linarith
  | cons first rest =>
    intro c hmem
    have hpos : (0 : ℚ) ≤ h.length := Nat.cast_nonneg _
    rcases List.mem_cons.1 hmem with rfl | hmem
    · have hfirst := hc first List.mem_cons_self
      split_ifs
      · linarith
      · rw [List.length_append, List.length_cons]
        push_cast
        linarith
    · have := hc c (List.mem_cons_of_mem _ hmem)
      linarith

theorem sectionChunks_le {sec : Section} {chunks : List (List Char)}
    (h : sectionChunks .chars budget overlap sec = .ok chunks) : ∀ c ∈ chunks, (c.length : ℚ) ≤ budget := by
  rcases sectionChunks_cases h with ⟨hfits, rfl⟩ | ⟨-, atoms, hatoms, rfl⟩ | ⟨header, atoms, -, hlong, hatoms, rfl⟩
  · intro c hc
    rw [List.mem_singleton.1 hc]
    exact Limit.finite_le_finite.1 hfits
  · exact mergeAtoms_le (splitAtoms_le hatoms)
  · have hroom := not_lt.1 (mt Limit.finite_lt_finite.2 hlong)
    exact withHeader_le hroom (mergeAtoms_le (splitAtoms_le hatoms))

end

end Metalogos.Chunk
