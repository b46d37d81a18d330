import Mathlib.Algebra.Order.Field.Rat
import Mathlib.Data.List.Chain
import Mathlib.Tactic.Linarith
import Metalogos.Chunk.Split

/-!
# How the atoms lie in the text

Each atom begins where the one before it ends, but for windows: a window begins inside the one before it, and that
one is full. Joining stops at a full atom, so what is joined is still a piece of the text.
-/
namespace Metalogos.Chunk

/-! ## Cutting at a separator -/

/-- The pieces with the separators put back. -/
def joinBack (sep : List Char) : List (List Char) → List Char
  | [] => []
  | p :: ps => p ++ (ps.map (sep ++ ·)).flatten

theorem joinBack_nil_cons (sep : List Char) {ps : List (List Char)} (hne : ps ≠ []) :
    joinBack sep ([] :: ps) = sep ++ joinBack sep ps := by
  cases ps with
  | nil => exact absurd rfl hne
  | cons p ps => simp [joinBack]

theorem joinBack_consHead (sep : List Char) (c : Char) {ps : List (List Char)} (hne : ps ≠ []) :
    joinBack sep (consHead c ps) = c :: joinBack sep ps := by
  cases ps with
  | nil => exact absurd rfl hne
  | cons p ps => rfl

theorem splitStr_ne_nil (sep : List Char) (text : List Char) : ∀ skip, splitStr sep skip text ≠ [] := by
  induction text with
  | nil =>
    intro skip
    cases skip <;> exact List.cons_ne_nil _ _
  | cons c cs ih =>
    intro skip
    cases skip with
    | succ skip => exact ih skip
    | zero =>
      unfold splitStr
      split_ifs
      · exact List.cons_ne_nil _ _
      · cases h : splitStr sep 0 cs with
        | nil => exact absurd h (ih 0)
        | cons p ps => exact List.cons_ne_nil _ _

theorem joinBack_splitStr {sep : List Char} (hsep : sep ≠ []) (text : List Char) :
    ∀ skip, joinBack sep (splitStr sep skip text) = text.drop skip := by
  induction text with
  | nil =>
    intro skip
    cases skip <;> rfl
  | cons c cs ih =>
    intro skip
    cases skip with
    | succ skip => exact ih skip
    | zero =>
      unfold splitStr
      split_ifs with hpre
      · obtain ⟨rest, hrest⟩ := List.isPrefixOf_iff_prefix.1 hpre
        rw [joinBack_nil_cons sep (splitStr_ne_nil sep cs _), ih]
        -- what is skipped is the rest of the separator
        cases sep with
        | nil => exact absurd rfl hsep
        | cons d sep =>
          obtain ⟨rfl, rfl⟩ := List.cons.inj hrest
          simp
      · rw [joinBack_consHead sep c (splitStr_ne_nil sep cs 0), ih]
        rfl

theorem owned_flatten {sep : List Char} (hsep : sep ≠ []) (text : List Char) : (owned sep text).flatten = text := by
  have h := joinBack_splitStr hsep text 0
  unfold owned
  cases hs : splitStr sep 0 text with
  | nil => exact absurd hs (splitStr_ne_nil sep text 0)
  | cons p ps =>
    rw [hs] at h
    exact h

/-! ## Windows -/

variable {budget : ℚ} {overlap : Limit}

theorem grow_spec (cs : List Char) : ∀ w : List Char, ∃ taken, grow .chars budget w cs = w ++ taken ∧ taken <+: cs ∧
    (taken = cs ∨ budget < ((w ++ taken).length : ℚ) + 1) := by
  induction cs with
  | nil =>
    intro w
    exact ⟨[], (List.append_nil w).symm, List.prefix_refl _, .inl rfl⟩
  | cons c cs ih =>
    intro w
    unfold grow
    by_cases hover : (budget : Limit) < Metric.chars.len (w ++ [c])
    · rw [if_pos hover]
      refine ⟨[], (List.append_nil w).symm, List.nil_prefix, .inr ?_⟩
      simpa [Metric.len] using hover
    · rw [if_neg hover]
      obtain ⟨taken, heq, hpre, hfull⟩ := ih (w ++ [c])
      refine ⟨c :: taken, by simpa using heq, List.cons_prefix_cons.2 ⟨rfl, hpre⟩, ?_⟩
      rcases hfull with rfl | hfull
      · exact .inl rfl
      · refine .inr ?_
        simpa using hfull

theorem hardWindows_skip (cs : List Char) : ∀ skip,
    hardWindows .chars budget overlap skip cs = hardWindows .chars budget overlap 0 (cs.drop skip) := by
  induction cs with
  | nil =>
    intro skip
    cases skip <;> rfl
  | cons c cs ih =>
    intro skip
    cases skip with
    | zero => rfl
    | succ skip => exact ih skip

/-- One step of `hard_windows`: the whole rest, or a full window and the rest from inside it on. -/
theorem hardWindows_cases {p : List Char} {ws : List (List Char)} (hp : p ≠ [])
    (h : hardWindows .chars budget overlap 0 p = .ok ws) : ws = [p] ∨
      ∃ w ws', ws = w :: ws' ∧ w ≠ [] ∧ w <+: p ∧ w.length < p.length ∧ budget < (w.length : ℚ) + 1 ∧
        hardWindows .chars budget overlap 0 (p.drop (max (w.length - stepBack overlap) 1)) = .ok ws' ∧
        p.drop (max (w.length - stepBack overlap) 1) ≠ [] := by
  cases p with
  | nil => exact absurd rfl hp
  | cons c cs =>
    simp only [hardWindows] at h
    obtain ⟨taken, heq, hpre, hfull⟩ := @grow_spec budget (c :: cs) []
    rw [List.nil_append] at heq hfull
    rw [heq] at h
    by_cases hnil : taken = []
    · rw [if_pos hnil] at h
      cases h
    · rw [if_neg hnil] at h
      by_cases hlast : (c :: cs).length ≤ taken.length
      · rw [if_pos hlast] at h
        cases h
        rw [hpre.eq_of_length_le hlast]
        exact .inl rfl
      · rw [if_neg hlast, hardWindows_skip] at h
        have hpos : 0 < taken.length := List.length_pos_iff.2 hnil
        have hdrop : cs.drop (max (taken.length - stepBack overlap) 1 - 1) =
            (c :: cs).drop (max (taken.length - stepBack overlap) 1) := by
          obtain ⟨n, hn⟩ : ∃ n, max (taken.length - stepBack overlap) 1 = n + 1 :=
            ⟨max (taken.length - stepBack overlap) 1 - 1, by omega⟩
          rw [hn]
          rfl
        rw [hdrop] at h
        cases hrest : hardWindows .chars budget overlap 0 ((c :: cs).drop (max (taken.length - stepBack overlap) 1)) with
        | error e => rw [hrest] at h; cases h
        | ok ws' =>
          rw [hrest] at h
          cases h
          refine .inr ⟨taken, ws', rfl, hnil, hpre, Nat.lt_of_not_le hlast, hfull.resolve_left ?_, hrest, ?_⟩
          · rintro rfl
            exact hlast (Nat.le_refl _)
          · rw [Ne, List.drop_eq_nil_iff]
            omega

/-! ## Atoms -/

/-- The atoms of a piece, `R` between two windows that overlap. The next atom begins `n` characters after its
predecessor, behind it or inside it. -/
def Tiles (budget : ℚ) (R : List Char → List Char → Prop) : List Char → List (List Char) → Prop
  | p, [] => p = []
  | p, a :: rest => a <+: p ∧ ∃ n ≤ a.length,
      (n = a.length ∨ (budget < (a.length : ℚ) + 1 ∧ ∀ b ∈ rest.head?, b ≠ [] ∧ R a b)) ∧ Tiles budget R (p.drop n) rest

variable {R : List Char → List Char → Prop}

theorem prefix_append {text x y : List Char} {t : Nat} (hx : x <+: text.drop t) (hy : y <+: text.drop (t + x.length)) :
    x ++ y <+: text.drop t := by
  obtain ⟨r, hr⟩ := hx
  have hrest : r = text.drop (t + x.length) := by
    rw [← List.drop_drop, ← hr, List.drop_left]
  rw [← hr, hrest]
  exact (List.prefix_append_right_inj x).2 hy

theorem end_le {text x : List Char} {t : Nat} (ht : t ≤ text.length) (hx : x <+: text.drop t) :
    t + x.length ≤ text.length := by
  have h := hx.length_le
  rw [List.length_drop] at h
  omega

theorem tiles_singleton (p : List Char) : Tiles budget R p [p] := by
  refine ⟨List.prefix_refl p, p.length, Nat.le_refl _, .inl rfl, ?_⟩
  exact List.drop_length

theorem tiles_append {l₁ : List (List Char)} : ∀ {p q : List Char} {l₂ : List (List Char)},
    Tiles budget R p l₁ → Tiles budget R q l₂ → Tiles budget R (p ++ q) (l₁ ++ l₂) := by
  induction l₁ with
  | nil =>
    intro p q l₂ h₁ h₂
    obtain rfl : p = [] := h₁
    exact h₂
  | cons a rest ih =>
    intro p q l₂ h₁ h₂
    obtain ⟨hpre, n, hn, hlink, hrest⟩ := h₁
    have hle := hpre.length_le
    refine ⟨hpre.trans (List.prefix_append p q), n, hn, ?_, ?_⟩
    · cases rest with
      | nil =>
        -- the last atom of a piece reaches its end
        have : p.length ≤ n := List.drop_eq_nil_iff.1 hrest
        exact .inl (by omega)
      | cons b rest => exact hlink
    · rw [List.drop_append_of_le_length (Nat.le_trans hn hle)]
      exact ih hrest h₂

/-- The windows of a piece, when `R` holds between neighbours. -/
theorem hardWindows_tiles {ws : List (List Char)} : ∀ {p : List Char}, p ≠ [] →
    hardWindows .chars budget overlap 0 p = .ok ws → ws.IsChain R → Tiles budget R p ws ∧ ∀ w ∈ ws, w ≠ [] := by
  induction ws with
  | nil =>
    intro p hp h _
    rcases hardWindows_cases hp h with h | ⟨w, ws', h, -⟩ <;> cases h
  | cons w ws ih =>
    intro p hp h hchain
    rcases hardWindows_cases hp h with h | ⟨w', ws', h, hne, hpre, -, hfull, hrest, hdrop⟩
    · rw [h]
      refine ⟨tiles_singleton p, fun x hx => ?_⟩
      rw [List.mem_singleton.1 hx]
      exact hp
    · cases h
      have hpos : 0 < w.length := List.length_pos_iff.2 hne
      obtain ⟨hhead, htail⟩ := List.isChain_cons.1 hchain
      obtain ⟨htiles, hnonempty⟩ := ih hdrop hrest htail
      refine ⟨⟨hpre, _, by omega, .inr ⟨hfull, fun b hb => ?_⟩, htiles⟩, fun x hx => ?_⟩
      · exact ⟨hnonempty b (List.mem_of_mem_head? hb), hhead b hb⟩
      · rcases List.mem_cons.1 hx with rfl | hx
        · exact hne
        · exact hnonempty x hx

theorem splitPieces_tiles {f : List Char → Except ChunkError (List (List Char))} {ps atoms : List (List Char)}
    (hf : ∀ p ∈ ps, ∀ sub, f p = .ok sub → Tiles budget R p sub) (h : splitPieces f ps = .ok atoms) :
    Tiles budget R ps.flatten atoms := by
  induction ps generalizing atoms with
  | nil =>
    cases h
    rfl
  | cons p ps ih =>
    have hnext : ∀ q ∈ ps, ∀ sub, f q = .ok sub → Tiles budget R q sub :=
      fun q hq => hf q (List.mem_cons_of_mem _ hq)
    rcases splitPieces_cases h with ⟨rfl, hrest⟩ | ⟨-, sub, rest, hsub, hrest, rfl⟩
    · exact ih hnext hrest
    · exact tiles_append (hf p List.mem_cons_self sub hsub) (ih hnext hrest)

/-- The text cut at every separator, each piece with the one in front of it. -/
def words : List (List Char) → List Char → List (List Char)
  | [] => fun text => [text]
  | sep :: rest => fun text => (owned sep text).flatMap (words rest)

theorem splitAtoms_tiles {headerGuard : Bool} {ss : List (List Char)} (hss : ∀ sep ∈ ss, sep ≠ []) :
    ∀ {text : List Char} {atoms : List (List Char)},
    (∀ p ∈ words ss text, ∀ ws, hardWindows .chars budget overlap 0 p = .ok ws → ws.IsChain R) →
    splitAtoms .chars budget overlap headerGuard ss text = .ok atoms → Tiles budget R text atoms := by
  induction ss with
  | nil =>
    intro text atoms hwords h
    rcases splitAtoms_nil_cases h with ⟨-, rfl⟩ | h
    · exact tiles_singleton text
    · by_cases hnil : text = []
      · rw [hnil] at h
        cases h
        exact hnil
      · exact (hardWindows_tiles hnil h (hwords text List.mem_cons_self atoms h)).1
  | cons sep ss ih =>
    intro text atoms hwords h
    rcases splitAtoms_cons_cases h with ⟨-, rfl⟩ | h
    · exact tiles_singleton text
    · have htiles := @splitPieces_tiles budget R _ _ _ (fun p hp sub hsub => ?_) h
      · rwa [owned_flatten (hss sep List.mem_cons_self)] at htiles
      · refine ih (fun s hs => hss s (List.mem_cons_of_mem _ hs)) (fun w hw => hwords w ?_) hsub
        exact List.mem_flatMap.2 ⟨p, hp, hw⟩

theorem seps_ne_nil : ∀ sep ∈ seps, sep ≠ [] := by decide

end Metalogos.Chunk
