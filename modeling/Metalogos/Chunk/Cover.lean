import Metalogos.Chunk.Budget
import Metalogos.Chunk.Tiles

/-!
# Paragraph chunks lie in the text

`chunk_paragraph` joins atoms, and puts the tail of the chunk that was closed in front of the next atom. Where the
next atom begins behind the chunk, tail and atom are one piece of the text. The windows of a long word already
begin inside their predecessor: a tail in front of such a window is a repetition. It stays away when the two are
over the budget together, so what matters is the last window of a word, which may be short
(`chunkParagraph_pieces`).
-/
namespace Metalogos.Chunk

/-! ## What is to be shown -/

/-- The chunks are pieces of the text, each beginning at or behind the begin of its predecessor, and no character
is left out. -/
def PiecesOf (text : List Char) (chunks : List (List Char)) : Prop :=
  ∃ starts : List Nat, starts.length = chunks.length ∧ starts.Pairwise (· ≤ ·) ∧
    (∀ q ∈ starts.zip chunks, q.2 <+: text.drop q.1) ∧
    ∀ i < text.length, ∃ q ∈ starts.zip chunks, q.1 ≤ i ∧ i < q.1 + q.2.length

theorem infix_of_piecesOf {text : List Char} {chunks : List (List Char)} (h : PiecesOf text chunks) :
    ∀ c ∈ chunks, c <:+: text := by
  obtain ⟨starts, hlen, -, hpre, -⟩ := h
  intro c hc
  obtain ⟨i, hi, rfl⟩ := List.getElem_of_mem hc
  have hi' : i < (starts.zip chunks).length := by
    rw [List.length_zip]
    omega
  have hmem := hpre _ (List.getElem_mem hi')
  rw [List.getElem_zip] at hmem
  exact hmem.isInfix.trans (List.drop_suffix _ _).isInfix

/-- The next chunk begins from `lo` on, and at `hi` at the latest. -/
def Covers (text : List Char) : Nat → Nat → List (List Char) → Prop
  | _, hi, [] => hi = text.length
  | lo, hi, c :: rest => ∃ s, lo ≤ s ∧ s ≤ hi ∧ c <+: text.drop s ∧ Covers text s (s + c.length) rest

theorem starts_of_covers {text : List Char} {chunks : List (List Char)} : ∀ {lo hi : Nat}, Covers text lo hi chunks →
    ∃ starts : List Nat, starts.length = chunks.length ∧ (∀ s ∈ starts, lo ≤ s) ∧ starts.Pairwise (· ≤ ·) ∧
      (∀ q ∈ starts.zip chunks, q.2 <+: text.drop q.1) ∧
      ∀ i, hi ≤ i → i < text.length → ∃ q ∈ starts.zip chunks, q.1 ≤ i ∧ i < q.1 + q.2.length := by
  induction chunks with
  | nil =>
    intro lo hi h
    obtain rfl : hi = text.length := h
    exact ⟨[], rfl, by simp, List.Pairwise.nil, by simp, fun i hle hlt => by omega⟩
  | cons c rest ih =>
    intro lo hi h
    obtain ⟨s, hlo, hhi, hpre, hrest⟩ := h
    obtain ⟨starts, hlen, hge, hsorted, hpres, hall⟩ := ih hrest
    refine ⟨s :: starts, by simp [hlen], ?_, List.pairwise_cons.2 ⟨hge, hsorted⟩, ?_, ?_⟩
    · intro x hx
      rcases List.mem_cons.1 hx with rfl | hx
      · exact hlo
      · exact Nat.le_trans hlo (hge x hx)
    · intro q hq
      rw [List.zip_cons_cons] at hq
      rcases List.mem_cons.1 hq with rfl | hq
      · exact hpre
      · exact hpres q hq
    · intro i hi hlt
      rw [List.zip_cons_cons]
      by_cases hin : i < s + c.length
      · exact ⟨(s, c), List.mem_cons_self, Nat.le_trans hhi hi, hin⟩
      · obtain ⟨q, hq, hqi⟩ := hall i (Nat.le_of_not_lt hin) hlt
        exact ⟨q, List.mem_cons_of_mem _ hq, hqi⟩

/-! ## Joining -/

variable {budget : ℚ} {overlap : Limit} {text : List Char}

/-- Between two windows: no tail is put in front of the second. -/
def Apart (budget : ℚ) (overlap : Limit) (a b : List Char) : Prop :=
  overlapTail a (stepBack overlap) = [] ∨ budget < ((overlapTail a (stepBack overlap) ++ b).length : ℚ)

/-- The open chunk `x ++ a` begins at `t`; `a` is its last atom, and `rest` are the atoms to come. -/
structure Open (budget : ℚ) (overlap : Limit) (text : List Char) (t : Nat) (x a : List Char) (rest : List (List Char)) : Prop where
  start_le : t ≤ text.length
  pre : x ++ a <+: text.drop t
  fits : ((x ++ a).length : ℚ) ≤ budget
  rest_fits : ∀ b ∈ rest, (b.length : ℚ) ≤ budget
  tiles : ∃ n ≤ a.length,
    (n = a.length ∨ (budget < (a.length : ℚ) + 1 ∧ ∀ b ∈ rest.head?, b ≠ [] ∧ Apart budget overlap a b)) ∧
    Tiles budget (Apart budget overlap) (text.drop (t + x.length + n)) rest

theorem overlapTail_suffix (c : List Char) (n : Nat) : overlapTail c n <:+ c := by
  unfold overlapTail
  split_ifs
  · exact List.nil_suffix
  · dsimp only
    split
    · exact (List.drop_suffix _ _).trans (List.drop_suffix _ _)
    · exact List.drop_suffix _ _

/-- The next atom follows on the open chunk. -/
theorem Open.next {t : Nat} {x b : List Char} {rest : List (List Char)} (ht : t ≤ text.length)
    (hx : x <+: text.drop t) (hfits : ((x ++ b).length : ℚ) ≤ budget) (hrest : ∀ b ∈ rest, (b.length : ℚ) ≤ budget)
    (htiles : Tiles budget (Apart budget overlap) (text.drop (t + x.length)) (b :: rest)) :
    Open budget overlap text t x b rest := by
  obtain ⟨hpre, n, hn, hlink, htail⟩ := htiles
  refine ⟨ht, prefix_append hx hpre, hfits, hrest, n, hn, hlink, ?_⟩
  rwa [List.drop_drop] at htail

theorem mergeFrom_covers {rest : List (List Char)} : ∀ {t lo hi : Nat} {x a : List Char},
    lo ≤ t → t ≤ hi → Open budget overlap text t x a rest →
    Covers text lo hi (mergeFrom .chars budget overlap (x ++ a) rest) := by
  induction rest with
  | nil =>
    intro t lo hi x a hlo hhi h
    obtain ⟨n, hn, -, hend⟩ := h.tiles
    have hend : text.length ≤ t + x.length + n := List.drop_eq_nil_iff.1 hend
    have hle := end_le h.start_le h.pre
    have hlen : (x ++ a).length = x.length + a.length := List.length_append
    exact ⟨t, hlo, hhi, h.pre, show t + (x ++ a).length = text.length by omega⟩
  | cons b rest ih =>
    intro t lo hi x a hlo hhi h
    obtain ⟨n, hn, hlink, htiles⟩ := h.tiles
    have hle := end_le h.start_le h.pre
    have hlen : (x ++ a).length = x.length + a.length := List.length_append
    have hb := h.rest_fits b List.mem_cons_self
    have hrest : ∀ b' ∈ rest, (b'.length : ℚ) ≤ budget := fun b' hb' => h.rest_fits b' (List.mem_cons_of_mem _ hb')
    unfold mergeFrom
    rcases hlink with rfl | ⟨hfull, hhead⟩
    · -- the atom begins where the chunk ends
      rw [Nat.add_assoc, ← hlen] at htiles
      by_cases hjoin : (Metric.chars.len (x ++ a ++ b) : Limit) ≤ budget
      · rw [if_pos hjoin]
        exact ih hlo hhi (Open.next h.start_le h.pre (Limit.finite_le_finite.1 hjoin) hrest htiles)
      · rw [if_neg hjoin]
        refine ⟨t, hlo, hhi, h.pre, ?_⟩
        obtain ⟨y, hy⟩ := overlapTail_suffix (x ++ a) (stepBack overlap)
        generalize overlapTail (x ++ a) (stepBack overlap) = carry at hy
        have hylen : y.length + carry.length = (x ++ a).length := by rw [← hy, List.length_append]
        split_ifs with hcarry
        · have hpre : carry <+: text.drop (t + y.length) := by
            obtain ⟨r, hr⟩ := h.pre
            rw [← List.drop_drop, ← hr, ← hy, List.append_assoc, List.drop_left]
            exact List.prefix_append carry r
          have hsame : t + (x ++ a).length = t + y.length + carry.length := by omega
          rw [hsame] at htiles
          refine ih ?_ ?_ (Open.next ?_ hpre (Limit.finite_le_finite.1 hcarry) hrest htiles) <;> omega
        · have hopen : Open budget overlap text (t + (x ++ a).length) [] b rest :=
            Open.next hle List.nil_prefix hb hrest htiles
          exact ih (Nat.le_add_right _ _) (Nat.le_refl _) hopen
    · -- a window inside a full one: the chunk is that window, and nothing is put in front
      obtain ⟨hne, happart⟩ := hhead b rfl
      have hfits := h.fits
      obtain rfl : x = [] := by
        rw [hlen] at hfits
        push_cast at hfits
        have hlt : (x.length : ℚ) < 1 := by linarith
        exact List.length_eq_zero_iff.1 (by exact_mod_cast (Nat.lt_one_iff.1 (by exact_mod_cast hlt)))
      rw [List.nil_append] at hfits ⊢
      have hpos : 0 < b.length := List.length_pos_iff.2 hne
      have hjoin : ¬ (Metric.chars.len (a ++ b) : Limit) ≤ budget := by
        have hone : (1 : ℚ) ≤ b.length := by exact_mod_cast hpos
        have hab : ((a ++ b).length : ℚ) = a.length + b.length := by exact_mod_cast List.length_append
        rw [Limit.finite_le_finite, not_le]
        show budget < ((a ++ b).length : ℚ)
        linarith
      rw [if_neg hjoin]
      refine ⟨t, hlo, hhi, h.pre, ?_⟩
      have hnext : (if (Metric.chars.len (overlapTail a (stepBack overlap) ++ b) : Limit) ≤ budget then
          overlapTail a (stepBack overlap) ++ b else b) = b := by
        rcases happart with hnil | hover
        · rw [hnil, List.nil_append, ite_self]
        · exact if_neg (mt Limit.finite_le_finite.1 (not_le.2 hover))
      rw [hnext]
      rw [List.length_nil, Nat.add_zero] at htiles
      rw [List.nil_append] at hle
      have hopen : Open budget overlap text (t + n) [] b rest :=
        Open.next (by omega) List.nil_prefix hb hrest htiles
      exact ih (Nat.le_add_right _ _) (by omega) hopen

theorem mergeAtoms_covers {atoms : List (List Char)} (hfits : ∀ a ∈ atoms, (a.length : ℚ) ≤ budget)
    (htiles : Tiles budget (Apart budget overlap) text atoms) :
    Covers text 0 0 (mergeAtoms .chars budget overlap atoms) := by
  cases atoms with
  | nil =>
    obtain rfl : text = [] := htiles
    rfl
  | cons a rest =>
    have hopen : Open budget overlap text 0 [] a rest :=
      Open.next (Nat.zero_le _) List.nil_prefix (hfits a List.mem_cons_self)
        (fun b hb => hfits b (List.mem_cons_of_mem _ hb)) htiles
    exact mergeFrom_covers (Nat.le_refl 0) (Nat.le_refl 0) hopen

/-! ## Without overlap -/

theorem hardWindows_flatten (h0 : stepBack overlap = 0) {ws : List (List Char)} : ∀ {p : List Char}, p ≠ [] →
    hardWindows .chars budget overlap 0 p = .ok ws → ws.flatten = p := by
  induction ws with
  | nil =>
    intro p hp h
    rcases hardWindows_cases hp h with h | ⟨w, ws', h, -⟩ <;> cases h
  | cons w ws ih =>
    intro p hp h
    rcases hardWindows_cases hp h with h | ⟨w', ws', h, hne, hpre, -, -, hrest, hdrop⟩
    · rw [h]
      exact List.append_nil p
    · cases h
      have hpos : 0 < w.length := List.length_pos_iff.2 hne
      have hstep : max (w.length - stepBack overlap) 1 = w.length := by omega
      rw [hstep] at hrest hdrop
      rw [List.flatten_cons, ih hdrop hrest]
      obtain ⟨r, hr⟩ := hpre
      rw [← hr, List.drop_left]

theorem splitPieces_flatten {f : List Char → Except ChunkError (List (List Char))} {ps atoms : List (List Char)}
    (hf : ∀ p sub, p ≠ [] → f p = .ok sub → sub.flatten = p) (h : splitPieces f ps = .ok atoms) :
    atoms.flatten = ps.flatten := by
  induction ps generalizing atoms with
  | nil =>
    cases h
    rfl
  | cons p ps ih =>
    rcases splitPieces_cases h with ⟨rfl, hrest⟩ | ⟨hp, sub, rest, hsub, hrest, rfl⟩
    · exact ih hrest
    · rw [List.flatten_append, hf p sub hp hsub, ih hrest, List.flatten_cons]

theorem splitAtoms_flatten (h0 : stepBack overlap = 0) {headerGuard : Bool} {ss : List (List Char)}
    (hss : ∀ sep ∈ ss, sep ≠ []) : ∀ {p : List Char} {atoms : List (List Char)}, p ≠ [] →
    splitAtoms .chars budget overlap headerGuard ss p = .ok atoms → atoms.flatten = p := by
  induction ss with
  | nil =>
    intro p atoms hne h
    rcases splitAtoms_nil_cases h with ⟨-, rfl⟩ | h
    · exact List.append_nil p
    · exact hardWindows_flatten h0 hne h
  | cons sep ss ih =>
    intro p atoms hne h
    rcases splitAtoms_cons_cases h with ⟨-, rfl⟩ | h
    · exact List.append_nil p
    · have hss' : ∀ s ∈ ss, s ≠ [] := fun s hs => hss s (List.mem_cons_of_mem _ hs)
      rw [splitPieces_flatten (fun q sub hq hsub => ih hss' hq hsub) h, owned_flatten (hss sep List.mem_cons_self)]

theorem mergeFrom_flatten (h0 : stepBack overlap = 0) {m : Metric} {rest : List (List Char)} : ∀ {cur : List Char},
    (mergeFrom m budget overlap cur rest).flatten = cur ++ rest.flatten := by
  induction rest with
  | nil =>
    intro cur
    rfl
  | cons b rest ih =>
    intro cur
    unfold mergeFrom
    by_cases hjoin : (m.len (cur ++ b) : Limit) ≤ budget
    · rw [if_pos hjoin, ih, List.flatten_cons, List.append_assoc]
    · rw [if_neg hjoin, h0]
      simp only [overlapTail, if_true, List.nil_append, ite_self]
      rw [List.flatten_cons, ih, List.flatten_cons]

/-! ## Paragraphs -/

/-- In every word the windows are apart; a word has the separator in front of it. -/
def WordsApart (budget : ℚ) (overlap : Limit) (text : List Char) : Prop :=
  ∀ p ∈ words seps text, ∀ ws, hardWindows .chars budget overlap 0 p = .ok ws → ws.IsChain (Apart budget overlap)

theorem wordsApart_of_no_overlap (h0 : stepBack overlap = 0) : WordsApart budget overlap text := by
  intro p _ ws _
  refine (List.pairwise_of_forall fun a b => .inl ?_).isChain
  unfold overlapTail
  rw [if_pos h0]

/-- Words that are within the budget have one window. -/
theorem wordsApart_of_short (h : ∀ p ∈ words seps text, (p.length : ℚ) ≤ budget) : WordsApart budget overlap text := by
  intro p hp ws hws
  by_cases hnil : p = []
  · rw [hnil] at hws
    cases hws
    exact List.IsChain.nil
  · rcases hardWindows_cases hnil hws with hone | ⟨w, ws', -, -, -, hlt, hfull, -⟩
    · rw [hone]
      exact List.IsChain.singleton p
    · have hle := h p hp
      have hcast : (w.length : ℚ) + 1 ≤ p.length := by exact_mod_cast hlt
      linarith

theorem eq_ok_of_toOption {ε α : Type} {r : Except ε α} {a : α} (h : r.toOption = some a) : r = .ok a := by
  cases r with
  | error e => cases h
  | ok b =>
    cases h
    rfl

end Metalogos.Chunk
