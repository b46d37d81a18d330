import Metalogos.Template.Scan
import Mathlib.Algebra.GroupWithZero.Nat

/-!
# What the tokenizer keeps

The tokens of a source, with the text of every tag as it stands there (`Segment`), give the source back. The one place
where they do not is the rest of an unclosed tag: it is cut out by its character index read as a byte offset.
-/
namespace Metalogos.Template

open Metalogos.Lib
open Metalogos.Parser (Text lbrace rbrace)

/-! ## Tokens with their text -/

/-- A token before its content is trimmed. -/
inductive Segment where
  | text (t : Text)
  | tag (content : Text) (raw : Bool)
  deriving DecidableEq

def Segment.token : Segment → Token
  | .text t => .text t
  | .tag content raw => .tag (trim content) raw

def braceWidth (raw : Bool) : Nat := if raw then 3 else 2

/-- A token in its own braces. -/
def Segment.source : Segment → Text
  | .text t => t
  | .tag content raw => List.replicate (braceWidth raw) lbrace ++ content ++ List.replicate (braceWidth raw) rbrace

def sources (ps : List Segment) : Text := (ps.map Segment.source).flatten

def flushSegment (buf : Text) : List Segment := if buf = [] then [] else [.text buf]

/-- The loop of the tokenizer, with the contents as they are. -/
def segmentsFrom (src : Text) : (skip i : Nat) → (buf : Text) → Text → Option (List Segment)
  | _, _, buf, [] => some (flushSegment buf)
  | skip + 1, i, buf, _ :: t => segmentsFrom src skip (i + 1) buf t
  | 0, i, buf, c :: t =>
    match opening (c :: t) with
    | none => segmentsFrom src 0 (i + 1) (buf ++ [c]) t
    | some width =>
      match untilClose width ((c :: t).drop width) with
      | none => (byteSuffix i src).map fun rest => flushSegment buf ++ flushSegment rest
      | some content =>
        (segmentsFrom src (width + content.length + width - 1) (i + 1) [] t).map fun ps =>
          flushSegment buf ++ .tag content (width == 3) :: ps

def segments (src : Text) : Option (List Segment) := segmentsFrom src 0 0 [] src

theorem flush_eq (buf : Text) : flush buf = (flushSegment buf).map Segment.token := by
  unfold flush flushSegment
  split_ifs <;> rfl

theorem tokenizeFrom_eq (src : Text) : ∀ (t : Text) (skip i : Nat) (buf : Text),
    tokenizeFrom src skip i buf t = (segmentsFrom src skip i buf t).map (·.map Segment.token)
  | [], _, _, buf => by simp [tokenizeFrom, segmentsFrom, flush_eq]
  | _ :: t, skip + 1, i, buf => tokenizeFrom_eq src t skip (i + 1) buf
  | c :: t, 0, i, buf => by
    unfold tokenizeFrom segmentsFrom
    cases opening (c :: t) with
    | none => exact tokenizeFrom_eq src t 0 (i + 1) (buf ++ [c])
    | some width =>
      dsimp only
      cases untilClose width ((c :: t).drop width) with
      | none => simp [Option.map_map, Function.comp_def, flush_eq]
      | some content =>
        simp [tokenizeFrom_eq src t, Option.map_map, Function.comp_def, flush_eq, Segment.token]

theorem tokenize_eq (src : Text) : tokenize src = (segments src).map (·.map Segment.token) :=
  tokenizeFrom_eq src src 0 0 []

/-! ## Where a tag is not closed -/

/-- The character at which the loop meets braces that are not closed. -/
def unclosedFrom : (skip i : Nat) → Text → Option Nat
  | _, _, [] => none
  | skip + 1, i, _ :: t => unclosedFrom skip (i + 1) t
  | 0, i, c :: t =>
    match opening (c :: t) with
    | none => unclosedFrom 0 (i + 1) t
    | some width =>
      match untilClose width ((c :: t).drop width) with
      | none => some i
      | some content => unclosedFrom (width + content.length + width - 1) (i + 1) t

def unclosed (src : Text) : Option Nat := unclosedFrom 0 0 src

/-! ## Sources -/

theorem sources_append (ps qs : List Segment) : sources (ps ++ qs) = sources ps ++ sources qs := by
  simp [sources]

theorem sources_flush (buf : Text) : sources (flushSegment buf) = buf := by
  unfold flushSegment
  split_ifs with h
  · exact h.symm
  · simp [sources, Segment.source]

/-- An opening has the width of one kind of tag. -/
theorem opening_spec {t : Text} {width : Nat} (h : opening t = some width) :
    width = braceWidth (width == 3) ∧ List.replicate width lbrace <+: t := by
  unfold opening at h
  split_ifs at h with h3 h2
  · cases h
    exact ⟨rfl, h3⟩
  · cases h
    exact ⟨rfl, h2⟩

theorem untilClose_spec {width : Nat} : ∀ {t content : Text}, untilClose width t = some content →
    ∃ rest, t = content ++ List.replicate width rbrace ++ rest
  | [], _, h => by cases h
  | c :: t, content, h => by
    unfold untilClose at h
    split_ifs at h with hclose
    · obtain ⟨rest, hrest⟩ := hclose
      cases h
      exact ⟨rest, by simpa using hrest.symm⟩
    · obtain ⟨content', hc, rfl⟩ := Option.map_eq_some_iff.1 h
      obtain ⟨rest, hrest⟩ := untilClose_spec hc
      exact ⟨rest, by rw [hrest]; simp⟩

/-- A closed tag is its piece, followed by what the loop goes on with. -/
theorem tag_source {c : Char} {t content : Text} {width : Nat} (hopen : opening (c :: t) = some width)
    (hclose : untilClose width ((c :: t).drop width) = some content) :
    c :: t = (Segment.tag content (width == 3)).source ++ t.drop (width + content.length + width - 1) ∧
      (Segment.tag content (width == 3)).source.length = width + content.length + width ∧
      width + content.length + width - 1 ≤ t.length ∧ 0 < width := by
  obtain ⟨hwidth, body, hbody⟩ := opening_spec hopen
  obtain ⟨rest, hrest⟩ := untilClose_spec hclose
  have hdrop : (c :: t).drop width = body := by
    rw [← hbody, List.drop_left' (by simp)]
  rw [hdrop] at hrest
  have htext : c :: t = (Segment.tag content (width == 3)).source ++ rest := by
    rw [← hbody, hrest, Segment.source, ← hwidth]
    simp
  have hlen : (Segment.tag content (width == 3)).source.length = width + content.length + width := by
    rw [Segment.source, ← hwidth]
    simp [Nat.add_assoc]
  have hpos : 0 < width := by
    rw [hwidth, braceWidth]
    split_ifs <;> omega
  have htail : t.drop (width + content.length + width - 1) = rest := by
    have h : (c :: t).drop (width + content.length + width) = rest := by
      rw [htext, List.drop_left' hlen]
    obtain ⟨n, hn⟩ : ∃ n, width + content.length + width = n + 1 :=
      ⟨width + content.length + width - 1, by omega⟩
    rw [hn] at h ⊢
    simpa using h
  have hsum : (c :: t).length = width + content.length + width + rest.length := by
    rw [htext, List.length_append, hlen]
  refine ⟨by rw [htail]; exact htext, hlen, ?_, hpos⟩
  rw [List.length_cons] at hsum
  omega

/-- The loop keeps its buffer and the rest of the text, up to braces that are not closed. -/
theorem segmentsFrom_sources (src : Text) : ∀ (t : Text) (skip i : Nat) (buf : Text), skip ≤ t.length →
    match unclosedFrom skip i t with
    | none => ∃ ps, segmentsFrom src skip i buf t = some ps ∧ sources ps = buf ++ t.drop skip
    | some k => i + skip ≤ k ∧ k ≤ i + t.length ∧ ∃ ps,
        segmentsFrom src skip i buf t = (byteSuffix k src).map (ps ++ flushSegment ·) ∧
          sources ps = buf ++ (t.take (k - i)).drop skip
  | [], skip, i, buf, _ => by simp [unclosedFrom, segmentsFrom, sources_flush]
  | c :: t, skip + 1, i, buf, hskip => by
    have ih := segmentsFrom_sources src t skip (i + 1) buf (by simpa using hskip)
    unfold unclosedFrom segmentsFrom
    cases h : unclosedFrom skip (i + 1) t with
    | none =>
      rw [h] at ih
      exact ih
    | some k =>
      rw [h] at ih
      obtain ⟨hlo, hhi, ps, hps, hsrc⟩ := ih
      refine ⟨by omega, by rw [List.length_cons]; omega, ps, hps, ?_⟩
      obtain ⟨n, hn⟩ : ∃ n, k - i = n + 1 := ⟨k - i - 1, by omega⟩
      have hn' : k - (i + 1) = n := by omega
      rw [hsrc, hn, hn']
      simp
  | c :: t, 0, i, buf, _ => by
    unfold unclosedFrom segmentsFrom
    cases hopen : opening (c :: t) with
    | none =>
      have ih := segmentsFrom_sources src t 0 (i + 1) (buf ++ [c]) (Nat.zero_le _)
      dsimp only
      cases h : unclosedFrom 0 (i + 1) t with
      | none =>
        rw [h] at ih
        simpa using ih
      | some k =>
        rw [h] at ih
        obtain ⟨hlo, hhi, ps, hps, hsrc⟩ := ih
        refine ⟨by omega, by rw [List.length_cons]; omega, ps, hps, ?_⟩
        obtain ⟨n, hn⟩ : ∃ n, k - i = n + 1 := ⟨k - i - 1, by omega⟩
        have hn' : k - (i + 1) = n := by omega
        rw [hsrc, hn, hn']
        simp
    | some width =>
      dsimp only
      cases hclose : untilClose width ((c :: t).drop width) with
      | none => exact ⟨by omega, by omega, flushSegment buf, rfl, by simp [sources_flush]⟩
      | some content =>
        obtain ⟨htext, hlen, hskip, hpos⟩ := tag_source hopen hclose
        have ih := segmentsFrom_sources src t (width + content.length + width - 1) (i + 1) [] hskip
        dsimp only
        have htag (ps : List Segment) : sources (flushSegment buf ++ .tag content (width == 3) :: ps) =
            buf ++ (Segment.tag content (width == 3)).source ++ sources ps := by
          rw [sources_append, sources_flush]
          simp [sources]
        cases h : unclosedFrom (width + content.length + width - 1) (i + 1) t with
        | none =>
          rw [h] at ih
          obtain ⟨ps, hps, hsrc⟩ := ih
          refine ⟨_, by rw [hps]; rfl, ?_⟩
          rw [htag, hsrc, List.drop_zero, List.nil_append, List.append_assoc, ← htext]
        | some k =>
          rw [h] at ih
          obtain ⟨hlo, hhi, ps, hps, hsrc⟩ := ih
          have hlast : k ≤ i + (c :: t).length := by
            rw [List.length_cons]
            omega
          refine ⟨by omega, hlast, flushSegment buf ++ .tag content (width == 3) :: ps, ?_, ?_⟩
          · rw [hps, Option.map_map]
            simp [Function.comp_def]
          · have hle : (Segment.tag content (width == 3)).source.length ≤ k - i := by omega
            rw [htag, hsrc, List.nil_append, List.drop_zero, List.append_assoc]
            congr 1
            conv_rhs => rw [htext, List.take_append, List.take_of_length_le hle]
            rw [List.drop_take]
            congr 2
            omega

/-! ## Byte offsets -/

/-- Every character takes one byte. -/
def Ascii (t : Text) : Prop := ∀ c ∈ t, c.utf8Size = 1

theorem byteSuffix_drop : ∀ {k : Nat} {src rest : Text}, byteSuffix k src = some rest →
    ∃ m, m ≤ src.length ∧ rest = src.drop m ∧ ((src.take m).map Char.utf8Size).sum = k
  | 0, src, rest, h => by
    rw [byteSuffix.eq_def] at h
    cases h
    exact ⟨0, Nat.zero_le _, by simp, by simp⟩
  | k + 1, [], rest, h => by cases h
  | k + 1, c :: src, rest, h => by
    unfold byteSuffix at h
    split_ifs at h with hle
    have hdec : k + 1 - c.utf8Size < k + 1 := by
      have := c.utf8Size_pos
      omega
    obtain ⟨m, hm, hrest, hsum⟩ := byteSuffix_drop h
    refine ⟨m + 1, by simpa using hm, by simpa using hrest, ?_⟩
    rw [List.take_succ_cons, List.map_cons, List.sum_cons, hsum]
    omega
  termination_by k => k

theorem byteSuffix_ascii : ∀ {k : Nat} {src : Text}, k ≤ src.length → Ascii (src.take k) →
    byteSuffix k src = some (src.drop k)
  | 0, src, _, _ => by rw [byteSuffix.eq_def]; simp
  | k + 1, [], h, _ => by simp at h
  | k + 1, c :: src, h, hascii => by
    have hc : c.utf8Size = 1 := hascii c (by simp)
    unfold byteSuffix
    rw [hc, if_pos (by omega)]
    exact byteSuffix_ascii (by simpa using h) fun d hd => hascii d (List.mem_cons_of_mem _ hd)

theorem length_le_bytes : ∀ t : Text, t.length ≤ (t.map Char.utf8Size).sum
  | [] => Nat.le_refl 0
  | c :: t => by
    have ih := length_le_bytes t
    have hc := c.utf8Size_pos
    simp only [List.length_cons, List.map_cons, List.sum_cons]
    omega

theorem ascii_of_bytes : ∀ {t : Text}, (t.map Char.utf8Size).sum = t.length → Ascii t
  | [], _ => fun _ hc => absurd hc List.not_mem_nil
  | c :: t, h => by
    have hle := length_le_bytes t
    have hpos := c.utf8Size_pos
    simp only [List.length_cons, List.map_cons, List.sum_cons] at h
    intro d hd
    rcases List.mem_cons.1 hd with hd | hd
    · rw [hd]
      omega
    · exact ascii_of_bytes (by omega) d hd

/-- A character index is a byte offset only behind characters of one byte. -/
theorem byteSuffix_iff {k : Nat} {src : Text} (hk : k ≤ src.length) :
    byteSuffix k src = some (src.drop k) ↔ Ascii (src.take k) := by
  refine ⟨fun h => ?_, byteSuffix_ascii hk⟩
  obtain ⟨m, hm, hrest, hsum⟩ := byteSuffix_drop h
  have hkm : m = k := by
    have hlen := congrArg List.length hrest
    simp only [List.length_drop] at hlen
    omega
  subst hkm
  exact ascii_of_bytes (by rw [hsum, List.length_take, Nat.min_eq_left hm])

/-! ## The tokenizer -/

/-- The tokens are there, and their own texts in a row are the source. -/
def Lossless (src : Text) : Prop :=
  ∃ ps, segments src = some ps ∧ tokenize src = some (ps.map Segment.token) ∧ sources ps = src

/-- The tokenizer ends and keeps the source exactly when every tag it meets is closed, or the text before the first
one that is not has characters of one byte only. -/
theorem tokenize_lossless (src : Text) : Lossless src ↔ ∀ k, unclosed src = some k → Ascii (src.take k) := by
  have h := segmentsFrom_sources src src 0 0 [] (Nat.zero_le _)
  unfold Lossless unclosed
  rw [tokenize_eq, segments]
  cases hu : unclosedFrom 0 0 src with
  | none =>
    rw [hu] at h
    obtain ⟨ps, hps, hsrc⟩ := h
    exact ⟨fun _ => nofun, fun _ => ⟨ps, hps, by rw [hps]; rfl, by simpa using hsrc⟩⟩
  | some k =>
    rw [hu] at h
    obtain ⟨-, hk, ps, hps, hsrc⟩ := h
    have hk' : k ≤ src.length := by simpa using hk
    have hsources (rest : Text) : sources (ps ++ flushSegment rest) = src.take k ++ rest := by
      rw [sources_append, sources_flush, hsrc]
      simp
    have hiff : byteSuffix k src = some (src.drop k) ↔ Ascii (src.take k) := byteSuffix_iff hk'
    constructor
    · rintro ⟨qs, hqs, -, hq⟩ k' hk'
      cases hk'
      rw [hps] at hqs
      obtain ⟨rest, hrest, rfl⟩ := Option.map_eq_some_iff.1 hqs
      rw [hsources] at hq
      have htail : rest = src.drop k := by
        have := hq.trans (List.take_append_drop k src).symm
        exact List.append_cancel_left this
      exact hiff.1 (htail ▸ hrest)
    · intro hascii
      refine ⟨ps ++ flushSegment (src.drop k), ?_, ?_, ?_⟩
      · rw [hps, hiff.2 (hascii k rfl)]
        rfl
      · rw [hps, hiff.2 (hascii k rfl)]
        rfl
      · rw [hsources, List.take_append_drop]

/-- `é{{`: the rest from byte 1 on starts inside the `é`. -/
theorem tokenize_panics : ¬ ∀ src : Text, Lossless src := by
  intro h
  obtain ⟨ps, hps, -⟩ := h ['é', lbrace, lbrace]
  have hnone : segments ['é', lbrace, lbrace] = none := by decide
  rw [hnone] at hps
  cases hps

end Metalogos.Template
