import Mathlib.Data.Rat.Floor
import Metalogos.Lib.Text

/-!
# Cutting a text into chunks

`text_chunk` (`src/builtins/text_chunk.rs`): a piece that is over the budget is cut at blank lines, the parts that
are still over it at line ends, then at blanks, and a word that is over it into windows. Neighbours are joined
again while the budget lasts, and a chunk that is closed hands its tail on to the next one. A text is the list of
its characters. A limit is an `f64`: it is compared with lengths and a length is subtracted from it, which is exact
for what fits into memory.
-/
namespace Metalogos.Chunk

open Metalogos.Lib

/-- mirrors src/builtins/memory.rs:1152-1168 -/
def tokenCountEstimate (s : List Char) : ℚ :=
  if s = [] then 0
  else
    let cyrillicChars := s.countP fun c => 0x400 ≤ c.toNat && c.toNat ≤ 0x4FF
    let divisor : ℚ := if (1 : ℚ) / 2 ≤ (cyrillicChars : ℚ) / s.length then 2 else 4
    (⌈(s.length : ℚ) / divisor⌉ : ℤ)

inductive Metric where
  | chars
  | tokens
  deriving DecidableEq

/-- mirrors src/builtins/text_chunk.rs:57-64 -/
def Metric.len : Metric → List Char → ℚ
  | .chars, s => s.length
  | .tokens, s => tokenCountEstimate s

/-! ## Limits -/

/-- An `f64` that is no number, an infinity, or a number. -/
inductive Limit where
  | nan
  | infinite (negative : Bool)
  | finite (q : ℚ)
  deriving DecidableEq

namespace Limit

instance : Coe ℚ Limit := ⟨finite⟩

instance (n : ℕ) : OfNat Limit n := ⟨finite n⟩

/-- What is no number is not below anything, and not above. -/
def le : Limit → Limit → Bool
  | nan, _ => false
  | _, nan => false
  | infinite true, _ => true
  | _, infinite false => true
  | finite a, finite b => decide (a ≤ b)
  | _, _ => false

def lt (a b : Limit) : Bool := a ≠ nan && b ≠ nan && !b.le a

instance : LE Limit := ⟨fun a b => a.le b⟩

instance : LT Limit := ⟨fun a b => a.lt b⟩

instance (a b : Limit) : Decidable (a ≤ b) := inferInstanceAs (Decidable (a.le b = true))

instance (a b : Limit) : Decidable (a < b) := inferInstanceAs (Decidable (a.lt b = true))

def sub : Limit → Limit → Limit
  | nan, _ => nan
  | _, nan => nan
  | infinite a, infinite b => if a = b then nan else infinite a
  | infinite a, finite _ => infinite a
  | finite _, infinite b => infinite !b
  | finite a, finite b => finite (a - b)

instance : Sub Limit := ⟨sub⟩

variable {a b : ℚ} {l : Limit}

@[simp] theorem finite_le_finite : (a : Limit) ≤ b ↔ a ≤ b := decide_eq_true_iff

@[simp] theorem finite_lt_finite : (a : Limit) < b ↔ a < b := by
  show (true && true && !decide (b ≤ a)) = true ↔ a < b
  simp

@[simp] theorem finite_sub_finite : (a : Limit) - b = ((a - b : ℚ) : Limit) := rfl

@[simp] theorem not_le_nan : ¬ l ≤ nan := by
  cases l with
  | infinite negative => cases negative <;> exact Bool.false_ne_true
  | _ => exact Bool.false_ne_true

@[simp] theorem not_nan_le : ¬ nan ≤ l := Bool.false_ne_true

@[simp] theorem not_nan_lt : ¬ nan < l := Bool.false_ne_true

@[simp] theorem not_lt_nan : ¬ l < nan := by
  show ¬ (decide (l ≠ nan) && decide (nan ≠ nan) && !nan.le l) = true
  simp

@[simp] theorem finite_le_infinity : (a : Limit) ≤ infinite false := rfl

@[simp] theorem not_finite_lt_negative : ¬ (a : Limit) < infinite true := Bool.false_ne_true

/-- Two numbers are below one another or not. -/
theorem finite_lt_of_not_le (hl : l ≠ nan) (h : ¬ l ≤ a) : (a : Limit) < l := by
  have hle : l.le a = false := Bool.eq_false_iff.2 h
  show (decide ((a : Limit) ≠ nan) && decide (l ≠ nan) && !l.le a) = true
  simp [hl, hle]

theorem finite_le_of_lt (h : (a : Limit) < l) : (a : Limit) ≤ l := by
  cases l with
  | nan => exact absurd h not_lt_nan
  | infinite negative =>
    cases negative with
    | false => exact finite_le_infinity
    | true => exact absurd h not_finite_lt_negative
  | finite b => exact finite_le_finite.2 (finite_lt_finite.1 h).le

end Limit

structure ChunkOpts where
  maxChars : Limit := 1200
  overlap : Limit := 100
  maxTokens : Option Limit := none

/-- The errors, with the numbers and the text that their messages show. -/
inductive ChunkError where
  | maxCharsNotPositive (got : Limit)
  | overlapNegative (got : Limit)
  | overlapNotBelowMaxChars (overlap maxChars : Limit)
  | maxTokensNotPositive (got : Limit)
  | overlapNotBelowMaxTokens (overlap maxTokens : Limit)
  | unknownStrategy (other : String)
  | headerTorn (len : ℚ) (start : List Char)
  | headerTooLong (len : ℚ) (budget : Limit) (start : List Char)
  | budgetTooSmall

/-- mirrors src/builtins/text_chunk.rs:117-154 -/
def validate (o : ChunkOpts) : Except ChunkError (Metric × Limit × Limit) :=
  if o.maxChars ≤ 0 then .error (.maxCharsNotPositive o.maxChars)
  else if o.overlap < 0 then .error (.overlapNegative o.overlap)
  else if o.maxChars ≤ o.overlap then .error (.overlapNotBelowMaxChars o.overlap o.maxChars)
  else match o.maxTokens with
    | none => .ok (.chars, o.maxChars, o.overlap)
    | some t =>
      if t ≤ 0 then .error (.maxTokensNotPositive t)
      else if t ≤ o.overlap then .error (.overlapNotBelowMaxTokens o.overlap t)
      else .ok (.tokens, t, o.overlap)

/-- mirrors src/builtins/text_chunk.rs:163-167 -/
def isHeaderLine (s : List Char) : Bool :=
  let t := s.dropWhile isWhite
  let hashes := (t.takeWhile (· = '#')).length
  1 ≤ hashes && hashes ≤ 3 && [' '].isPrefixOf (t.drop hashes)

/-! ## Pieces -/

def consHead (c : Char) : List (List Char) → List (List Char)
  | [] => [[c]]
  | p :: ps => (c :: p) :: ps

/-- `str::split`; `skip` characters of a separator are still to be passed. -/
def splitStr (sep : List Char) : Nat → List Char → List (List Char)
  | _, [] => [[]]
  | skip + 1, _ :: cs => splitStr sep skip cs
  | 0, c :: cs =>
    if sep.isPrefixOf (c :: cs) then [] :: splitStr sep (sep.length - 1) cs else consHead c (splitStr sep 0 cs)

/-- Each piece but the first keeps the separator in front of it. -/
def owned (sep text : List Char) : List (List Char) :=
  match splitStr sep 0 text with
  | [] => []
  | p :: ps => p :: ps.map (sep ++ ·)

/-- Every piece that is not empty, in turn. -/
def splitPieces (f : List Char → Except ChunkError (List (List Char))) :
    List (List Char) → Except ChunkError (List (List Char))
  | [] => .ok []
  | p :: ps =>
    if p = [] then splitPieces f ps
    else match f p with
      | .error e => .error e
      | .ok sub =>
        match splitPieces f ps with
        | .error e => .error e
        | .ok rest => .ok (sub ++ rest)

section

variable (m : Metric) (budget overlap : Limit)

/-- The inner loop of `hard_windows`: the window grows until it breaks the budget. -/
def grow : List Char → List Char → List Char
  | w, [] => w
  | w, c :: cs => if budget < m.len (w ++ [c]) then w else grow (w ++ [c]) cs

/-- `overlap.max(0.0) as usize`; `max` passes over what is no number. -/
def stepBack : Nat :=
  match overlap with
  | .nan => 0
  | .infinite negative => if negative then 0 else 2 ^ 64 - 1
  | .finite q => min (max q 0).floor.toNat (2 ^ 64 - 1)

/-- Windows; `skip` characters lie between here and the start of the next one.
mirrors src/builtins/text_chunk.rs:221-259 -/
def hardWindows : Nat → List Char → Except ChunkError (List (List Char))
  | _, [] => .ok []
  | skip + 1, _ :: cs => hardWindows skip cs
  | 0, c :: cs =>
    let w := grow m budget [] (c :: cs)
    if w = [] then .error .budgetTooSmall
    else if (c :: cs).length ≤ w.length then .ok [w]
    -- at least one character is passed
    else match hardWindows (max (w.length - stepBack overlap) 1 - 1) cs with
      | .error e => .error e
      | .ok ws => .ok (w :: ws)

/-- mirrors src/builtins/text_chunk.rs:173-217 -/
def splitAtoms (headerGuard : Bool) : List (List Char) → List Char → Except ChunkError (List (List Char))
  | [] => fun text =>
    if m.len text ≤ budget then .ok [text]
    else if headerGuard && isHeaderLine text && !decide ('\n' ∈ text) then
      .error (.headerTorn (m.len text) (text.take 60))
    else hardWindows m budget overlap 0 text
  | sep :: rest => fun text =>
    if m.len text ≤ budget then .ok [text]
    else splitPieces (splitAtoms headerGuard rest) (owned sep text)

/-- mirrors src/builtins/text_chunk.rs:303-314 -/
def overlapTail (chunk : List Char) (stepBack : Nat) : List Char :=
  if stepBack = 0 then []
  else
    let tail := chunk.drop (chunk.length - stepBack)
    match tail.idxOf? ' ' with
    | some pos => tail.drop (pos + 1)
    | none => tail

/-- The loop of `merge_atoms`, with the open chunk. -/
def mergeFrom : List Char → List (List Char) → List (List Char)
  | cur, [] => [cur]
  | cur, a :: atoms =>
    if m.len (cur ++ a) ≤ budget then mergeFrom (cur ++ a) atoms
    else
      let carry := overlapTail cur (stepBack overlap)
      cur :: mergeFrom (if m.len (carry ++ a) ≤ budget then carry ++ a else a) atoms

/-- mirrors src/builtins/text_chunk.rs:268-299 -/
def mergeAtoms : List (List Char) → List (List Char)
  | [] => []
  | a :: atoms => mergeFrom m budget overlap a atoms

def seps : List (List Char) := [['\n', '\n'], ['\n'], [' ']]

/-- mirrors src/builtins/text_chunk.rs:430-440 -/
def chunkParagraph (text : List Char) : Except ChunkError (List (List Char)) :=
  match splitAtoms m budget overlap false seps text with
  | .error e => .error e
  | .ok atoms => .ok (mergeAtoms m budget overlap atoms)

/-- mirrors src/builtins/text_chunk.rs:443-451 -/
def chunkFixed (text : List Char) : Except ChunkError (List (List Char)) := hardWindows m budget overlap 0 text

end

/-! ### What a result says about the call -/

section

variable {m : Metric} {budget overlap : Limit}

theorem splitPieces_cases {f : List Char → Except ChunkError (List (List Char))} {p : List Char}
    {ps atoms : List (List Char)} (h : splitPieces f (p :: ps) = .ok atoms) :
    (p = [] ∧ splitPieces f ps = .ok atoms) ∨
      (p ≠ [] ∧ ∃ sub rest, f p = .ok sub ∧ splitPieces f ps = .ok rest ∧ atoms = sub ++ rest) := by
  unfold splitPieces at h
  by_cases hp : p = []
  · rw [if_pos hp] at h
    exact .inl ⟨hp, h⟩
  · rw [if_neg hp] at h
    cases hsub : f p with
    | error e => rw [hsub] at h; cases h
    | ok sub =>
      cases hrest : splitPieces f ps with
      | error e => rw [hsub, hrest] at h; cases h
      | ok rest =>
        rw [hsub, hrest] at h
        cases h
        exact .inr ⟨hp, sub, rest, rfl, rfl, rfl⟩

theorem splitAtoms_nil_cases {headerGuard : Bool} {text : List Char} {atoms : List (List Char)}
    (h : splitAtoms m budget overlap headerGuard [] text = .ok atoms) :
    (m.len text ≤ budget ∧ atoms = [text]) ∨ hardWindows m budget overlap 0 text = .ok atoms := by
  simp only [splitAtoms] at h
  by_cases hfits : m.len text ≤ budget
  · rw [if_pos hfits] at h
    cases h
    exact .inl ⟨hfits, rfl⟩
  · rw [if_neg hfits] at h
    by_cases hguard : (headerGuard && isHeaderLine text && !decide ('\n' ∈ text)) = true
    · rw [if_pos hguard] at h
      cases h
    · rw [if_neg hguard] at h
      exact .inr h

theorem splitAtoms_cons_cases {headerGuard : Bool} {sep text : List Char} {ss atoms : List (List Char)}
    (h : splitAtoms m budget overlap headerGuard (sep :: ss) text = .ok atoms) :
    (m.len text ≤ budget ∧ atoms = [text]) ∨
      splitPieces (splitAtoms m budget overlap headerGuard ss) (owned sep text) = .ok atoms := by
  simp only [splitAtoms] at h
  by_cases hfits : m.len text ≤ budget
  · rw [if_pos hfits] at h
    cases h
    exact .inl ⟨hfits, rfl⟩
  · rw [if_neg hfits] at h
    exact .inr h

theorem chunkParagraph_cases {text : List Char} {chunks : List (List Char)}
    (h : chunkParagraph m budget overlap text = .ok chunks) : ∃ atoms,
    splitAtoms m budget overlap false seps text = .ok atoms ∧ chunks = mergeAtoms m budget overlap atoms := by
  unfold chunkParagraph at h
  cases hatoms : splitAtoms m budget overlap false seps text with
  | error e => rw [hatoms] at h; cases h
  | ok atoms =>
    rw [hatoms] at h
    cases h
    exact ⟨atoms, rfl, rfl⟩

end

/-! ## Sections -/

structure Section where
  headerPath : List Char
  lines : List (List Char)

/-- The header line, if the section has one. -/
def Section.header (sec : Section) : Option (List Char) :=
  match sec.lines with
  | [] => none
  | h :: _ => if isHeaderLine h then some h else none

/-- The titles that are open, once a header of this level is read: those below it are closed. -/
def pushTitle (stack : List (Option (List Char))) (level : Nat) (title : List Char) : List (Option (List Char)) :=
  stack.take (level - 1) ++ some title :: List.replicate (3 - level) none

/-- The loop over the lines, with the titles that are open and the section that is.
mirrors src/builtins/text_chunk.rs:337-366 -/
def sectionsFrom : List (Option (List Char)) → Option Section → List (List Char) → List Section
  | _, cur, [] => cur.toList
  | stack, cur, line :: rest =>
    if isHeaderLine line then
      let t := line.dropWhile isWhite
      let level := (t.takeWhile (· = '#')).length
      let stack' := pushTitle stack level (trim (t.drop level))
      cur.toList ++
        sectionsFrom stack' (some ⟨[' ', '>', ' '].intercalate ((stack'.take level).filterMap id), [line]⟩) rest
    else match cur with
      | some sec => sectionsFrom stack (some { sec with lines := sec.lines ++ [line] }) rest
      | none => sectionsFrom stack (some ⟨[], [line]⟩) rest

/-- mirrors src/builtins/text_chunk.rs:328-373 -/
def sections (text : List Char) : List Section :=
  match sectionsFrom [none, none, none] none (lines text) with
  | [] => [⟨[], [[]]⟩]
  | secs => secs

/-- The header line goes in front of the first chunk of the body. -/
def withHeader (h : List Char) : List (List Char) → List (List Char)
  | [] => [h]
  | first :: rest => (if h.isPrefixOf first then first else h ++ '\n' :: first) :: rest

/-- The chunks of one section.
mirrors src/builtins/text_chunk.rs:380-424 -/
def sectionChunks (m : Metric) (budget overlap : Limit) (sec : Section) : Except ChunkError (List (List Char)) :=
  let joined := ['\n'].intercalate sec.lines
  if m.len joined ≤ budget then .ok [joined]
  else match sec.header with
    | none =>
      match splitAtoms m budget overlap true seps joined with
      | .error e => .error e
      | .ok atoms => .ok (mergeAtoms m budget overlap atoms)
    | some h =>
      let hLen := m.len h + 1
      if budget < hLen then .error (.headerTooLong hLen budget (h.take 60))
      else
        let bodyBudget := budget - m.len h - 1
        match splitAtoms m bodyBudget overlap true seps (['\n'].intercalate (sec.lines.drop 1)) with
        | .error e => .error e
        | .ok atoms => .ok (withHeader h (mergeAtoms m bodyBudget overlap atoms))

/-- mirrors src/builtins/text_chunk.rs:375-426 -/
def chunkSections (m : Metric) (budget overlap : Limit) : List Section → Except ChunkError (List (List Char × List Char))
  | [] => .ok []
  | sec :: secs =>
    match sectionChunks m budget overlap sec with
    | .error e => .error e
    | .ok chunks =>
      match chunkSections m budget overlap secs with
      | .error e => .error e
      | .ok rest => .ok (chunks.map (fun c => (sec.headerPath, c)) ++ rest)

/-- mirrors src/builtins/text_chunk.rs:321-426 -/
def chunkMarkdown (m : Metric) (budget overlap : Limit) (text : List Char) : Except ChunkError (List (List Char × List Char)) :=
  chunkSections m budget overlap (sections text)

/-- A section is one chunk, or it is cut: as a whole, or behind its header line. -/
theorem sectionChunks_cases {m : Metric} {budget overlap : Limit} {sec : Section} {chunks : List (List Char)}
    (h : sectionChunks m budget overlap sec = .ok chunks) :
    (m.len (['\n'].intercalate sec.lines) ≤ budget ∧ chunks = [['\n'].intercalate sec.lines]) ∨
    (sec.header = none ∧ ∃ atoms, splitAtoms m budget overlap true seps (['\n'].intercalate sec.lines) = .ok atoms ∧
      chunks = mergeAtoms m budget overlap atoms) ∨
    ∃ header atoms, sec.header = some header ∧ ¬ budget < ((m.len header + 1 : ℚ) : Limit) ∧
      splitAtoms m (budget - m.len header - 1) overlap true seps (['\n'].intercalate (sec.lines.drop 1)) = .ok atoms ∧
      chunks = withHeader header (mergeAtoms m (budget - m.len header - 1) overlap atoms) := by
  simp only [sectionChunks] at h
  by_cases hfits : m.len (['\n'].intercalate sec.lines) ≤ budget
  · rw [if_pos hfits] at h
    cases h
    exact .inl ⟨hfits, rfl⟩
  · rw [if_neg hfits] at h
    cases hheader : sec.header with
    | none =>
      rw [hheader] at h
      cases hatoms : splitAtoms m budget overlap true seps (['\n'].intercalate sec.lines) with
      | error e => simp only [hatoms] at h; cases h
      | ok atoms =>
        simp only [hatoms] at h
        cases h
        exact .inr (.inl ⟨rfl, atoms, rfl, rfl⟩)
    | some header =>
      rw [hheader] at h
      by_cases hlong : budget < ((m.len header + 1 : ℚ) : Limit)
      · simp only [if_pos hlong] at h
        cases h
      · simp only [if_neg hlong] at h
        cases hatoms : splitAtoms m (budget - m.len header - 1) overlap true seps
            (['\n'].intercalate (sec.lines.drop 1)) with
        | error e => simp only [hatoms] at h; cases h
        | ok atoms =>
          simp only [hatoms] at h
          cases h
          exact .inr (.inr ⟨header, atoms, rfl, hlong, hatoms, rfl⟩)

theorem chunkSections_cases {m : Metric} {budget overlap : Limit} {sec : Section} {secs : List Section}
    {chunks : List (List Char × List Char)} (h : chunkSections m budget overlap (sec :: secs) = .ok chunks) :
    ∃ part rest, sectionChunks m budget overlap sec = .ok part ∧ chunkSections m budget overlap secs = .ok rest ∧
      chunks = part.map (fun c => (sec.headerPath, c)) ++ rest := by
  unfold chunkSections at h
  cases hpart : sectionChunks m budget overlap sec with
  | error e => rw [hpart] at h; cases h
  | ok part =>
    cases hrest : chunkSections m budget overlap secs with
    | error e => rw [hpart, hrest] at h; cases h
    | ok rest =>
      rw [hpart, hrest] at h
      cases h
      exact ⟨part, rest, rfl, rfl, rfl⟩

/-! ## The builtin -/

structure TextChunk where
  index : Nat
  text : List Char
  chars : Nat
  tokens : ℚ
  headerPath : Option (List Char)

def textChunkOf (isMarkdown : Bool) (c : (List Char × List Char) × Nat) : TextChunk :=
  ⟨c.2, c.1.2, c.1.2.length, tokenCountEstimate c.1.2, if isMarkdown then some c.1.1 else none⟩

/-- The chunks with their header paths; without sections the path is empty. -/
def chunksOf (m : Metric) (budget overlap : Limit) (text : List Char) (strategy : String) :
    Except ChunkError (List (List Char × List Char)) :=
  let plain (chunks : Except ChunkError (List (List Char))) : Except ChunkError (List (List Char × List Char)) :=
    match chunks with
    | .error e => .error e
    | .ok chunks => .ok (chunks.map fun c => ([], c))
  if strategy = "markdown" then if text = [] then .ok [([], [])] else chunkMarkdown m budget overlap text
  else if strategy = "paragraph" then if text = [] then .ok [([], [])] else plain (chunkParagraph m budget overlap text)
  else if strategy = "fixed" then if text = [] then .ok [([], [])] else plain (chunkFixed m budget overlap text)
  else .error (.unknownStrategy strategy)

/-- mirrors src/builtins/text_chunk.rs:455-548 -/
def textChunk (text : List Char) (strategy : String) (o : ChunkOpts) : Except ChunkError (List TextChunk) :=
  match validate o with
  | .error e => .error e
  | .ok (m, budget, overlap) =>
    match chunksOf m budget overlap text strategy with
    | .error e => .error e
    | .ok chunks => .ok (chunks.zipIdx.map (textChunkOf (strategy = "markdown")))

end Metalogos.Chunk
