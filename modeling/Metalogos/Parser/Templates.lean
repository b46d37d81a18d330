import Mathlib.Data.List.Basic
import Mathlib.Data.List.TakeWhile
import Mathlib.Algebra.Group.Nat.Defs
/-!
# The template pre-pass (`src/parser/helpers.rs`)

Before pest runs, `preprocess_templates` looks for the word `template` in the
source, keeps the next block of balanced braces aside under a placeholder
`__TEMPLATE_BODY_<n>__` and puts the placeholder in its place. The two searches
(the word, the opening brace) share one lexical walk that steps over comments
and string literals, `next_code_occurrence`; the body itself is counted raw.

A source text is its list of characters, and a position in it a split. All the
comparisons of the source are against ASCII bytes, so the byte offsets of the
Rust code and these splits step alike.
-/
namespace Metalogos.Parser

abbrev Text := List Char

def lbrace : Char := '\x7b'
def rbrace : Char := '\x7d'

/-! ## The lexical walk -/

/-- The rest of a `"""` literal up to and with its closing quotes; it has no
escapes. -/
def untilTriple : Text → Option (Text × Text)
  | '"' :: '"' :: '"' :: r => some (['"', '"', '"'], r)
  | c :: r => (untilTriple r).map fun p => (c :: p.1, p.2)
  | [] => none

/-- The rest of a `"` literal up to and with its closing quote: a backslash
takes the character after it along. -/
def untilQuote : Text → Option (Text × Text)
  | '\\' :: c :: r => (untilQuote r).map fun p => ('\\' :: c :: p.1, p.2)
  | '"' :: r => some (['"'], r)
  | c :: r => (untilQuote r).map fun p => (c :: p.1, p.2)
  | [] => none

/-- A `//` comment ends before the line break. -/
def inLine (c : Char) : Bool := c != '\n' && c != '\r'

/-- What stands at a position that is in code. -/
inductive Lexeme where
  | eof
  | unclosed
  | literal (item rest : Text)
  | plain (c : Char) (rest : Text)

/-- A comment, a literal or one character of code: the arms of the `match
bytes[i]` of src/parser/helpers.rs:112-174. -/
def lexeme : Text → Lexeme
  | [] => .eof
  | '/' :: '/' :: r => .literal ('/' :: '/' :: r.takeWhile inLine) (r.dropWhile inLine)
  | '"' :: '"' :: '"' :: r =>
    match untilTriple r with
    | none => .unclosed
    | some (s, r') => .literal ('"' :: '"' :: '"' :: s) r'
  | '"' :: r =>
    match untilQuote r with
    | none => .unclosed
    | some (s, r') => .literal ('"' :: s) r'
  | c :: r => .plain c r

theorem untilTriple_split : ∀ (t : Text) {s r : Text}, untilTriple t = some (s, r) → s ++ r = t := by
  intro t
  induction t using untilTriple.induct with
  | case1 r =>
    intro s r' h
    simp only [untilTriple, Option.some.injEq, Prod.mk.injEq] at h
    rw [← h.1, ← h.2]
    rfl
  | case2 c r hne ih =>
    intro s r' h
    rw [untilTriple] at h
    · obtain ⟨p, hp, he⟩ := Option.map_eq_some_iff.mp h
      cases he
      simp [ih hp]
    · exact hne
  | case3 =>
    intro s r' h
    cases h

theorem untilQuote_split : ∀ (t : Text) {s r : Text}, untilQuote t = some (s, r) → s ++ r = t := by
  intro t
  induction t using untilQuote.induct with
  | case1 c r ih =>
    intro s r' h
    rw [untilQuote] at h
    obtain ⟨p, hp, he⟩ := Option.map_eq_some_iff.mp h
    cases he
    simp [ih hp]
  | case2 r =>
    intro s r' h
    simp only [untilQuote, Option.some.injEq, Prod.mk.injEq] at h
    rw [← h.1, ← h.2]
    rfl
  | case3 c r hne hq ih =>
    intro s r' h
    rw [untilQuote] at h
    · obtain ⟨p, hp, he⟩ := Option.map_eq_some_iff.mp h
      cases he
      simp [ih hp]
    · exact hne
    · exact hq
  | case4 =>
    intro s r' h
    cases h

theorem lexeme_literal {t item r : Text} (h : lexeme t = .literal item r) :
    item ≠ [] ∧ item ++ r = t := by
  unfold lexeme at h
  split at h
  · cases h
  · cases h
    simp
  · split at h
    · cases h
    · rename_i hu
      cases h
      simp [untilTriple_split _ hu]
  · split at h
    · cases h
    · rename_i hu
      cases h
      simp [untilQuote_split _ hu]
  · cases h

theorem lexeme_plain {t r : Text} {c : Char} (h : lexeme t = .plain c r) : t = c :: r := by
  unfold lexeme at h
  split at h
  · cases h
  · cases h
  · split at h <;> cases h
  · split at h <;> cases h
  · cases h
    rfl

theorem lexeme_literal_lt {t item r : Text} (h : lexeme t = .literal item r) :
    r.length < t.length := by
  obtain ⟨hne, rfl⟩ := lexeme_literal h
  have := List.length_pos_iff.mpr hne
  simp only [List.length_append]
  omega

theorem lexeme_plain_lt {t r : Text} {c : Char} (h : lexeme t = .plain c r) :
    r.length < t.length := by
  simp [lexeme_plain h]

/-! ## `next_code_occurrence` -/

/-- The identifier guard is for an alphabetic needle only. -/
def identGuardApplies (needle : Text) : Bool := needle.head?.any Char.isAlpha

def prevIsAlnum (prev : Option Char) : Bool := prev.any Char.isAlphanum

def nextIsIdent (needle rest : Text) : Bool :=
  (rest.drop needle.length).head?.any fun c => c.isAlphanum || c == '_'

/-- The occurrence is a part of a longer identifier, as far as the guard sees. -/
def guarded (needle : Text) (prev : Option Char) (rest : Text) : Bool :=
  identGuardApplies needle && (prevIsAlnum prev || nextIsIdent needle rest)

/-- mirrors src/parser/helpers.rs:99-176: the text walked over and the text from
the occurrence on. -/
def nextCodeOccurrence (needle : Text) (prev : Option Char) (rest : Text) : Option (Text × Text) :=
  match _h : lexeme rest with
  | .eof => none
  | .unclosed => none
  | .literal item r => (nextCodeOccurrence needle item.getLast? r).map fun p => (item ++ p.1, p.2)
  | .plain c r =>
    if needle.isPrefixOf rest && !guarded needle prev rest then some ([], rest)
    else (nextCodeOccurrence needle (some c) r).map fun p => (c :: p.1, p.2)
termination_by rest.length
decreasing_by
  · exact lexeme_literal_lt _h
  · exact lexeme_plain_lt _h

theorem nextCodeOccurrence_end {needle rest : Text} {prev : Option Char}
    (hl : lexeme rest = .eof ∨ lexeme rest = .unclosed) :
    nextCodeOccurrence needle prev rest = none := by
  rw [nextCodeOccurrence]
  split <;> simp_all

theorem nextCodeOccurrence_literal {needle rest item r : Text} {prev : Option Char}
    (hl : lexeme rest = .literal item r) :
    nextCodeOccurrence needle prev rest =
      (nextCodeOccurrence needle item.getLast? r).map fun p => (item ++ p.1, p.2) := by
  rw [nextCodeOccurrence]
  split <;> simp_all

theorem nextCodeOccurrence_plain {needle rest r : Text} {prev : Option Char} {c : Char}
    (hl : lexeme rest = .plain c r) :
    nextCodeOccurrence needle prev rest =
      if needle.isPrefixOf rest && !guarded needle prev rest then some ([], rest)
      else (nextCodeOccurrence needle (some c) r).map fun p => (c :: p.1, p.2) := by
  rw [nextCodeOccurrence]
  split <;> simp_all

/-- The walk keeps the text, and stops at an occurrence of the needle. -/
theorem nextCodeOccurrence_spec (needle : Text) (prev : Option Char) (rest : Text) : ∀ {lead r},
    nextCodeOccurrence needle prev rest = some (lead, r) → lead ++ r = rest ∧ needle <+: r := by
  induction prev, rest using nextCodeOccurrence.induct needle with
  | case1 prev rest hl =>
    intro lead r h
    rw [nextCodeOccurrence_end (.inl hl)] at h
    cases h
  | case2 prev rest hl =>
    intro lead r h
    rw [nextCodeOccurrence_end (.inr hl)] at h
    cases h
  | case3 prev rest item r' hl ih =>
    intro lead r h
    rw [nextCodeOccurrence_literal hl] at h
    obtain ⟨p, hp, he⟩ := Option.map_eq_some_iff.mp h
    cases he
    obtain ⟨hs, hpre⟩ := ih hp
    exact ⟨by rw [List.append_assoc, hs, (lexeme_literal hl).2], hpre⟩
  | case4 prev rest c r' hl hc =>
    intro lead r h
    rw [nextCodeOccurrence_plain hl, if_pos hc] at h
    cases h
    exact ⟨rfl, List.isPrefixOf_iff_prefix.mp (Bool.and_eq_true _ _ ▸ hc).1⟩
  | case5 prev rest c r' hl hc ih =>
    intro lead r h
    rw [nextCodeOccurrence_plain hl, if_neg hc] at h
    obtain ⟨p, hp, he⟩ := Option.map_eq_some_iff.mp h
    cases he
    obtain ⟨hs, hpre⟩ := ih hp
    exact ⟨by rw [List.cons_append, hs, lexeme_plain hl], hpre⟩

/-! ## `preprocess_templates` -/

def keyword : Text := ['t', 'e', 'm', 'p', 'l', 'a', 't', 'e']

/-- The raw brace count over `result[abs_brace..]`: the text before the brace
that brings the depth back to 0, and the text after it. The source counts in an `i32`, which
only a body of more than `2 ^ 31` open braces outgrows; here the count has no bound. -/
def closing (depth : Nat) : Text → Option (Text × Text)
  | [] => none
  | c :: r =>
    if c = lbrace then (closing (depth + 1) r).map fun p => (c :: p.1, p.2)
    else if c = rbrace then
      if depth - 1 = 0 then some ([], r)
      else (closing (depth - 1) r).map fun p => (c :: p.1, p.2)
    else (closing depth r).map fun p => (c :: p.1, p.2)

theorem closing_split : ∀ (t : Text) (depth : Nat) {s r : Text}, closing depth t = some (s, r) →
    s ++ rbrace :: r = t := by
  intro t
  induction t with
  | nil =>
    intro depth s r h
    cases h
  | cons c t ih =>
    intro depth s r h
    rw [closing] at h
    split at h
    · obtain ⟨p, hp, he⟩ := Option.map_eq_some_iff.mp h
      cases he
      simp [ih _ hp]
    · split at h
      · rename_i hc
        split at h
        · cases h
          simp [hc]
        · obtain ⟨p, hp, he⟩ := Option.map_eq_some_iff.mp h
          cases he
          simp [ih _ hp]
      · obtain ⟨p, hp, he⟩ := Option.map_eq_some_iff.mp h
        cases he
        simp [ih _ hp]

/-- A block of braces after the keyword: the text before it, what it encloses and
what follows it. -/
structure Block where
  header : Text
  body : Text
  tail : Text
  deriving DecidableEq, Repr

/-- The text of a block from the keyword on. -/
def Block.text (b : Block) : Text :=
  keyword ++ b.header ++ lbrace :: (b.body ++ rbrace :: b.tail)

/-- The block after the keyword that `rest` starts with: its first brace in code,
closed by the raw count. -/
def blockAfter (rest : Text) : Option Block :=
  match nextCodeOccurrence [lbrace] keyword.getLast? (rest.drop keyword.length) with
  | none => none
  | some (header, r) =>
    match closing 0 r with
    | none => none
    | some (opened, tail) => some ⟨header, opened.drop 1, tail⟩

theorem blockAfter_text {rest : Text} {b : Block} (hk : keyword <+: rest)
    (h : blockAfter rest = some b) : b.text = rest := by
  unfold blockAfter at h
  split at h
  · cases h
  · rename_i header r hn
    split at h
    · cases h
    · rename_i opened tail hc
      cases h
      obtain ⟨hs, hpre⟩ := nextCodeOccurrence_spec _ _ _ hn
      obtain ⟨r', rfl⟩ := hpre
      rw [List.singleton_append] at hc hs
      have hcl := closing_split _ _ hc
      cases opened with
      | nil =>
        have hbr : rbrace = lbrace := by simpa using (List.cons.inj hcl).1
        exact absurd hbr (by decide)
      | cons o os =>
        obtain ⟨rfl, hr⟩ : o = lbrace ∧ os ++ rbrace :: tail = r' := List.cons.inj hcl
        obtain ⟨u, rfl⟩ := hk
        rw [List.drop_left] at hs
        simp only [Block.text, List.drop_succ_cons, List.drop_zero, List.append_assoc]
        rw [hr, hs]

/-- One turn of the `while` loop of src/parser/helpers.rs:195-250. -/
inductive Turn where
  /-- no further keyword: the loop ends -/
  | done
  /-- a keyword without a block: the search goes on one character further -/
  | word (lead tail : Text)
  /-- a block to replace -/
  | block (lead : Text) (b : Block)

def turn (prev : Option Char) (rest : Text) : Turn :=
  match nextCodeOccurrence keyword prev rest with
  | none => .done
  | some (lead, r) =>
    match blockAfter r with
    | none => .word (lead ++ r.take 1) (r.drop 1)
    | some b => .block lead b

theorem turn_word {prev : Option Char} {rest lead tail : Text} (h : turn prev rest = .word lead tail) :
    lead ≠ [] ∧ lead ++ tail = rest := by
  unfold turn at h
  split at h
  · cases h
  · rename_i l r hn
    split at h
    · obtain ⟨rfl, rfl⟩ := Turn.word.inj h
      obtain ⟨hs, hpre⟩ := nextCodeOccurrence_spec _ _ _ hn
      refine ⟨?_, by rw [List.append_assoc, List.take_append_drop, hs]⟩
      obtain ⟨u, rfl⟩ := hpre
      simp [keyword]
    · cases h

theorem turn_block {prev : Option Char} {rest lead : Text} {b : Block}
    (h : turn prev rest = .block lead b) : lead ++ b.text = rest := by
  unfold turn at h
  split at h
  · cases h
  · rename_i l r hn
    split at h
    · cases h
    · rename_i b' hb
      cases h
      obtain ⟨hs, hpre⟩ := nextCodeOccurrence_spec _ _ _ hn
      rw [blockAfter_text hpre hb, hs]

theorem turn_word_lt {prev : Option Char} {rest lead tail : Text}
    (h : turn prev rest = .word lead tail) : tail.length < rest.length := by
  obtain ⟨hne, rfl⟩ := turn_word h
  have := List.length_pos_iff.mpr hne
  simp only [List.length_append]
  omega

theorem turn_block_lt {prev : Option Char} {rest lead : Text} {b : Block}
    (h : turn prev rest = .block lead b) : b.tail.length < rest.length := by
  rw [← turn_block h]
  simp only [Block.text, List.length_append, List.length_cons]
  omega

/-- `format!("__TEMPLATE_BODY_{}__", counter)` -/
def slot (n : Nat) : Text := "__TEMPLATE_BODY_".toList ++ Nat.toDigits 10 n ++ "__".toList

/-- The placeholder of the n-th body; the counter is a `u32`. -/
def placeholder (counter : Nat) : Text :=
  slot (counter % 2 ^ 32)

/-- The recorded bodies by placeholder, the latest insertion first. -/
abbrev Bodies := List (Text × Text)

/-- `before` is the text up to `search_from`, as rewritten so far, and `rest` the
text from there on. -/
def preprocessLoop (before rest : Text) (bodies : Bodies) (counter : Nat) : Text × Bodies :=
  match h : turn before.getLast? rest with
  | .done => (before ++ rest, bodies)
  | .word lead tail => preprocessLoop (before ++ lead) tail bodies counter
  | .block lead b =>
    preprocessLoop
      (before ++ (lead ++ keyword ++ b.header ++ lbrace :: (placeholder counter ++ [rbrace])))
      b.tail ((placeholder counter, b.body) :: bodies) (counter + 1)
termination_by rest.length
decreasing_by
  · exact turn_word_lt h
  · exact turn_block_lt h

/-- mirrors src/parser/helpers.rs:188-253 -/
def preprocessTemplates (source : Text) : Text × Bodies := preprocessLoop [] source [] 0

end Metalogos.Parser
