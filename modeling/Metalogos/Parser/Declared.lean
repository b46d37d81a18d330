import Metalogos.Parser.Templates
/-!
# Where a template declaration stands

The grammar's own view of a source text (`src/grammar.pest`, `template_decl`):
which positions are code, which of them start a template declaration, and where
its body ends. It reads the text from the start with the lexical items of the
walk, keeps the bracket depth, and takes the body of a declaration as raw text.
`declarationAt` says that a declaration starts at a position, `spots` lists the positions.
-/
namespace Metalogos.Parser

/-! ## The header: a name, a parameter list and a return type -/

def isCyrillic (c : Char) : Bool := 'А' ≤ c && c ≤ 'я'

/-- `ident_start` (src/grammar.pest:514) -/
def identStart (c : Char) : Bool := c.isAlpha || c == '_' || isCyrillic c

def identPart (c : Char) : Bool := identStart c || c.isDigit || c == '\''

def isBlank (c : Char) : Bool := c == ' ' || c == '\t' || c == '\n' || c == '\r'

/-- `WHITESPACE*`, comments included. -/
def trivia : Text → Text
  | [] => []
  | '/' :: '/' :: r => trivia (r.dropWhile inLine)
  | c :: r => if isBlank c then trivia r else c :: r
termination_by t => t.length
decreasing_by
  · have := (List.dropWhile_suffix inLine (l := r)).length_le
    simp only [List.length_cons]
    omega
  · simp

/-- `IDENT` -/
def ident (t : Text) : Option Text :=
  match trivia t with
  | c :: r => if identStart c then some (r.dropWhile identPart) else none
  | [] => none

/-- A literal token of the grammar. -/
def token (tok t : Text) : Option Text :=
  if tok.isPrefixOf (trivia t) then some ((trivia t).drop tok.length) else none

/-- `item ~ (COMMA ~ item)*`: each turn takes at least the comma. -/
def commaList (item : Text → Option Text) : Nat → Text → Option Text
  | 0, t => item t
  | n + 1, t => (item t).bind fun r =>
    match (token [','] r).bind (commaList item n) with
    | some r' => some r'
    | none => some r

/-- `label_word` -/
def labelWord (t : Text) : Option Text :=
  match trivia t with
  | c :: r => if c.isAlpha || c == '_' then some (r.dropWhile fun c => c.isAlpha || c == '_') else none
  | [] => none

/-- `label_consent_part` -/
def labelConsent (t : Text) : Option Text :=
  (token "consent".toList t).bind fun r => (token ['('] r).bind fun r =>
    (commaList ident r.length r).bind (token [')'])

/-- `label_ann` -/
def labelAnn (t : Text) : Option Text :=
  (token ['<'] t).bind fun r =>
    (commaList (fun t => (labelConsent t).or (labelWord t)) r.length r).bind (token ['>'])

/-- `param` -/
def param (t : Text) : Option Text :=
  (ident t).bind fun r => (token [':'] r).bind fun r => (ident r).bind fun r =>
    (labelAnn r).or (some r)

/-- `IDENT ~ "(" ~ params? ~ ")" ~ ARROW ~ type_name` (src/grammar.pest:121), and
nothing more up to the brace. -/
def isHeader (t : Text) : Bool :=
  ((ident t).bind fun r => (token ['('] r).bind fun r =>
    (token [')'] ((commaList param r.length r).getD r)).bind fun r =>
      (token ['-', '>'] r).bind ident).any fun r => trivia r == []

/-! ## The reading -/

/-- A position in code: the character before it, the text from it on and the
number of brackets open there. -/
structure Spot where
  prev : Option Char
  rest : Text
  depth : Nat

/-- The keyword is there as a whole token. -/
def wholeWord (s : Spot) : Bool :=
  keyword.isPrefixOf s.rest && !s.prev.any identPart &&
    !(s.rest.drop keyword.length).head?.any identPart

/-- The template declaration that starts at the spot: a whole token outside every
bracket, followed by a header and a body in balanced braces. -/
def declarationAt (s : Spot) : Option Block :=
  if s.depth = 0 ∧ wholeWord s = true then (blockAfter s.rest).filter fun b => isHeader b.header
  else none

def nest (c : Char) (depth : Nat) : Nat :=
  if c = lbrace ∨ c = '(' ∨ c = '[' then depth + 1
  else if c = rbrace ∨ c = ')' ∨ c = ']' then depth - 1
  else depth

theorem declarationAt_eq {s : Spot} {b : Block} (h : declarationAt s = some b) :
    s.depth = 0 ∧ wholeWord s = true ∧ blockAfter s.rest = some b ∧ isHeader b.header = true := by
  unfold declarationAt at h
  split at h
  · rename_i hc
    rw [Option.filter_eq_some_iff] at h
    exact ⟨hc.1, hc.2, h.1, h.2⟩
  · cases h

theorem wholeWord_keyword {s : Spot} (h : wholeWord s = true) : keyword <+: s.rest := by
  simp only [wholeWord, Bool.and_eq_true] at h
  exact List.isPrefixOf_iff_prefix.mp h.1.1

theorem declarationAt_text {s : Spot} {b : Block} (h : declarationAt s = some b) :
    b.text = s.rest := by
  obtain ⟨-, hw, hb, -⟩ := declarationAt_eq h
  exact blockAfter_text (wholeWord_keyword hw) hb

theorem declarationAt_lt {s : Spot} {b : Block} (h : declarationAt s = some b) :
    b.tail.length < s.rest.length := by
  rw [← declarationAt_text h]
  simp only [Block.text, List.length_append, List.length_cons]
  omega

/-- The spots of a text in order: the body of a declaration is raw and has none. -/
def spots (s : Spot) : List Spot :=
  s :: match _hd : declarationAt s with
    | some b => spots ⟨some rbrace, b.tail, 0⟩
    | none =>
      match _hl : lexeme s.rest with
      | .eof => []
      | .unclosed => []
      | .literal item r => spots ⟨item.getLast?, r, s.depth⟩
      | .plain c r => spots ⟨some c, r, nest c s.depth⟩
termination_by s.rest.length
decreasing_by
  · exact declarationAt_lt _hd
  · exact lexeme_literal_lt _hl
  · exact lexeme_plain_lt _hl

/-- The spots of a whole source. -/
def codeSpots (source : Text) : List Spot := spots ⟨none, source, 0⟩

/-- The bodies of the template declarations of a source, in order. -/
def declaredBodies (source : Text) : List Text :=
  ((codeSpots source).filterMap declarationAt).map Block.body

end Metalogos.Parser
