import Metalogos.Lib.Text
import Metalogos.Parser.Declared

/-!
# Scanning a template body

`src/template_scan.rs`: the one tokenizer of the placeholders, the parameters used in the raw triple-brace
form, and the classification of a tag by its pipe. The tokenizer walks characters and cuts the rest of an
unclosed tag out of the text by the same index, which is a byte offset there: the slice panics off a
character boundary (`none`).
-/
namespace Metalogos.Template

open Metalogos.Lib
open Metalogos.Parser (Text identStart identPart lbrace rbrace)

/-! ## Names -/

/-- `IDENT` (src/grammar.pest:513) -/
def isName : Text → Bool
  | c :: r => identStart c && r.all identPart
  | [] => false

/-- What the parser lets a parameter be called. -/
structure Name where
  text : Text
  ident : isName text = true
  deriving DecidableEq

theorem Name.part (k : Name) {c : Char} (h : c ∈ k.text) : identPart c = true := by
  obtain ⟨t, ht⟩ := k
  cases t with
  | nil => cases h
  | cons d r =>
    simp only [isName, Bool.and_eq_true, List.all_eq_true] at ht
    rcases List.mem_cons.1 h with rfl | h
    · simp [identPart, ht.1]
    · exact ht.2 c h

/-! ## Tokens -/

/-- mirrors src/template_scan.rs:16-20 -/
inductive Token where
  | text (t : Text)
  | tag (content : Text) (raw : Bool)
  deriving DecidableEq

/-- `&src[i..]` -/
def byteSuffix : Nat → Text → Option Text
  | 0, src => some src
  | _ + 1, [] => none
  | i + 1, c :: src => if c.utf8Size ≤ i + 1 then byteSuffix (i + 1 - c.utf8Size) src else none

/-- The width of the braces that open here: three come before two. -/
def opening (t : Text) : Option Nat :=
  if List.replicate 3 lbrace <+: t then some 3 else if List.replicate 2 lbrace <+: t then some 2 else none

/-- The content up to the closing braces of this width. -/
def untilClose (width : Nat) : Text → Option Text
  | [] => none
  | c :: t =>
    if List.replicate width rbrace <+: c :: t then some [] else (untilClose width t).map (c :: ·)

/-- A buffer that is not empty is a text token. -/
def flush (buf : Text) : List Token := if buf = [] then [] else [.text buf]

/-- The loop at character `i`, where the first `skip` characters belong to the tag before. -/
def tokenizeFrom (src : Text) : (skip i : Nat) → (buf : Text) → Text → Option (List Token)
  | _, _, buf, [] => some (flush buf)
  | skip + 1, i, buf, _ :: t => tokenizeFrom src skip (i + 1) buf t
  | 0, i, buf, c :: t =>
    match opening (c :: t) with
    | none => tokenizeFrom src 0 (i + 1) (buf ++ [c]) t
    | some width =>
      match untilClose width ((c :: t).drop width) with
      | none => (byteSuffix i src).map fun rest => flush buf ++ flush rest
      | some content =>
        (tokenizeFrom src (width + content.length + width - 1) (i + 1) [] t).map fun toks =>
          flush buf ++ .tag (trim content) (width == 3) :: toks

/-- mirrors src/template_scan.rs:27-91 -/
def tokenize (src : Text) : Option (List Token) := tokenizeFrom src 0 0 [] src

/-! ## Positions -/

/-- `#if`, `/if` and `else` are no placeholders. -/
def isConstruct (inner : Text) : Bool :=
  ['#'].isPrefixOf inner || ['/'].isPrefixOf inner || inner == "else".toList

def paramIndex (params : List Name) (expr : Text) : Option Nat := params.findIdx? (·.text == expr)

def insertNew {α : Type} [BEq α] (out : List α) (x : α) : List α := if out.contains x then out else out ++ [x]

/-- The parameter a token uses raw. -/
def rawParam (params : List Name) : Token → Option Nat
  | .tag content true =>
    let inner := trim content
    if isConstruct inner then none else paramIndex params inner
  | _ => none

/-- mirrors src/template_scan.rs:106-129 -/
def rawParamPositions (body : Text) (params : List Name) : Option (List Nat) :=
  (tokenize body).map fun toks => (toks.filterMap (rawParam params)).foldl insertNew []

/-- mirrors src/template_scan.rs:145-160 -/
inductive PipeForm where
  | plain
  | safeParam (idx : Nat)
  | unsupported
  deriving DecidableEq

/-- mirrors src/template_scan.rs:168-199 -/
def classifyPipe (content : Text) (raw : Bool) (params : List Name) : PipeForm :=
  let inner := trim content
  if isConstruct inner then .plain
  else if '|' ∉ inner then .plain
  else if raw then .unsupported
  else
    let expr := trim (inner.takeWhile (· ≠ '|'))
    let stage := trim ((inner.dropWhile (· ≠ '|')).drop 1)
    if expr = [] ∨ stage = [] ∨ '|' ∈ stage ∨ '|' ∈ expr then .unsupported
    else if stage ≠ "safe".toList then .unsupported
    else
      match paramIndex params expr with
      | some idx => .safeParam idx
      | none => .unsupported

/-- mirrors src/template_scan.rs:212-234 -/
def pipeScan (body : Text) (params : List Name) : Option (List Nat × List Text) :=
  (tokenize body).map fun toks => toks.foldl (fun out tok =>
    match tok with
    | .text _ => out
    | .tag content raw =>
      match classifyPipe content raw params with
      | .plain => out
      | .safeParam idx => (insertNew out.1 idx, out.2)
      | .unsupported => (out.1, insertNew out.2 content)) ([], [])

end Metalogos.Template
