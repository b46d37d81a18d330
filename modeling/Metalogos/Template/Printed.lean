import Metalogos.Template.Engine
import Metalogos.Template.Lossless

/-!
# Printed templates

A tree is printed with each block in its tags, an `else` in each `if`, and the quotes, backslashes, newlines and tabs of
a literal as escapes. The tokens of the printed text are those of the tree with the texts next to each other joined
(`tokenize_print`), and the parser reads the tree back from them (`parse_flat`), but for one thing: a condition is cut
at the first `==` wherever it stands, also in the literal of a `!=`.

`template_printed_iff`: the tree is read back, and no special character of a value reaches the page where no variable
is raw, exactly where no such literal has an `==`.
-/
namespace Metalogos.Template

open Metalogos.Lib Metalogos.Lang
open Metalogos.Parser (Text lbrace rbrace)

/-! ## Printing -/

def literalPiece (c : Char) : Text :=
  if c = '"' then ['\\', '"'] else if c = '\\' then ['\\', '\\'] else if c = '\n' then ['\\', 'n']
  else if c = '\t' then ['\\', 't'] else [c]

def escapeLiteral (s : Text) : Text := s.flatMap literalPiece

/-- A literal in its quotes, behind an operator. -/
def quoted (lit : Text) : Text := '"' :: (escapeLiteral lit ++ ['"'])

def printCond : Cond → Text
  | .truthy path => path
  | .eq path lit => path ++ ' ' :: '=' :: '=' :: ' ' :: quoted lit
  | .ne path lit => path ++ ' ' :: '!' :: '=' :: ' ' :: quoted lit

def openIf (c : Cond) : Text := "#if ".toList ++ printCond c

def openEach (listPath : Text) : Text := "#each ".toList ++ listPath

/-- The tokens of a tree, texts next to each other not joined. -/
def flat : Nodes → List Token
  | .nil => []
  | .text s rest => .text s :: flat rest
  | .var path raw rest => .tag path raw :: flat rest
  | .cond c thn els rest =>
    .tag (openIf c) false :: (flat thn ++ .tag elseTag false :: (flat els ++ .tag endIf false :: flat rest))
  | .each listPath body rest => .tag (openEach listPath) false :: (flat body ++ .tag endEach false :: flat rest)

def Token.print : Token → Text
  | .text s => s
  | .tag content raw => enclose (braceWidth raw) content

def printNodes (t : Nodes) : Text := (flat t).flatMap Token.print

/-- A text in front of nodes, joined to one they start with. -/
def addText (s : Text) : Nodes → Nodes
  | .text s' rest => .text (s ++ s') rest
  | nodes => if s = [] then nodes else .text s nodes

/-- Texts next to each other joined, and empty ones left out. -/
def merge : Nodes → Nodes
  | .nil => .nil
  | .text s rest => addText s (merge rest)
  | .var path raw rest => .var path raw (merge rest)
  | .cond c thn els rest => .cond c (merge thn) (merge els) (merge rest)
  | .each listPath body rest => .each listPath (merge body) (merge rest)

/-- The letters, digits, underscores and dots of a path are such characters. -/
def pathChar (c : Char) : Bool := !isWhite c && !("\x7b\x7d\"=!|#/".toList.contains c)

def isWord (path : Text) : Bool := decide (path ≠ []) && path.all pathChar && decide (path ≠ elseTag)

def Cond.printable : Cond → Bool
  | .truthy path => isWord path
  | .eq path lit => isWord path && (cutPair rbrace rbrace lit).isNone
  | .ne path lit => isWord path && (cutPair rbrace rbrace lit).isNone

def printable : Nodes → Bool
  | .nil => true
  | .text s rest => s.all (fun c => decide (c ≠ lbrace ∧ c ≠ rbrace)) && printable rest
  | .var path _ rest => isWord path && printable rest
  | .cond c thn els rest => c.printable && printable thn && printable els && printable rest
  | .each listPath body rest => isWord listPath && printable body && printable rest

/-- A tree of texts without braces, paths that are words, and literals without two closing braces. -/
structure PrintedTree where
  nodes : Nodes
  ok : printable nodes = true

/-- No literal of a `!=` has an `==`. -/
def Cond.plain : Cond → Bool
  | .ne _ lit => (cutPair '=' '=' lit).isNone
  | _ => true

def plain : Nodes → Bool
  | .nil => true
  | .text _ rest => plain rest
  | .var _ _ rest => plain rest
  | .cond c thn els rest => c.plain && plain thn && plain els && plain rest
  | .each _ body rest => plain body && plain rest

/-! ## Pairs -/

section pairs

variable {x y : Char} {s t : Text}

theorem cutPair_cons_of_ne {c : Char} (h : ¬ (c = x ∧ t.head? = some y)) :
    cutPair x y (c :: t) = (cutPair x y t).map fun ab => (c :: ab.1, ab.2) := by
  rw [cutPair, if_neg h]

theorem cutPair_append (h : x ∉ s) : cutPair x y (s ++ t) = (cutPair x y t).map fun ab => (s ++ ab.1, ab.2) := by
  induction s with
  | nil => simp
  | cons c s ih =>
    obtain ⟨hc, hs⟩ := not_or.1 fun hm => h (List.mem_cons.2 hm)
    rw [List.cons_append, cutPair_cons_of_ne fun heq => hc heq.1.symm, ih hs, Option.map_map]
    rfl

theorem cutPair_here : cutPair x y (x :: y :: t) = some ([], t) := by
  rw [cutPair, if_pos ⟨rfl, rfl⟩]
  rfl

theorem cutPair_none (h : x ∉ s) : cutPair x y s = none := by
  have happ := @cutPair_append x y s [] h
  rw [List.append_nil] at happ
  rw [happ]
  rfl

/-- A character behind that ends no pair. -/
theorem cutPair_concat {c : Char} (hx : c ≠ x) (hy : c ≠ y) :
    cutPair x y (s ++ [c]) = (cutPair x y s).map fun ab => (ab.1, ab.2 ++ [c]) := by
  induction s with
  | nil => exact cutPair_none fun h => hx (List.mem_singleton.1 h).symm
  | cons d s ih =>
    have hhead : (s ++ [c]).head? = some y ↔ s.head? = some y := by
      cases s with
      | nil => simp [hy]
      | cons e s => rfl
    rw [List.cons_append, cutPair, cutPair]
    simp only [hhead]
    split_ifs with hpair
    · cases s with
      | nil => cases hpair.2
      | cons e s => rfl
    · rw [ih, Option.map_map, Option.map_map]
      rfl

theorem escapeLiteral_cons (c : Char) (s : Text) : escapeLiteral (c :: s) = literalPiece c ++ escapeLiteral s := rfl

theorem escapeLiteral_kept {c : Char} (h : literalPiece c = [c]) (s : Text) :
    escapeLiteral (c :: s) = c :: escapeLiteral s := by
  rw [escapeLiteral_cons, h, List.singleton_append]

/-- The escapes make no pair and break none. -/
theorem cutPair_escape (hx : literalPiece x = [x]) (hn : x ≠ '\\' ∧ x ≠ 'n' ∧ x ≠ 't' ∧ x ≠ '"') (s : Text) :
    cutPair x x (escapeLiteral s) = (cutPair x x s).map fun ab => (escapeLiteral ab.1, escapeLiteral ab.2) := by
  have hhead : ∀ s : Text, (escapeLiteral s).head? = some x ↔ s.head? = some x := by
    intro s
    cases s with
    | nil => rfl
    | cons c s =>
      rw [escapeLiteral_cons, literalPiece]
      split_ifs with h1 h2 h3 h4
      · simp [h1, hn.1.symm, hn.2.2.2.symm]
      · simp [h2, hn.1.symm]
      · have hx3 : ¬ '\n' = x := fun h => by rw [← h] at hx; cases hx
        simp [h3, hn.1.symm, hx3]
      · have hx4 : ¬ '\t' = x := fun h => by rw [← h] at hx; cases hx
        simp [h4, hn.1.symm, hx4]
      · simp
  induction s with
  | nil => rfl
  | cons c s ih =>
    by_cases hc : c = x
    · subst hc
      rw [escapeLiteral_kept hx, cutPair, cutPair]
      simp only [hhead]
      split_ifs with hpair
      · obtain ⟨d, s, rfl⟩ : ∃ d r, s = d :: r := by
          cases s with
          | nil => cases hpair.2
          | cons d r => exact ⟨d, r, rfl⟩
        obtain rfl := Option.some.inj hpair.2
        rw [escapeLiteral_kept hx]
        rfl
      · rw [ih, Option.map_map, Option.map_map]
        congr 1
        funext ab
        simp [escapeLiteral_kept hx]
    · have hpiece : x ∉ literalPiece c := by
        unfold literalPiece
        split_ifs <;> simp [hn, Ne.symm hc]
      rw [escapeLiteral_cons, cutPair_append hpiece, ih, cutPair_cons_of_ne fun h => hc h.1, Option.map_map,
        Option.map_map]
      rfl

end pairs

/-! ## Trimming -/

section trimming

variable {s t : Text}

/-- A text that trimming leaves as it is. -/
structure Solid (s : Text) : Prop where
  head : ∀ c ∈ s.head?, isWhite c = false
  last : ∀ c ∈ s.getLast?, isWhite c = false

theorem Solid.trim_eq (h : Solid s) : trim s = s := trim_of_solid h.head h.last

theorem trim_space (s : Text) : trim (' ' :: s) = trim s := by
  unfold trim
  rw [List.dropWhile_cons_of_pos (by decide)]

theorem Solid.trim_concat (h : Solid s) : trim (s ++ [' ']) = s := by
  cases s with
  | nil => decide
  | cons c s =>
    have hc := h.head c rfl
    rw [List.cons_append, trim_of_head hc, ← List.cons_append, trimEnd_concat (by decide), ← trim_of_head hc, h.trim_eq]

theorem isWord_iff {p : Text} : isWord p = true ↔ (p ≠ [] ∧ ∀ c ∈ p, pathChar c = true) ∧ p ≠ elseTag := by
  simp [isWord]

theorem not_white_of_pathChar {c : Char} (h : pathChar c = true) : isWhite c = false := by
  unfold pathChar at h
  simpa using (Bool.and_eq_true_iff.1 h).1

theorem not_mem_of_word {p : Text} (h : isWord p = true) {c : Char} (hc : pathChar c = false) : c ∉ p := fun hm => by
  rw [(isWord_iff.1 h).1.2 c hm] at hc
  cases hc

theorem solid_of_word {p : Text} (h : isWord p = true) : Solid p := by
  have hall := (isWord_iff.1 h).1.2
  exact ⟨fun c hc => not_white_of_pathChar (hall c (List.mem_of_mem_head? hc)),
    fun c hc => not_white_of_pathChar (hall c (List.mem_of_mem_getLast? hc))⟩

theorem solid_concat (h : ∀ c ∈ s.head?, isWhite c = false) : Solid (s ++ ['"']) := by
  refine ⟨fun c hc => ?_, fun c hc => ?_⟩
  · cases s with
    | nil =>
      rw [← Option.some.inj hc]
      decide
    | cons d s => exact h c hc
  · rw [List.getLast?_concat] at hc
    rw [← Option.some.inj hc]
    decide

theorem solid_quoted (lit : Text) : Solid (quoted lit) :=
  @solid_concat ('"' :: escapeLiteral lit) fun c hc => by
    rw [← Option.some.inj hc]
    decide

/-- What ends in a quote is trimmed in front only. -/
theorem trim_quote (s : Text) : trim (s ++ ['"']) = (s ++ ['"']).dropWhile isWhite := by
  have hend : ∀ t : Text, trimEnd (t ++ ['"']) = t ++ ['"'] := fun t => trimEnd_append (by decide)
  induction s with
  | nil => decide
  | cons c s ih =>
    rw [List.cons_append]
    cases hc : isWhite c with
    | true =>
      rw [List.dropWhile_cons_of_pos hc, ← ih]
      unfold trim
      rw [List.dropWhile_cons_of_pos hc]
    | false => rw [trim_of_head hc, List.dropWhile_cons_of_neg (by simp [hc]), ← List.cons_append, hend]

end trimming

/-! ## Conditions -/

section conditions

variable {p lit : Text}

theorem unescape_escape (s : Text) : unescapeLiteral (escapeLiteral s) = s := by
  induction s with
  | nil => rfl
  | cons c s ih =>
    rw [escapeLiteral_cons, literalPiece]
    split_ifs with h1 h2 h3 h4
    · simp [unescapeLiteral, ih, h1]
    · simp [unescapeLiteral, ih, h2]
    · simp [unescapeLiteral, ih, h3]
    · simp [unescapeLiteral, ih, h4]
    · rw [List.singleton_append, unescapeLiteral.eq_def]
      dsimp only
      rw [if_neg h2, ih]

theorem parseStringLiteral_quoted (lit : Text) : parseStringLiteral (trim (' ' :: quoted lit)) = .ok lit := by
  rw [trim_space, (solid_quoted lit).trim_eq, parseStringLiteral, (solid_quoted lit).trim_eq]
  have hlast : (quoted lit).getLast? = some '"' := by rw [quoted, ← List.cons_append, List.getLast?_concat]
  have hlen : ¬ byteLen (quoted lit) < 2 := by
    have hquote : ('"' : Char).utf8Size = 1 := by decide
    simp only [quoted, byteLen_cons, byteLen_append, byteLen_nil, hquote]
    omega
  have hinner : ((quoted lit).drop 1).dropLast = escapeLiteral lit := by
    rw [quoted, List.drop_one, List.tail_cons, List.dropLast_concat]
  rw [if_neg (by simp [hlast, hlen]; rfl), hinner, unescape_escape]

/-- What stands behind an `==` in an escaped literal is no literal. -/
theorem parseStringLiteral_rest (s : Text) :
    ∃ e, parseStringLiteral (trim (escapeLiteral s ++ ['"'])) = .error (.literal e) := by
  have hform : (escapeLiteral s ++ ['"']).dropWhile isWhite = ['"'] ∨
      ∃ c t, (escapeLiteral s ++ ['"']).dropWhile isWhite = c :: (t ++ ['"']) ∧ c ≠ '"' ∧ isWhite c = false := by
    induction s with
    | nil => exact .inl (by decide)
    | cons c s ih =>
      have hslash : ∀ d : Char, ∃ c t, (['\\', d] ++ escapeLiteral s ++ ['"']).dropWhile isWhite = c :: (t ++ ['"']) ∧
          c ≠ '"' ∧ isWhite c = false := fun d =>
        ⟨'\\', d :: escapeLiteral s, List.dropWhile_cons_of_neg (by decide), by decide, by decide⟩
      rw [escapeLiteral_cons, literalPiece]
      split_ifs with h1 h2 h3 h4
      · exact .inr (hslash '"')
      · exact .inr (hslash '\\')
      · exact .inr (hslash 'n')
      · exact .inr (hslash 't')
      · cases hc : isWhite c with
        | true =>
          rw [List.singleton_append, List.cons_append, List.dropWhile_cons_of_pos hc]
          exact ih
        | false =>
          exact .inr ⟨c, escapeLiteral s, List.dropWhile_cons_of_neg (by simp [hc]), h1, hc⟩
  rw [trim_quote]
  rcases hform with h | ⟨c, t, h, hc, hwhite⟩
  · rw [h]
    exact ⟨['"'], by decide⟩
  · rw [h, parseStringLiteral]
    have hsolid : Solid (c :: (t ++ ['"'])) := @solid_concat (c :: t) fun d hd => by
      rw [← Option.some.inj hd]
      exact hwhite
    rw [hsolid.trim_eq, if_pos (.inr (.inl fun heq => hc (Option.some.inj heq)))]
    exact ⟨_, rfl⟩

theorem pathChar_eq : pathChar '=' = false ∧ pathChar '!' = false ∧ pathChar rbrace = false ∧ pathChar '|' = false ∧
    pathChar '#' = false ∧ pathChar '/' = false ∧ pathChar lbrace = false := by decide

theorem head_of_word (hp : isWord p = true) (t : Text) : ∀ c ∈ (p ++ t).head?, isWhite c = false := by
  intro c hc
  cases p with
  | nil => exact absurd rfl (isWord_iff.1 hp).1.1
  | cons d p => exact (solid_of_word hp).head c hc

/-- A comparison ends in the quote of its literal. -/
theorem printCond_eq (p lit : Text) :
    printCond (.eq p lit) = p ++ [' ', '=', '=', ' ', '"'] ++ (escapeLiteral lit ++ ['"']) := by
  simp [printCond, quoted]

theorem printCond_ne (p lit : Text) :
    printCond (.ne p lit) = p ++ [' ', '!', '=', ' ', '"'] ++ (escapeLiteral lit ++ ['"']) := by
  simp [printCond, quoted]

theorem solid_comparison (hp : isWord p = true) (op lit : Text) : Solid (p ++ op ++ (escapeLiteral lit ++ ['"'])) := by
  rw [← List.append_assoc, List.append_assoc p]
  exact solid_concat (head_of_word hp _)

theorem solid_printCond {c : Cond} (h : c.printable = true) : Solid (printCond c) := by
  cases c with
  | truthy p => exact solid_of_word h
  | eq p lit =>
    rw [printCond_eq]
    exact solid_comparison (Bool.and_eq_true_iff.1 h).1 _ lit
  | ne p lit =>
    rw [printCond_ne]
    exact solid_comparison (Bool.and_eq_true_iff.1 h).1 _ lit

/-- In a `!=` the first `==` is that of the literal. -/
theorem cutPair_ne (hp : isWord p = true) : ∃ f : Text → Text, cutPair '=' '=' (printCond (.ne p lit)) =
    (cutPair '=' '=' lit).map fun ab => (f ab.1, escapeLiteral ab.2 ++ ['"']) := by
  have hfree : '=' ∉ p ++ [' ', '!'] := by
    simp [not_mem_of_word hp pathChar_eq.1]
  have hform : printCond (.ne p lit) = (p ++ [' ', '!']) ++ '=' :: ' ' :: '"' :: (escapeLiteral lit ++ ['"']) := by
    simp [printCond, quoted]
  refine ⟨fun a => p ++ [' ', '!'] ++ '=' :: ' ' :: '"' :: escapeLiteral a, ?_⟩
  rw [hform, cutPair_append hfree, cutPair_cons_of_ne (by simp), cutPair_cons_of_ne (by simp),
    cutPair_cons_of_ne (by simp), cutPair_concat (by decide) (by decide), cutPair_escape (by decide) (by decide)]
  simp only [Option.map_map]
  rfl

theorem parseCond_eq (hp : isWord p = true) : parseCond (printCond (.eq p lit)) = .ok (.eq p lit) := by
  have hsolid := solid_of_word hp
  have hfree : '=' ∉ p ++ [' '] := by simp [not_mem_of_word hp pathChar_eq.1]
  have htrim : trim (printCond (.eq p lit)) = printCond (.eq p lit) := by
    rw [printCond_eq]
    exact (solid_comparison hp _ lit).trim_eq
  have hform : printCond (.eq p lit) = (p ++ [' ']) ++ '=' :: '=' :: ' ' :: quoted lit := by simp [printCond]
  rw [parseCond, htrim, hform, cutPair_append hfree, cutPair_here]
  dsimp only [Option.map_some]
  rw [parseStringLiteral_quoted, List.append_nil, hsolid.trim_concat]

theorem parseCond_ne (h : (Cond.ne p lit).printable = true) (hplain : (Cond.ne p lit).plain = true) :
    parseCond (printCond (.ne p lit)) = .ok (.ne p lit) := by
  have hp := (Bool.and_eq_true_iff.1 h).1
  have hsolid := solid_of_word hp
  have hfree : '!' ∉ p ++ [' '] := by simp [not_mem_of_word hp pathChar_eq.2.1]
  obtain ⟨f, hcut⟩ := @cutPair_ne p lit hp
  have hnone : cutPair '=' '=' lit = none := Option.isNone_iff_eq_none.1 hplain
  rw [hnone, Option.map_none] at hcut
  have hform : printCond (.ne p lit) = (p ++ [' ']) ++ '!' :: '=' :: ' ' :: quoted lit := by simp [printCond]
  rw [parseCond, (solid_printCond h).trim_eq, hcut]
  dsimp only
  rw [hform, cutPair_append hfree, cutPair_here]
  dsimp only [Option.map_some]
  rw [parseStringLiteral_quoted, List.append_nil, hsolid.trim_concat]

theorem parseCond_plain {c : Cond} (h : c.printable = true) (hplain : c.plain = true) :
    parseCond (printCond c) = .ok c := by
  cases c with
  | truthy p =>
    have hnone : cutPair '=' '=' p = none := cutPair_none (not_mem_of_word h pathChar_eq.1)
    have hnone' : cutPair '!' '=' p = none := cutPair_none (not_mem_of_word h pathChar_eq.2.1)
    rw [parseCond, (solid_printCond h).trim_eq, printCond, hnone]
    dsimp only
    rw [hnone']
  | eq p lit => exact parseCond_eq (Bool.and_eq_true_iff.1 h).1
  | ne p lit => exact parseCond_ne h hplain

/-- A literal with an `==` is cut, and what is behind it is refused. -/
theorem parseCond_cut {c : Cond} (h : c.printable = true) (hplain : c.plain = false) :
    ∃ e, parseCond (printCond c) = .error (.literal e) := by
  cases c with
  | truthy p => cases hplain
  | eq p lit => cases hplain
  | ne p lit =>
    obtain ⟨f, hcut⟩ := @cutPair_ne p lit (Bool.and_eq_true_iff.1 h).1
    cases hpair : cutPair '=' '=' lit with
    | none =>
      rw [Cond.plain, hpair] at hplain
      cases hplain
    | some ab =>
      rw [hpair, Option.map_some] at hcut
      obtain ⟨e, he⟩ := parseStringLiteral_rest ab.2
      refine ⟨e, ?_⟩
      rw [parseCond, (solid_printCond h).trim_eq, hcut]
      dsimp only
      rw [he]

end conditions

/-! ## Tokens -/

section tokens

variable {src content s t : Text} {raw : Bool} {buf : Text} {i : Nat}

/-- Texts next to each other joined, behind a buffer. -/
def joinTexts : Text → List Token → List Token
  | buf, [] => flush buf
  | buf, .text s :: toks => joinTexts (buf ++ s) toks
  | buf, .tag content raw :: toks => flush buf ++ .tag content raw :: joinTexts [] toks

/-- A content that its braces enclose. -/
structure Enclosed (content : Text) : Prop where
  head : content.head? ≠ some lbrace
  pair : cutPair rbrace rbrace content = none
  last : content.getLast? ≠ some rbrace
  nonempty : content ≠ []
  solid : Solid content

def TokenOk : Token → Prop
  | .text s => lbrace ∉ s
  | .tag content _ => Enclosed content

theorem opening_none {c : Char} (h : c ≠ lbrace) : opening (c :: t) = none := by
  have hno : ∀ n, ¬ List.replicate (n + 1) lbrace <+: c :: t := fun n hpre => by
    rw [List.replicate_succ] at hpre
    exact h (List.cons_prefix_cons.1 hpre).1.symm
  rw [opening, if_neg (hno 2), if_neg (hno 1)]

theorem opening_enclosed (h : content.head? ≠ some lbrace) :
    opening (List.replicate (braceWidth raw) lbrace ++ content) = some (braceWidth raw) := by
  cases raw with
  | true => rw [braceWidth, if_pos rfl, opening, if_pos (List.prefix_append _ _)]
  | false =>
    have hthree : ¬ List.replicate 3 lbrace <+: List.replicate 2 lbrace ++ content := fun hpre => by
      have hrest : [lbrace] <+: content := by
        have hsplit : List.replicate 3 lbrace = List.replicate 2 lbrace ++ [lbrace] := rfl
        rw [hsplit] at hpre
        exact (List.prefix_append_right_inj _).1 hpre
      obtain ⟨r, rfl⟩ := hrest
      exact h rfl
    rw [braceWidth, if_neg Bool.false_ne_true, opening, if_neg hthree, if_pos (List.prefix_append _ _)]

theorem braceWidth_eq (raw : Bool) : ∃ n, braceWidth raw = n + 2 := by
  cases raw with
  | true => exact ⟨1, rfl⟩
  | false => exact ⟨0, rfl⟩

theorem untilClose_enclosed (n : Nat) (rest : Text) (hpair : cutPair rbrace rbrace content = none)
    (hlast : content.getLast? ≠ some rbrace) :
    untilClose (n + 2) (content ++ (List.replicate (n + 2) rbrace ++ rest)) = some content := by
  induction content with
  | nil =>
    rw [List.nil_append, List.replicate_succ, List.cons_append, untilClose, if_pos ⟨rest, rfl⟩]
  | cons c content ih =>
    have hfirst : ¬ (c = rbrace ∧ content.head? = some rbrace) := fun h => by
      rw [cutPair, if_pos h] at hpair
      cases hpair
    have hrest : cutPair rbrace rbrace content = none := by
      rw [cutPair_cons_of_ne hfirst] at hpair
      exact Option.map_eq_none_iff.1 hpair
    have hno : ¬ List.replicate (n + 2) rbrace <+: c :: (content ++ (List.replicate (n + 2) rbrace ++ rest)) := by
      intro hpre
      rw [List.replicate_succ, List.replicate_succ] at hpre
      obtain ⟨hc, hpre⟩ := List.cons_prefix_cons.1 hpre
      cases content with
      | nil => exact hlast (by rw [← hc]; rfl)
      | cons d content => exact hfirst ⟨hc.symm, by rw [(List.cons_prefix_cons.1 hpre).1]; rfl⟩
    have hlast' : content.getLast? ≠ some rbrace := fun h => hlast (by
      cases content with
      | nil => cases h
      | cons d content => rwa [List.getLast?_cons_cons])
    rw [List.cons_append, untilClose, if_neg hno, ih hrest hlast']
    rfl

theorem tokenizeFrom_skip (a t : Text) :
    ∀ i, tokenizeFrom src a.length i buf (a ++ t) = tokenizeFrom src 0 (i + a.length) buf t := by
  induction a with
  | nil => exact fun i => rfl
  | cons c a ih =>
    intro i
    rw [List.length_cons, List.cons_append, tokenizeFrom, ih, Nat.add_assoc, Nat.add_comm 1]

theorem tokenizeFrom_text (s t : Text) (hs : lbrace ∉ s) :
    ∀ i buf, tokenizeFrom src 0 i buf (s ++ t) = tokenizeFrom src 0 (i + s.length) (buf ++ s) t := by
  induction s with
  | nil =>
    intro i buf
    rw [List.append_nil]
    rfl
  | cons c s ih =>
    intro i buf
    obtain ⟨hc, hs⟩ := not_or.1 fun h => hs (List.mem_cons.2 h)
    rw [List.cons_append, tokenizeFrom, opening_none (Ne.symm hc)]
    dsimp only
    rw [ih hs, List.append_assoc, List.singleton_append, List.length_cons, Nat.add_assoc, Nat.add_comm 1]

theorem tokenizeFrom_tag (h : Enclosed content) (t : Text) (i : Nat) (buf : Text) :
    tokenizeFrom src 0 i buf (Token.print (.tag content raw) ++ t) =
      (tokenizeFrom src 0 (i + (Token.print (.tag content raw)).length) [] t).map
        fun toks => flush buf ++ .tag content raw :: toks := by
  obtain ⟨n, hn⟩ := braceWidth_eq raw
  obtain ⟨d, rest, hcontent⟩ := List.exists_cons_of_ne_nil h.nonempty
  have hclose : Token.print (.tag content raw) ++ t = lbrace :: (List.replicate (n + 1) lbrace ++ (content ++
      (List.replicate (n + 2) rbrace ++ t))) := by
    simp [Token.print, enclose, hn, List.replicate_succ]
  have hopen : opening (lbrace ::
      (List.replicate (n + 1) lbrace ++ (content ++ (List.replicate (n + 2) rbrace ++ t)))) =
      some (n + 2) := by
    have hhead : (content ++ (List.replicate (n + 2) rbrace ++ t)).head? ≠ some lbrace := by
      have hfirst := h.head
      rw [hcontent] at hfirst ⊢
      exact hfirst
    have hopening := @opening_enclosed (content ++ (List.replicate (n + 2) rbrace ++ t)) raw hhead
    rw [hn, List.replicate_succ, List.cons_append] at hopening
    exact hopening
  have hdrop : (lbrace :: (List.replicate (n + 1) lbrace ++ (content ++ (List.replicate (n + 2) rbrace ++ t)))).drop
      (n + 2) = content ++ (List.replicate (n + 2) rbrace ++ t) := by
    have hlen : (List.replicate (n + 2) lbrace).length = n + 2 := List.length_replicate
    rw [← List.cons_append, ← List.replicate_succ, List.drop_append_of_le_length (Nat.le_of_eq hlen.symm),
      List.drop_of_length_le (Nat.le_of_eq hlen), List.nil_append]
  have hskip := @tokenizeFrom_skip src [] (List.replicate (n + 1) lbrace ++ (content ++ List.replicate (n + 2) rbrace))
    t (i + 1)
  have hlength : (List.replicate (n + 1) lbrace ++ (content ++ List.replicate (n + 2) rbrace)).length =
      n + 2 + content.length + (n + 2) - 1 := by
    simp only [List.length_append, List.length_replicate]
    omega
  have hprint : (Token.print (.tag content raw)).length = 1 +
      (List.replicate (n + 1) lbrace ++ (content ++ List.replicate (n + 2) rbrace)).length := by
    simp only [Token.print, enclose, hn, List.length_append, List.length_replicate]
    omega
  have hassoc : List.replicate (n + 1) lbrace ++ (content ++ (List.replicate (n + 2) rbrace ++ t)) =
      (List.replicate (n + 1) lbrace ++ (content ++ List.replicate (n + 2) rbrace)) ++ t := by simp
  have hraw : (n + 2 == 3) = raw := by rw [← hn]; cases raw <;> rfl
  rw [hclose, tokenizeFrom, hopen]
  dsimp only
  rw [hdrop, untilClose_enclosed n t h.pair h.last]
  dsimp only
  rw [← hlength, hassoc, hskip, h.solid.trim_eq, hraw, hprint, Nat.add_assoc]

theorem tokenize_print (toks : List Token) (hok : ∀ tok ∈ toks, TokenOk tok) :
    ∀ i buf, tokenizeFrom src 0 i buf (toks.flatMap Token.print) = some (joinTexts buf toks) := by
  induction toks with
  | nil => exact fun i buf => rfl
  | cons tok toks ih =>
    intro i buf
    obtain ⟨htok, htoks⟩ := List.forall_mem_cons.1 hok
    rw [List.flatMap_cons]
    cases tok with
    | text s =>
      rw [Token.print, tokenizeFrom_text s _ htok, ih htoks]
      rfl
    | tag content raw =>
      rw [tokenizeFrom_tag htok, ih htoks]
      rfl

/-! ## The tokens of a tree -/

theorem enclosed_of_word (h : isWord s = true) : Enclosed s where
  head := fun hc => not_mem_of_word h pathChar_eq.2.2.2.2.2.2 (List.mem_of_mem_head? hc)
  pair := cutPair_none (not_mem_of_word h pathChar_eq.2.2.1)
  last := fun hc => not_mem_of_word h pathChar_eq.2.2.1 (List.mem_of_mem_getLast? hc)
  nonempty := (isWord_iff.1 h).1.1
  solid := solid_of_word h

/-- A construct and what it is about. -/
theorem enclosed_append {pre : Text} (hpre : ∃ c r, pre = c :: r ∧ c ≠ lbrace ∧ isWhite c = false ∧ rbrace ∉ pre)
    (hne : s ≠ []) (hs : cutPair rbrace rbrace s = none) (hlast : s.getLast? ≠ some rbrace)
    (hsolid : ∀ c ∈ s.getLast?, isWhite c = false) : Enclosed (pre ++ s) := by
  obtain ⟨c, r, rfl, hc, hwhite, hfree⟩ := hpre
  have hend : (c :: r ++ s).getLast? = s.getLast? := by
    rw [List.getLast?_append]
    obtain ⟨d, hd⟩ := Option.ne_none_iff_exists'.1 fun h => hne (List.getLast?_eq_none_iff.1 h)
    rw [hd]
    rfl
  refine ⟨fun h => hc (Option.some.inj h), ?_, hend ▸ hlast, List.cons_ne_nil _ _, ⟨fun d hd => ?_, hend ▸ hsolid⟩⟩
  · rw [cutPair_append hfree, hs]
    rfl
  · rw [← Option.some.inj hd]
    exact hwhite

theorem printCond_ne_nil {c : Cond} (h : c.printable = true) : printCond c ≠ [] := by
  cases c with
  | truthy p => exact (isWord_iff.1 h).1.1
  | eq p lit => exact List.append_ne_nil_of_right_ne_nil _ (List.cons_ne_nil _ _)
  | ne p lit => exact List.append_ne_nil_of_right_ne_nil _ (List.cons_ne_nil _ _)

/-- What a comparison has no two closing braces in. -/
theorem pair_comparison {p op lit : Text} (hp : rbrace ∉ p ++ op) (hlit : cutPair rbrace rbrace lit = none) :
    cutPair rbrace rbrace (p ++ op ++ (escapeLiteral lit ++ ['"'])) = none ∧
      (p ++ op ++ (escapeLiteral lit ++ ['"'])).getLast? ≠ some rbrace := by
  constructor
  · rw [cutPair_append hp, cutPair_concat (by decide) (by decide), cutPair_escape (by decide) (by decide), hlit]
    rfl
  · rw [← List.append_assoc, List.getLast?_concat]
    decide

theorem pair_printCond {c : Cond} (h : c.printable = true) :
    cutPair rbrace rbrace (printCond c) = none ∧ (printCond c).getLast? ≠ some rbrace := by
  cases c with
  | truthy p => exact ⟨(enclosed_of_word h).pair, (enclosed_of_word h).last⟩
  | eq p lit =>
    obtain ⟨hp, hlit⟩ := Bool.and_eq_true_iff.1 h
    rw [printCond_eq]
    refine pair_comparison (fun hm => ?_) (Option.isNone_iff_eq_none.1 hlit)
    exact (List.mem_append.1 hm).elim (not_mem_of_word hp pathChar_eq.2.2.1) fun hop => absurd hop (by decide)
  | ne p lit =>
    obtain ⟨hp, hlit⟩ := Bool.and_eq_true_iff.1 h
    rw [printCond_ne]
    refine pair_comparison (fun hm => ?_) (Option.isNone_iff_eq_none.1 hlit)
    exact (List.mem_append.1 hm).elim (not_mem_of_word hp pathChar_eq.2.2.1) fun hop => absurd hop (by decide)

theorem enclosed_if {c : Cond} (h : c.printable = true) : Enclosed (openIf c) :=
  enclosed_append ⟨'#', _, rfl, by decide, by decide, by decide⟩ (printCond_ne_nil h) (pair_printCond h).1
    (pair_printCond h).2 (solid_printCond h).last

theorem enclosed_each {p : Text} (h : isWord p = true) : Enclosed (openEach p) :=
  enclosed_append ⟨'#', _, rfl, by decide, by decide, by decide⟩ (isWord_iff.1 h).1.1 (enclosed_of_word h).pair
    (enclosed_of_word h).last (solid_of_word h).last

theorem enclosed_fixed : Enclosed elseTag ∧ Enclosed endIf ∧ Enclosed endEach := by
  have hfixed : ∀ s ∈ [elseTag, endIf, endEach], s.head? ≠ some lbrace ∧ cutPair rbrace rbrace s = none ∧
      s.getLast? ≠ some rbrace ∧ s ≠ [] ∧ s.head?.map isWhite = some false ∧ s.getLast?.map isWhite = some false := by
    decide
  have hmk : ∀ s ∈ [elseTag, endIf, endEach], Enclosed s := fun s hs => by
    obtain ⟨hhead, hpair, hlast, hne, hfirst, hend⟩ := hfixed s hs
    refine ⟨hhead, hpair, hlast, hne, ⟨fun c hc => ?_, fun c hc => ?_⟩⟩
    · rw [Option.mem_def.1 hc] at hfirst
      exact Option.some.inj hfirst
    · rw [Option.mem_def.1 hc] at hend
      exact Option.some.inj hend
  exact ⟨hmk _ (by decide), hmk _ (by decide), hmk _ (by decide)⟩

theorem flat_ok (t : Nodes) (h : printable t = true) : ∀ tok ∈ flat t, TokenOk tok := by
  obtain ⟨helse, hendIf, hendEach⟩ := enclosed_fixed
  induction t with
  | nil => exact nofun
  | text s rest ih =>
    obtain ⟨hs, hrest⟩ := Bool.and_eq_true_iff.1 h
    refine List.forall_mem_cons.2 ⟨fun hm => ?_, ih hrest⟩
    exact (of_decide_eq_true (List.all_eq_true.1 hs _ hm)).1 rfl
  | var p raw rest ih =>
    obtain ⟨hp, hrest⟩ := Bool.and_eq_true_iff.1 h
    exact List.forall_mem_cons.2 ⟨enclosed_of_word hp, ih hrest⟩
  | cond c thn els rest ihthn ihels ihrest =>
    simp only [printable, Bool.and_eq_true] at h
    obtain ⟨⟨⟨hc, hthn⟩, hels⟩, hrest⟩ := h
    refine List.forall_mem_cons.2 ⟨enclosed_if hc, fun tok htok => ?_⟩
    rcases List.mem_append.1 htok with htok | htok
    · exact ihthn hthn tok htok
    rcases List.mem_cons.1 htok with rfl | htok
    · exact helse
    rcases List.mem_append.1 htok with htok | htok
    · exact ihels hels tok htok
    rcases List.mem_cons.1 htok with rfl | htok
    · exact hendIf
    · exact ihrest hrest tok htok
  | each p body rest ihbody ihrest =>
    simp only [printable, Bool.and_eq_true] at h
    obtain ⟨⟨hp, hbody⟩, hrest⟩ := h
    refine List.forall_mem_cons.2 ⟨enclosed_each hp, fun tok htok => ?_⟩
    rcases List.mem_append.1 htok with htok | htok
    · exact ihbody hbody tok htok
    rcases List.mem_cons.1 htok with rfl | htok
    · exact hendEach
    · exact ihrest hrest tok htok

end tokens

/-! ## Reading the tree back -/

section reading

variable {close : Option Text} {toks rest toks' toks'' : List Token} {nodes thn els : Nodes} {p buf : Text}
  {raw raw' : Bool} {c : Cond}

/-- With enough budget these nodes are read, up to these tokens. -/
def Reads (close : Option Text) (toks : List Token) (nodes : Nodes) (rest : List Token) : Prop :=
  ∀ fuel, toks.length < fuel → parseNodes fuel close toks = .ok (nodes, rest)

/-- With enough budget a literal is refused. -/
def Refuses (close : Option Text) (toks : List Token) : Prop :=
  ∃ e, ∀ fuel, toks.length < fuel → parseNodes fuel close toks = .error (.literal e)

/-- A stop that the parser is called with. -/
def Closing (close : Option Text) : Prop := close = none ∨ close = some endIf ∨ close = some endEach

/-- What ends a sequence of nodes. -/
inductive Ends : Option Text → List Token → Prop
  | whole : Ends none []
  | tag {close : Option Text} {content : Text} (raw : Bool) (toks : List Token) (h : stops close content = true) :
      Ends close (.tag content raw :: toks)

theorem ok_bind {ε α β : Type} (a : α) (f : α → Except ε β) : (Except.ok a >>= f) = f a := rfl

theorem error_bind {ε α β : Type} (e : ε) (f : α → Except ε β) : (Except.error e >>= f) = .error e := rfl

theorem stops_cases (hclose : Closing close) {content : Text} (h : stops close content = true) :
    content ∈ [endIf, endEach, elseTag] := by
  rcases hclose with rfl | rfl | rfl
  · cases h
  · simp only [stops, Bool.or_eq_true, decide_eq_true_eq] at h
    rcases h with rfl | ⟨_, rfl⟩
    · exact List.mem_cons_self
    · decide
  · simp only [stops, Bool.or_eq_true, decide_eq_true_eq] at h
    rcases h with rfl | ⟨hne, _⟩
    · decide
    · exact absurd hne (by decide)

theorem not_stops_hash (hclose : Closing close) (t : Text) : ¬ stops close ('#' :: t) = true := fun h => by
  have hhead : ∀ s ∈ [endIf, endEach, elseTag], s.head? ≠ some '#' := by decide
  exact hhead _ (stops_cases hclose h) rfl

theorem not_stops_word (hclose : Closing close) (hp : isWord p = true) : ¬ stops close p = true := fun h => by
  have hslash := not_mem_of_word hp pathChar_eq.2.2.2.2.2.1
  have hmem := stops_cases hclose h
  simp only [List.mem_cons, List.not_mem_nil, or_false] at hmem
  rcases hmem with rfl | rfl | rfl
  · exact hslash List.mem_cons_self
  · exact hslash List.mem_cons_self
  · exact (isWord_iff.1 hp).2 rfl

theorem stripPrefix_append (pre t : Text) : stripPrefix pre (pre ++ t) = some t := by
  rw [stripPrefix, if_pos (List.isPrefixOf_iff_prefix.2 (List.prefix_append pre t)), List.drop_left]

theorem stripPrefix_word (hp : isWord p = true) (t : Text) : stripPrefix ('#' :: t) p = none := by
  refine if_neg fun h => ?_
  obtain ⟨r, rfl⟩ := List.isPrefixOf_iff_prefix.1 h
  exact not_mem_of_word hp pathChar_eq.2.2.2.2.1 List.mem_cons_self

theorem Reads.ends (h : Ends close rest) : Reads close (joinTexts [] rest) .nil (joinTexts [] rest) := by
  intro fuel hfuel
  match fuel, hfuel with
  | fuel + 1, _ =>
    cases h with
    | whole => rfl
    | tag raw toks h =>
      show parseNodes (fuel + 1) close (.tag _ raw :: joinTexts [] toks) = _
      rw [parseNodes, if_pos h]
      rfl

theorem Reads.flush (h : Reads close toks nodes rest)
    (hne : addText buf nodes = if buf = [] then nodes else .text buf nodes) :
    Reads close (Template.flush buf ++ toks) (addText buf nodes) rest := by
  intro fuel hfuel
  rw [hne]
  by_cases hbuf : buf = []
  · rw [Template.flush, if_pos hbuf] at hfuel ⊢
    rw [if_pos hbuf]
    exact h fuel hfuel
  · rw [Template.flush, if_neg hbuf] at hfuel ⊢
    rw [if_neg hbuf]
    match fuel, hfuel with
    | fuel + 1, hfuel =>
      rw [List.singleton_append, parseNodes, h fuel (Nat.lt_of_succ_lt_succ hfuel)]
      rfl

theorem parse_var (hclose : Closing close) (hp : isWord p = true) (fuel : Nat) :
    parseNodes (fuel + 1) close (.tag p raw :: toks) = (do
      let (nodes, rest) ← parseNodes fuel close toks
      .ok (.var p raw nodes, rest)) := by
  have hslash := not_mem_of_word hp pathChar_eq.2.2.2.2.2.1
  have hfixed : ¬ (p = endIf ∨ p = endEach ∨ p = elseTag) := by
    rintro (rfl | rfl | rfl)
    · exact hslash List.mem_cons_self
    · exact hslash List.mem_cons_self
    · exact (isWord_iff.1 hp).2 rfl
  have hbar := not_mem_of_word hp pathChar_eq.2.2.2.1
  have hif : stripPrefix "#if ".toList p = none := stripPrefix_word hp _
  have heach : stripPrefix "#each ".toList p = none := stripPrefix_word hp _
  rw [parseNodes, if_neg (not_stops_word hclose hp), hif]
  dsimp only
  rw [heach]
  dsimp only
  rw [if_neg hfixed, if_neg hbar]

theorem Reads.var (hclose : Closing close) (hp : isWord p = true) (h : Reads close toks nodes rest) :
    Reads close (.tag p raw :: toks) (.var p raw nodes) rest := by
  intro fuel hfuel
  match fuel, hfuel with
  | fuel + 1, hfuel => rw [parse_var hclose hp, h fuel (Nat.lt_of_succ_lt_succ hfuel), ok_bind]

/-- What an `if` does with its parts. -/
theorem parse_if (hclose : Closing close) (hc : c.printable = true) (fuel : Nat) :
    parseNodes (fuel + 1) close (.tag (openIf c) raw :: toks) = (do
      let read ← parseCond (printCond c)
      let (thn, toks) ← parseNodes fuel (some endIf) toks
      let (els, behind) ← (takeElse toks).elim (.ok (.nil, toks)) (parseNodes fuel (some endIf))
      let toks ← takeClose endIf (printCond c) (takeElse toks).isSome behind
      let (nodes, rest) ← parseNodes fuel close toks
      .ok (.cond read thn els nodes, rest)) := by
  have hstop : ¬ stops close (openIf c) = true := not_stops_hash hclose _
  have hstrip : stripPrefix "#if ".toList (openIf c) = some (printCond c) := stripPrefix_append _ _
  rw [parseNodes, if_neg hstop, hstrip]
  dsimp only
  rw [(solid_printCond hc).trim_eq]

theorem parse_each (hclose : Closing close) (hp : isWord p = true) (fuel : Nat) :
    parseNodes (fuel + 1) close (.tag (openEach p) raw :: toks) = (do
      let (body, toks) ← parseNodes fuel (some endEach) toks
      let toks ← takeClose endEach p false toks
      let (nodes, rest) ← parseNodes fuel close toks
      .ok (.each p body nodes, rest)) := by
  have hstop : ¬ stops close (openEach p) = true := not_stops_hash hclose _
  have hif : stripPrefix "#if ".toList (openEach p) = none := rfl
  have hstrip : stripPrefix "#each ".toList (openEach p) = some p := stripPrefix_append _ _
  rw [parseNodes, if_neg hstop, hif]
  dsimp only
  rw [hstrip]
  dsimp only
  rw [(solid_of_word hp).trim_eq]

/-- Behind what was read of an `if` the `else` comes next. -/
theorem parse_else (hclose : Closing close) (hc : c.printable = true) (hplain : c.plain = true)
    (hthn : Reads (some endIf) toks thn (.tag elseTag raw :: toks')) {fuel : Nat} (hfuel : toks.length < fuel) :
    parseNodes (fuel + 1) close (.tag (openIf c) false :: toks) = (do
      let (els, behind) ← parseNodes fuel (some endIf) toks'
      let toks ← takeClose endIf (printCond c) true behind
      let (nodes, rest) ← parseNodes fuel close toks
      .ok (.cond c thn els nodes, rest)) := by
  have helse : takeElse (.tag elseTag raw :: toks') = some toks' := by rw [takeElse, if_pos rfl]
  rw [parse_if hclose hc, parseCond_plain hc hplain, ok_bind, hthn fuel hfuel, ok_bind]
  dsimp only
  rw [helse, Option.elim_some, Option.isSome_some]

theorem parse_behindIf (hclose : Closing close) (hc : c.printable = true) (hplain : c.plain = true)
    (hthn : Reads (some endIf) toks thn (.tag elseTag raw :: toks'))
    (hels : Reads (some endIf) toks' els (.tag endIf raw' :: toks'')) (hlen : toks'.length < toks.length) {fuel : Nat}
    (hfuel : toks.length < fuel) :
    parseNodes (fuel + 1) close (.tag (openIf c) false :: toks) = (do
      let (nodes, rest) ← parseNodes fuel close toks''
      .ok (.cond c thn els nodes, rest)) := by
  have hend : takeClose endIf (printCond c) true (.tag endIf raw' :: toks'') = .ok toks'' := by
    rw [takeClose, if_pos rfl]
  rw [parse_else hclose hc hplain hthn hfuel, hels fuel (Nat.lt_trans hlen hfuel), ok_bind]
  dsimp only
  rw [hend, ok_bind]

theorem parse_behindEach (hclose : Closing close) (hp : isWord p = true)
    (hbody : Reads (some endEach) toks thn (.tag endEach raw :: toks')) {fuel : Nat} (hfuel : toks.length < fuel) :
    parseNodes (fuel + 1) close (.tag (openEach p) false :: toks) = (do
      let (nodes, rest) ← parseNodes fuel close toks'
      .ok (.each p thn nodes, rest)) := by
  have hend : takeClose endEach p false (.tag endEach raw :: toks') = .ok toks' := by
    rw [takeClose, if_pos rfl]
  rw [parse_each hclose hp, hbody fuel hfuel, ok_bind]
  dsimp only
  rw [hend, ok_bind]

theorem Reads.cond (hclose : Closing close) (hc : c.printable = true) (hplain : c.plain = true)
    (hthn : Reads (some endIf) toks thn (.tag elseTag raw :: toks'))
    (hels : Reads (some endIf) toks' els (.tag endIf raw' :: toks'')) (hrest : Reads close toks'' nodes rest)
    (hlen : toks'.length < toks.length) (hlen' : toks''.length < toks'.length) :
    Reads close (.tag (openIf c) false :: toks) (.cond c thn els nodes) rest := by
  intro fuel hfuel
  match fuel, hfuel with
  | fuel + 1, hfuel =>
    have hlt := Nat.lt_of_succ_lt_succ hfuel
    rw [parse_behindIf hclose hc hplain hthn hels hlen hlt, hrest fuel (by omega), ok_bind]

theorem Reads.each (hclose : Closing close) (hp : isWord p = true)
    (hbody : Reads (some endEach) toks thn (.tag endEach raw :: toks')) (hrest : Reads close toks' nodes rest)
    (hlen : toks'.length < toks.length) : Reads close (.tag (openEach p) false :: toks) (.each p thn nodes) rest := by
  intro fuel hfuel
  match fuel, hfuel with
  | fuel + 1, hfuel =>
    have hlt := Nat.lt_of_succ_lt_succ hfuel
    rw [parse_behindEach hclose hp hbody hlt, hrest fuel (Nat.lt_trans hlen hlt), ok_bind]

theorem addText_nil (nodes : Nodes) : addText [] nodes = nodes := by
  cases nodes <;> rfl

theorem addText_append (s t : Text) (nodes : Nodes) : addText s (addText t nodes) = addText (s ++ t) nodes := by
  have hother : ∀ nodes, (∀ u, addText u nodes = if u = [] then nodes else .text u nodes) →
      addText s (addText t nodes) = addText (s ++ t) nodes := fun nodes h => by
    rw [h t, h (s ++ t)]
    by_cases ht : t = []
    · rw [if_pos ht, h s, ht, List.append_nil]
    · rw [if_neg ht, if_neg (List.append_ne_nil_of_right_ne_nil s ht)]
      rfl
  cases nodes with
  | text u rest => simp [addText]
  | nil => exact hother _ fun _ => rfl
  | var p raw rest => exact hother _ fun _ => rfl
  | cond c thn els rest => exact hother _ fun _ => rfl
  | each p body rest => exact hother _ fun _ => rfl

/-- A stop cuts the tokens in two. -/
theorem joinTexts_cut (a : List Token) (content : Text) (raw : Bool) (k : List Token) :
    ∀ buf, joinTexts buf (a ++ .tag content raw :: k) = joinTexts buf a ++ .tag content raw :: joinTexts [] k := by
  induction a with
  | nil => exact fun _ => rfl
  | cons tok a ih =>
    intro buf
    cases tok with
    | text s => exact ih _
    | tag content' raw' =>
      rw [List.cons_append, joinTexts, joinTexts, ih, List.append_assoc]
      rfl

theorem joinTexts_cut_length (a : List Token) (content : Text) (raw : Bool) (k : List Token) :
    (joinTexts [] k).length < (joinTexts [] (a ++ .tag content raw :: k)).length := by
  rw [joinTexts_cut, List.length_append, List.length_cons]
  omega

theorem flat_cond_append (c : Cond) (thn els rest : Nodes) (k : List Token) :
    flat (.cond c thn els rest) ++ k = .tag (openIf c) false :: (flat thn ++
      .tag elseTag false :: (flat els ++ .tag endIf false :: (flat rest ++ k))) := by simp [flat]

theorem flat_each_append (p : Text) (body rest : Nodes) (k : List Token) : flat (.each p body rest) ++ k =
    .tag (openEach p) false :: (flat body ++ .tag endEach false :: (flat rest ++ k)) := by simp [flat]

theorem parse_flat (t : Nodes) (h : printable t = true) (hplain : plain t = true) : ∀ close, Closing close → ∀ buf k,
    Ends close k → Reads close (joinTexts buf (flat t ++ k)) (addText buf (merge t)) (joinTexts [] k) := by
  induction t with
  | nil =>
    intro close _ buf k hk
    have hsplit : joinTexts buf k = Template.flush buf ++ joinTexts [] k := by
      cases hk with
      | whole => rw [joinTexts, joinTexts, Template.flush, Template.flush, if_pos rfl, List.append_nil]
      | tag raw toks _ => rfl
    rw [flat, List.nil_append, hsplit]
    exact (Reads.ends hk).flush rfl
  | text s rest ih =>
    intro close hclose buf k hk
    rw [merge, addText_append]
    exact ih (Bool.and_eq_true_iff.1 h).2 hplain close hclose (buf ++ s) k hk
  | var p raw rest ih =>
    intro close hclose buf k hk
    obtain ⟨hp, hrest⟩ := Bool.and_eq_true_iff.1 h
    have hread := ih hrest hplain close hclose [] k hk
    rw [addText_nil] at hread
    exact (Reads.var hclose hp hread).flush rfl
  | cond c thn els rest ihthn ihels ihrest =>
    intro close hclose buf k hk
    simp only [printable, plain, Bool.and_eq_true] at h hplain
    obtain ⟨⟨⟨hc, hthn⟩, hels⟩, hrest⟩ := h
    obtain ⟨⟨⟨hcp, hthnp⟩, helsp⟩, hrestp⟩ := hplain
    have hreadthn := ihthn hthn hthnp _ (.inr (.inl rfl)) []
      (.tag elseTag false :: (flat els ++ .tag endIf false :: (flat rest ++ k))) (.tag false _ (by decide))
    have hreadels := ihels hels helsp _ (.inr (.inl rfl)) [] (.tag endIf false :: (flat rest ++ k))
      (.tag false _ (by decide))
    have hreadrest := ihrest hrest hrestp close hclose [] k hk
    rw [addText_nil] at hreadthn hreadels hreadrest
    rw [flat_cond_append]
    exact (Reads.cond hclose hc hcp hreadthn hreadels hreadrest (joinTexts_cut_length _ _ _ _)
      (joinTexts_cut_length _ _ _ _)).flush rfl
  | each p body rest ihbody ihrest =>
    intro close hclose buf k hk
    simp only [printable, plain, Bool.and_eq_true] at h hplain
    obtain ⟨⟨hp, hbody⟩, hrest⟩ := h
    have hreadbody := ihbody hbody hplain.1 _ (.inr (.inr rfl)) [] (.tag endEach false :: (flat rest ++ k))
      (.tag false _ (by decide))
    have hreadrest := ihrest hrest hplain.2 close hclose [] k hk
    rw [addText_nil] at hreadbody hreadrest
    rw [flat_each_append]
    exact (Reads.each hclose hp hreadbody hreadrest (joinTexts_cut_length _ _ _ _)).flush rfl

/-! ## A literal that is cut -/

theorem Refuses.flush (h : Refuses close toks) : Refuses close (Template.flush buf ++ toks) := by
  obtain ⟨e, he⟩ := h
  refine ⟨e, fun fuel hfuel => ?_⟩
  by_cases hbuf : buf = []
  · rw [Template.flush, if_pos hbuf] at hfuel ⊢
    exact he fuel hfuel
  · rw [Template.flush, if_neg hbuf] at hfuel ⊢
    match fuel, hfuel with
    | fuel + 1, hfuel =>
      rw [List.singleton_append, parseNodes, he fuel (Nat.lt_of_succ_lt_succ hfuel)]
      rfl

theorem Refuses.var (hclose : Closing close) (hp : isWord p = true) (h : Refuses close toks) :
    Refuses close (.tag p raw :: toks) := by
  obtain ⟨e, he⟩ := h
  refine ⟨e, fun fuel hfuel => ?_⟩
  match fuel, hfuel with
  | fuel + 1, hfuel => rw [parse_var hclose hp, he fuel (Nat.lt_of_succ_lt_succ hfuel), error_bind]

theorem Refuses.cond (hclose : Closing close) (hc : c.printable = true) (hplain : c.plain = false) :
    Refuses close (.tag (openIf c) false :: toks) := by
  obtain ⟨e, he⟩ := parseCond_cut hc hplain
  refine ⟨e, fun fuel hfuel => ?_⟩
  match fuel, hfuel with
  | fuel + 1, hfuel => rw [parse_if hclose hc, he, error_bind]

theorem Refuses.inThen (hclose : Closing close) (hc : c.printable = true) (hplain : c.plain = true)
    (h : Refuses (some endIf) toks) : Refuses close (.tag (openIf c) false :: toks) := by
  obtain ⟨e, he⟩ := h
  refine ⟨e, fun fuel hfuel => ?_⟩
  match fuel, hfuel with
  | fuel + 1, hfuel =>
    rw [parse_if hclose hc, parseCond_plain hc hplain, ok_bind, he fuel (Nat.lt_of_succ_lt_succ hfuel), error_bind]

theorem Refuses.inElse (hclose : Closing close) (hc : c.printable = true) (hplain : c.plain = true)
    (hthn : Reads (some endIf) toks thn (.tag elseTag raw :: toks')) (h : Refuses (some endIf) toks')
    (hlen : toks'.length < toks.length) : Refuses close (.tag (openIf c) false :: toks) := by
  obtain ⟨e, he⟩ := h
  refine ⟨e, fun fuel hfuel => ?_⟩
  match fuel, hfuel with
  | fuel + 1, hfuel =>
    have hlt := Nat.lt_of_succ_lt_succ hfuel
    rw [parse_else hclose hc hplain hthn hlt, he fuel (Nat.lt_trans hlen hlt), error_bind]

theorem Refuses.behindIf (hclose : Closing close) (hc : c.printable = true) (hplain : c.plain = true)
    (hthn : Reads (some endIf) toks thn (.tag elseTag raw :: toks'))
    (hels : Reads (some endIf) toks' els (.tag endIf raw' :: toks'')) (h : Refuses close toks'')
    (hlen : toks'.length < toks.length) (hlen' : toks''.length < toks'.length) :
    Refuses close (.tag (openIf c) false :: toks) := by
  obtain ⟨e, he⟩ := h
  refine ⟨e, fun fuel hfuel => ?_⟩
  match fuel, hfuel with
  | fuel + 1, hfuel =>
    have hlt := Nat.lt_of_succ_lt_succ hfuel
    rw [parse_behindIf hclose hc hplain hthn hels hlen hlt, he fuel (by omega), error_bind]

theorem Refuses.body (hclose : Closing close) (hp : isWord p = true) (h : Refuses (some endEach) toks) :
    Refuses close (.tag (openEach p) false :: toks) := by
  obtain ⟨e, he⟩ := h
  refine ⟨e, fun fuel hfuel => ?_⟩
  match fuel, hfuel with
  | fuel + 1, hfuel => rw [parse_each hclose hp, he fuel (Nat.lt_of_succ_lt_succ hfuel), error_bind]

theorem Refuses.behindEach (hclose : Closing close) (hp : isWord p = true)
    (hbody : Reads (some endEach) toks thn (.tag endEach raw :: toks')) (h : Refuses close toks')
    (hlen : toks'.length < toks.length) : Refuses close (.tag (openEach p) false :: toks) := by
  obtain ⟨e, he⟩ := h
  refine ⟨e, fun fuel hfuel => ?_⟩
  match fuel, hfuel with
  | fuel + 1, hfuel =>
    have hlt := Nat.lt_of_succ_lt_succ hfuel
    rw [parse_behindEach hclose hp hbody hlt, he fuel (Nat.lt_trans hlen hlt), error_bind]

theorem refuse_flat (t : Nodes) (h : printable t = true) (hplain : plain t = false) : ∀ close, Closing close →
    ∀ buf k, Refuses close (joinTexts buf (flat t ++ k)) := by
  induction t with
  | nil => cases hplain
  | text s rest ih =>
    intro close hclose buf k
    exact ih (Bool.and_eq_true_iff.1 h).2 hplain close hclose (buf ++ s) k
  | var p raw rest ih =>
    intro close hclose buf k
    obtain ⟨hp, hrest⟩ := Bool.and_eq_true_iff.1 h
    exact (Refuses.var hclose hp (ih hrest hplain close hclose [] k)).flush
  | cond c thn els rest ihthn ihels ihrest =>
    intro close hclose buf k
    simp only [printable, Bool.and_eq_true] at h
    obtain ⟨⟨⟨hc, hthn⟩, hels⟩, hrest⟩ := h
    rw [flat_cond_append]
    have hend : Closing (some endIf) := .inr (.inl rfl)
    cases hcp : c.plain with
    | false => exact (Refuses.cond hclose hc hcp).flush
    | true =>
      cases hthnp : plain thn with
      | false => exact (Refuses.inThen hclose hc hcp (ihthn hthn hthnp _ hend [] _)).flush
      | true =>
        have hreadthn := parse_flat thn hthn hthnp _ hend []
          (.tag elseTag false :: (flat els ++ .tag endIf false :: (flat rest ++ k))) (.tag false _ (by decide))
        cases helsp : plain els with
        | false =>
          exact (Refuses.inElse hclose hc hcp hreadthn (ihels hels helsp _ hend [] _)
            (joinTexts_cut_length _ _ _ _)).flush
        | true =>
          have hreadels := parse_flat els hels helsp _ hend [] (.tag endIf false :: (flat rest ++ k))
            (.tag false _ (by decide))
          have hrestp : plain rest = false := by
            rw [plain, hcp, hthnp, helsp] at hplain
            exact hplain
          exact (Refuses.behindIf hclose hc hcp hreadthn hreadels (ihrest hrest hrestp close hclose [] k)
            (joinTexts_cut_length _ _ _ _) (joinTexts_cut_length _ _ _ _)).flush
  | each p body rest ihbody ihrest =>
    intro close hclose buf k
    simp only [printable, Bool.and_eq_true] at h
    obtain ⟨⟨hp, hbody⟩, hrest⟩ := h
    rw [flat_each_append]
    have hend : Closing (some endEach) := .inr (.inr rfl)
    cases hbodyp : plain body with
    | false => exact (Refuses.body hclose hp (ihbody hbody hbodyp _ hend [] _)).flush
    | true =>
      have hreadbody := parse_flat body hbody hbodyp _ hend [] (.tag endEach false :: (flat rest ++ k))
        (.tag false _ (by decide))
      have hrestp : plain rest = false := by
        rw [plain, hbodyp] at hplain
        exact hplain
      exact (Refuses.behindEach hclose hp hreadbody (ihrest hrest hrestp close hclose [] k)
        (joinTexts_cut_length _ _ _ _)).flush

end reading

theorem tokenize_tree (t : Nodes) (h : printable t = true) : tokenize (printNodes t) = some (joinTexts [] (flat t)) :=
  tokenize_print (flat t) (flat_ok t h) 0 []

/-- A printed tree is read back where no literal of a `!=` has an `==`. -/
theorem parse_printed (t : Nodes) (h : printable t = true) :
    parseTemplate (printNodes t) = some (.ok (merge t)) ↔ plain t = true := by
  rw [parseTemplate, tokenize_tree t h, Option.map_some]
  constructor
  · intro hread
    by_contra hcut
    obtain ⟨e, he⟩ := refuse_flat t h (Bool.eq_false_iff.2 hcut) none (.inl rfl) [] []
    rw [List.append_nil] at he
    rw [he _ (Nat.lt_succ_self _)] at hread
    cases Option.some.inj hread
  · intro hplain
    have hread := parse_flat t h hplain none (.inl rfl) [] [] .whole
    rw [List.append_nil, addText_nil] at hread
    rw [hread _ (Nat.lt_succ_self _)]
    rfl

/-! ## What reaches the page -/

section page

variable {F : Type} [FloatModel F]

/-- Every character of the page with where it comes from: a text of the tree, an entity, or a value. -/
def renderMarkedNodes (nodes : Nodes) (data : Value F) : Except String Marked :=
  renderWith ⟨fun s => s.map (·, .body), markedRaw, markedEscape⟩ nodes data

def noRaw : Nodes → Bool
  | .nil => true
  | .text _ rest => noRaw rest
  | .var _ raw rest => !raw && noRaw rest
  | .cond _ thn els rest => noRaw thn && noRaw els && noRaw rest
  | .each _ body rest => noRaw body && noRaw rest

/-- On any data each special character of the page is of a text of the tree or of an entity. -/
def EscapesAll (F : Type) [FloatModel F] (nodes : Nodes) : Prop :=
  ∀ (data : Value F) out, renderNodes nodes data = .ok out →
    ∃ marked, renderMarkedNodes nodes data = .ok marked ∧ marked.map Prod.fst = out ∧ Clean marked

theorem clean_append {a b : Marked} (ha : Clean a) (hb : Clean b) : Clean (a ++ b) := fun q hq =>
  (List.mem_append.1 hq).elim (ha q) (hb q)

/-- A page has its marks. -/
theorem render_marked (t : Nodes) : ∀ (data : Value F) out, renderNodes t data = .ok out →
    ∃ marked, renderMarkedNodes t data = .ok marked ∧ marked.map Prod.fst = out ∧ (noRaw t = true → Clean marked) := by
  induction t with
  | nil =>
    intro data out h
    exact ⟨[], rfl, Except.ok.inj h, fun _ => nofun⟩
  | text s rest ih =>
    intro data out h
    obtain ⟨out, hrest, rfl⟩ := map_ok.1 h
    obtain ⟨marked, hmarked, hmap, hclean⟩ := ih data out hrest
    refine ⟨s.map (·, Origin.body) ++ marked, map_ok.2 ⟨marked, hmarked, rfl⟩, ?_, fun hraw => ?_⟩
    · rw [List.map_append, map_fst_mark, hmap]
      rfl
    · refine clean_append (fun q hq _ => ?_) (hclean hraw)
      obtain ⟨_, _, rfl⟩ := List.mem_map.1 hq
      exact Origin.noConfusion
  | var p raw rest ih =>
    intro data out h
    obtain ⟨out, hrest, rfl⟩ := map_ok.1 h
    obtain ⟨marked, hmarked, hmap, hclean⟩ := ih data out hrest
    refine ⟨_, map_ok.2 ⟨marked, hmarked, rfl⟩, ?_, fun hraw => ?_⟩
    · rw [List.map_append, hmap]
      congr 1
      cases resolvePath data p with
      | none => rfl
      | some v => cases raw with
        | true => exact map_markedRaw _
        | false => exact map_markedEscape _
    · obtain ⟨hfalse, hrestraw⟩ := Bool.and_eq_true_iff.1 hraw
      refine clean_append ?_ (hclean hrestraw)
      cases resolvePath data p with
      | none => exact nofun
      | some v => cases raw with
        | true => cases hfalse
        | false => exact clean_markedEscape _
  | cond c thn els rest ihthn ihels ihrest =>
    intro data out h
    rw [renderNodes, renderWith] at h
    obtain ⟨block, hblock, h⟩ := bind_ok.1 h
    obtain ⟨out, hrest, rfl⟩ := map_ok.1 h
    obtain ⟨marked, hmarked, hmap, hclean⟩ := ihrest data out hrest
    have hmark : ∃ m, (if evalCond data c then renderMarkedNodes thn data else renderMarkedNodes els data) = .ok m ∧
        m.map Prod.fst = block ∧ (noRaw thn = true → noRaw els = true → Clean m) := by
      split_ifs at hblock ⊢ with hcond
      · obtain ⟨m, hm, hmm, hms⟩ := ihthn data block hblock
        exact ⟨m, hm, hmm, fun h _ => hms h⟩
      · obtain ⟨m, hm, hmm, hms⟩ := ihels data block hblock
        exact ⟨m, hm, hmm, fun _ h => hms h⟩
    obtain ⟨m, hm, hmm, hms⟩ := hmark
    refine ⟨m ++ marked, bind_ok.2 ⟨m, hm, map_ok.2 ⟨marked, hmarked, rfl⟩⟩, by rw [List.map_append, hmm, hmap],
      fun hraw => ?_⟩
    simp only [noRaw, Bool.and_eq_true] at hraw
    exact clean_append (hms hraw.1.1 hraw.1.2) (hclean hraw.2)
  | each p body rest ihbody ihrest =>
    intro data out h
    rw [renderNodes, renderWith] at h
    obtain ⟨blocks, hblocks, h⟩ := bind_ok.1 h
    obtain ⟨out, hrest, rfl⟩ := map_ok.1 h
    obtain ⟨marked, hmarked, hmap, hclean⟩ := ihrest data out hrest
    have hitems : ∀ (items : List (Value F)) blocks, items.mapM (renderNodes body) = .ok blocks →
        ∃ ms, items.mapM (renderMarkedNodes body) = .ok ms ∧ ms.flatten.map Prod.fst = blocks.flatten ∧
          (noRaw body = true → Clean ms.flatten) := by
      intro items
      induction items with
      | nil =>
        intro blocks h
        rw [← Except.ok.inj h]
        exact ⟨[], rfl, rfl, fun _ => nofun⟩
      | cons item items ih =>
        intro blocks h
        rw [List.mapM_cons] at h
        obtain ⟨b, hb, h⟩ := bind_ok.1 h
        obtain ⟨bs, hbs, h⟩ := bind_ok.1 h
        rw [← Except.ok.inj h]
        obtain ⟨m, hm, hmm, hms⟩ := ihbody item b hb
        obtain ⟨ms, hmss, hmsm, hmsclean⟩ := ih bs hbs
        refine ⟨m :: ms, ?_, ?_, fun hraw => ?_⟩
        · rw [List.mapM_cons]
          exact bind_ok.2 ⟨m, hm, bind_ok.2 ⟨ms, hmss, rfl⟩⟩
        · rw [List.flatten_cons, List.map_append, hmm, hmsm, List.flatten_cons]
        · exact clean_append (hms hraw) (hmsclean hraw)
    cases hpath : resolvePath data p with
    | none =>
      rw [hpath] at hblocks
      cases hblocks
    | some v =>
      cases v with
      | list items =>
        rw [hpath] at hblocks
        obtain ⟨ms, hmss, hmsm, hmsclean⟩ := hitems items blocks hblocks
        refine ⟨ms.flatten ++ marked, ?_, by rw [List.map_append, hmsm, hmap], fun hraw => ?_⟩
        · rw [renderMarkedNodes, renderWith, hpath]
          exact bind_ok.2 ⟨ms, hmss, map_ok.2 ⟨marked, hmarked, rfl⟩⟩
        · obtain ⟨hbodyraw, hrestraw⟩ := Bool.and_eq_true_iff.1 hraw
          exact clean_append (hmsclean hbodyraw) (hclean hrestraw)
      | _ =>
        rw [hpath] at hblocks
        cases hblocks

end page

/-- A printed tree is read back, and without raw variables no special character of a value reaches the page, where no
literal of a `!=` has an `==`. -/
theorem template_printed_iff (F : Type) [FloatModel F] (t : PrintedTree) :
    (parseTemplate (printNodes t.nodes) = some (.ok (merge t.nodes)) ∧
      (noRaw t.nodes = true → EscapesAll F t.nodes)) ↔ plain t.nodes = true := by
  rw [parse_printed t.nodes t.ok]
  refine and_iff_left fun hraw data out hout => ?_
  obtain ⟨marked, hmarked, hmap, hclean⟩ := render_marked t.nodes data out hout
  exact ⟨marked, hmarked, hmap, hclean hraw⟩

/-- `p != "=="` is cut in its literal. -/
theorem template_not_read_back :
    ¬ ∀ t : PrintedTree, parseTemplate (printNodes t.nodes) = some (.ok (merge t.nodes)) := by
  intro h
  have hread := h ⟨.cond (.ne ['p'] ['=', '=']) (.text ['x'] .nil) .nil .nil, by decide⟩
  exact absurd ((parse_printed _ (by decide)).1 hread) (by decide)

end Metalogos.Template
