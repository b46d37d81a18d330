import Mathlib.Data.List.TakeWhile
import Metalogos.Grants.Granted
import Metalogos.Lib.Matches

/-!
# Destructive statements

`extract_destructive_ops` (`src/grants.rs:359-390`) looks for four texts with one space between and behind their
words and reads the run of letters, digits, `_` and `"` that follows as the table. `Destroys` says which statements
the database takes for one of the four operations: the keywords in any case, any white space between and behind
them, then a name that is bare or in double quotes.

The scan finds an operation where the statement also has it in the scan's own spelling (`Reads`), and nowhere else:
`destructive_complete`. What it does not find is not asked of the grant, and with nothing found the statement runs
as one that is not destructive.
-/
namespace Metalogos.Grants

open Metalogos.Lib

/-! ## What a statement destroys -/

inductive Op where
  | drop
  | delete
  | truncate
  | alter
  deriving DecidableEq, Repr

def Op.word : Op → String
  | .drop => "drop"
  | .delete => "delete"
  | .truncate => "truncate"
  | .alter => "alter"

def Op.keywords : Op → List String
  | .drop => ["DROP", "TABLE"]
  | .delete => ["DELETE", "FROM"]
  | .truncate => ["TRUNCATE"]
  | .alter => ["ALTER", "TABLE"]

/-- White space between the tokens of a statement. -/
def sqlBlank (c : Char) : Bool := c = ' ' || c = '\t' || c = '\n' || c = '\x0c' || c = '\r'

/-- A bare name: ASCII letters, digits, `_`, `$` and everything beyond ASCII. -/
def sqlNameChar (c : Char) : Bool := c.isAlphanum || c = '_' || c = '$' || 128 ≤ c.toNat

def sqlNameStart (c : Char) : Bool := sqlNameChar c && !c.isDigit && c != '$'

/-- Each keyword in any case, with white space behind it. -/
inductive Spells : List String → List Char → Prop where
  | nil : Spells [] []
  | cons {word : String} {words : List String} {text gap rest : List Char} (hword : text.map Char.toUpper = word.toList)
      (hgap : gap ≠ []) (hblank : ∀ c ∈ gap, sqlBlank c = true) (hrest : Spells words rest) :
      Spells (word :: words) (text ++ gap ++ rest)

/-- `Names text post ident`: `text` in front of `post` is the name `ident`. A quote inside quotes is doubled. -/
inductive Names : List Char → List Char → List Char → Prop where
  | bare {ident post : List Char} (hstart : ident.head?.any sqlNameStart = true)
      (hname : ∀ c ∈ ident, sqlNameChar c = true)
      (hpost : post.head?.any sqlNameChar = false) : Names ident post ident
  | quoted {ident post : List Char} (hne : ident ≠ []) (hpost : post.head? ≠ some '"') :
      Names ('"' :: ident.flatMap (fun c => if c = '"' then ['"', '"'] else [c]) ++ ['"']) post ident

/-- Somewhere in the statement stands this operation on this table. -/
def Destroys (sql : String) (op : Op) (ident : List Char) : Prop :=
  ∃ pre keywords text post, sql.toList = pre ++ keywords ++ text ++ post ∧ Spells op.keywords keywords ∧
    Names text post ident

theorem Names.ident_ne_nil {text post ident : List Char} (h : Names text post ident) : ident ≠ [] := by
  cases h with
  | bare hstart hname hpost =>
    intro hnil
    rw [hnil] at hstart
    cases hstart
  | quoted hne hpost => exact hne

/-! ## What the scan finds -/

/-- The text the scan looks for. -/
def Op.needle (op : Op) : List Char := op.keywords.flatMap fun word => word.toList ++ [' ']

theorem needle_borderless (op : Op) : Borderless op.needle := by
  cases op <;> decide

theorem needle_ne_nil (op : Op) : op.needle ≠ [] := by
  cases op <;> decide

variable (U : Unicode)

def wordChar (c : Char) : Bool := U.isAlphanumeric c || c = '_' || c = '"'

/-- The operation in the scan's own spelling: one space between and behind the keywords, then, behind more white
space or none, a run of word characters that is the table without its outer quotes. -/
def Reads (sql : String) (op : Op) (table : List Char) : Prop :=
  ∃ pre gap word post, sql.toList.map Char.toUpper = pre ++ op.needle ++ gap ++ word ++ post ∧
    (∀ c ∈ gap, isWhite c = true) ∧ (word ++ post).head?.all (fun c => !isWhite c) = true ∧
    (∀ c ∈ word, wordChar U c = true) ∧ post.head?.all (fun c => !wordChar U c) = true ∧
    (trimMatches '\'' (trimMatches '"' word)).map Char.toLower = table

theorem takeWhile_of_run {p : Char → Bool} {run post : List Char} (hrun : ∀ c ∈ run, p c = true)
    (hpost : post.head?.all (fun c => !p c) = true) :
    (run ++ post).takeWhile p = run ∧ (run ++ post).dropWhile p = post := by
  have hstop : post.takeWhile p = [] ∧ post.dropWhile p = post := by
    cases post with
    | nil => exact ⟨rfl, rfl⟩
    | cons c post =>
      have hc : p c = false := by simpa using hpost
      simp [hc]
  rw [List.takeWhile_append_of_pos hrun, List.dropWhile_append_of_pos hrun, hstop.1, hstop.2, List.append_nil]
  exact ⟨rfl, rfl⟩

theorem head_dropWhile (p : Char → Bool) (t : List Char) : (t.dropWhile p).head?.all (fun c => !p c) = true := by
  have hstop := List.head?_dropWhile_not p t
  cases hd : (t.dropWhile p).head? with
  | none => rfl
  | some c =>
    rw [hd] at hstop
    simpa using hstop

/-- The word behind a match, spelled out. -/
theorem tableWord_eq_iff {tail table : List Char} :
    tableWord U tail = table ↔ ∃ gap word post, tail = gap ++ word ++ post ∧ (∀ c ∈ gap, isWhite c = true) ∧
      (word ++ post).head?.all (fun c => !isWhite c) = true ∧ (∀ c ∈ word, wordChar U c = true) ∧
      post.head?.all (fun c => !wordChar U c) = true ∧
      (trimMatches '\'' (trimMatches '"' word)).map Char.toLower = table := by
  constructor
  · intro htable
    have hsplit : tail = tail.takeWhile isWhite ++ (tail.dropWhile isWhite).takeWhile (wordChar U) ++
        (tail.dropWhile isWhite).dropWhile (wordChar U) := by
      rw [List.append_assoc, List.takeWhile_append_dropWhile, List.takeWhile_append_dropWhile]
    refine ⟨_, _, _, hsplit, fun c hc => List.mem_takeWhile_imp hc, ?_, fun c hc => List.mem_takeWhile_imp hc,
      head_dropWhile _ _, htable⟩
    rw [List.takeWhile_append_dropWhile]
    exact head_dropWhile _ _
  · rintro ⟨gap, word, post, rfl, hgap, hstart, hword, hpost, rfl⟩
    unfold tableWord
    rw [List.append_assoc, (takeWhile_of_run hgap hstart).2]
    show (trimMatches '\'' (trimMatches '"' ((word ++ post).takeWhile (wordChar U)))).map Char.toLower = _
    rw [(takeWhile_of_run hword hpost).1]

/-- A scan for one keyword gives the tables behind its matches. -/
theorem mem_scanOps {keyword : List Char} {op : String} {x : String × String} (hlen : keyword ≠ []) :
    ∀ (t : List Char) (skip : Nat), x ∈ scanOps U keyword op skip t ↔
      ∃ tail ∈ tailsFrom keyword skip t, tableWord U tail ≠ [] ∧ x = (op, String.ofList (tableWord U tail))
  | [], skip => by
    have hnone : tailsFrom keyword skip [] = [] := by cases skip <;> rfl
    rw [scanOps, hnone]
    simp
  | c :: t, skip + 1 => by
    rw [scanOps, if_neg (Nat.succ_ne_zero skip), Nat.add_sub_cancel, tailsFrom]
    exact mem_scanOps hlen t skip
  | c :: t, 0 => by
    rw [scanOps, if_pos rfl, tailsFrom]
    by_cases hmatch : keyword <+: c :: t
    · rw [if_pos (List.isPrefixOf_iff_prefix.2 hmatch), if_pos hmatch]
      have hrest : x ∈ scanOps U keyword op (keyword.length - 1) t ↔ _ := mem_scanOps hlen t (keyword.length - 1)
      simp only [List.mem_cons, exists_eq_or_imp]
      split_ifs with htable
      · rw [hrest]
        constructor
        · exact .inr
        · rintro (⟨hne, -⟩ | hlater)
          · exact absurd htable hne
          · exact hlater
      · rw [List.mem_cons, hrest]
        constructor
        · rintro (hx | hlater)
          · exact .inl ⟨htable, hx⟩
          · exact .inr hlater
        · rintro (⟨-, hx⟩ | hlater)
          · exact .inl hx
          · exact .inr hlater
    · rw [if_neg (by rwa [List.isPrefixOf_iff_prefix]), if_neg hmatch]
      exact mem_scanOps hlen t 0

theorem extract_eq (sql : String) : extractDestructiveOps U sql =
    [Op.drop, .delete, .truncate, .alter].flatMap fun op =>
      scanOps U op.needle op.word 0 (sql.toList.map Char.toUpper) := by
  simp only [List.flatMap_cons, List.flatMap_nil, List.append_nil, extractDestructiveOps, List.append_assoc]
  rfl

/-- The scan finds an operation on a table if and only if the statement has it in the scan's spelling. -/
theorem mem_extract {sql : String} {op : Op} {table : List Char} :
    (op.word, String.ofList table) ∈ extractDestructiveOps U sql ↔ table ≠ [] ∧ Reads U sql op table := by
  have hscan : (op.word, String.ofList table) ∈ extractDestructiveOps U sql ↔
      ∃ tail ∈ tailsAfter op.needle (sql.toList.map Char.toUpper),
        tableWord U tail ≠ [] ∧ tableWord U tail = table := by
    rw [extract_eq, List.mem_flatMap]
    constructor
    · rintro ⟨op', -, hmem⟩
      obtain ⟨tail, htail, hne, heq⟩ := (mem_scanOps U (needle_ne_nil op') _ _).1 hmem
      obtain ⟨hword, htable⟩ := Prod.mk.inj heq
      have hop : op' = op := by
        revert hword
        cases op' <;> cases op <;> decide
      subst hop
      exact ⟨tail, htail, hne, (String.ofList_injective htable).symm⟩
    · rintro ⟨tail, htail, hne, rfl⟩
      exact ⟨op, by cases op <;> simp, (mem_scanOps U (needle_ne_nil op) _ _).2 ⟨tail, htail, hne, rfl⟩⟩
  rw [hscan]
  constructor
  · rintro ⟨tail, htail, hne, htable⟩
    obtain ⟨pre, hpre⟩ := (mem_tailsAfter (needle_ne_nil op) (needle_borderless op)).1 htail
    obtain ⟨gap, word, post, rfl, hword⟩ := (tableWord_eq_iff U).1 htable
    exact ⟨htable ▸ hne, pre, gap, word, post, by rw [hpre]; simp only [List.append_assoc], hword⟩
  · rintro ⟨hne, pre, gap, word, post, hsql, hword⟩
    have htable : tableWord U (gap ++ word ++ post) = table := (tableWord_eq_iff U).2 ⟨gap, word, post, rfl, hword⟩
    have hpre : sql.toList.map Char.toUpper = pre ++ op.needle ++ (gap ++ word ++ post) := by
      rw [hsql]
      simp only [List.append_assoc]
    exact ⟨_, (mem_tailsAfter (needle_ne_nil op) (needle_borderless op)).2 ⟨pre, hpre⟩, htable ▸ hne, htable⟩

/-! ## The gate -/

/-- A statement that passes the gate is covered by its grant in everything the scan found. -/
theorem gate_covers {l : GrantLedger} {t : Clock} {c : GrantedCall} {h : GrantHandle} {sql : String}
    (hgate : gate U l t c = .checked h sql) :
    ∀ x ∈ extractDestructiveOps U sql, scopeCovers U h.scope x.1 x.2 = true := by
  unfold gate at hgate
  split at hgate
  · cases hgate
  · split at hgate
    · cases hgate
    · split at hgate
      · cases hgate
      · rename_i hfind
        cases hgate
        intro x hx
        simpa using List.find?_eq_none.1 hfind x hx

/-- The gate asks for this operation on this table, under its lower-cased name. -/
def Demands (sql : String) (op : Op) (ident : List Char) : Prop :=
  (op.word, String.ofList (ident.map Char.toLower)) ∈ extractDestructiveOps U sql ∧
    ∀ (l : GrantLedger) (t : Clock) (c : GrantedCall) (h : GrantHandle), gate U l t c = .checked h sql →
      scopeCovers U h.scope op.word (String.ofList (ident.map Char.toLower)) = true

/-- Everything a statement destroys is asked of the grant if and only if each of it also stands in the statement in
the scan's own spelling. -/
theorem destructive_complete (sql : String) :
    (∀ op ident, Destroys sql op ident → Demands U sql op ident) ↔
      ∀ op ident, Destroys sql op ident → Reads U sql op (ident.map Char.toLower) := by
  constructor
  · intro h op ident hdestroys
    exact ((mem_extract U).1 (h op ident hdestroys).1).2
  · intro h op ident hdestroys
    have hne : ident ≠ [] := by
      obtain ⟨pre, keywords, text, post, -, -, hname⟩ := hdestroys
      exact hname.ident_ne_nil
    have htable : ident.map Char.toLower ≠ [] := by
      intro hnil
      exact hne (List.map_eq_nil_iff.1 hnil)
    have hmem : (op.word, String.ofList (ident.map Char.toLower)) ∈ extractDestructiveOps U sql :=
      (mem_extract U).2 ⟨htable, h op ident hdestroys⟩
    refine ⟨hmem, fun l t c hd hgate => ?_⟩
    exact gate_covers U hgate (op.word, String.ofList (ident.map Char.toLower)) hmem

/-- Two spaces between the keywords: nothing is found. -/
theorem destructive_missed : ¬ ∀ (U : Unicode) (sql : String) (op : Op) (ident : List Char),
    Destroys sql op ident → Demands U sql op ident := by
  intro h
  have hkeywords : Spells ["DROP", "TABLE"] ("DROP".toList ++ "  ".toList ++ ("TABLE".toList ++ " ".toList ++ [])) :=
    .cons (by decide) (by decide) (List.all_eq_true.1 (by decide))
      (.cons (by decide) (by decide) (List.all_eq_true.1 (by decide)) .nil)
  have hname : Names "users".toList [] "users".toList :=
    .bare (by decide) (List.all_eq_true.1 (by decide)) (by decide)
  have hdestroys : Destroys "DROP  TABLE users" .drop "users".toList :=
    ⟨[], _, _, _, by decide +kernel, hkeywords, hname⟩
  obtain ⟨hfound, -⟩ := h Sample.ascii "DROP  TABLE users" .drop "users".toList hdestroys
  have hnone : extractDestructiveOps Sample.ascii "DROP  TABLE users" = [] := by decide +kernel
  rw [hnone] at hfound
  cases hfound

end Metalogos.Grants
