import Metalogos.Parser.Declared
import Mathlib.Data.Nat.ModEq
/-!
# What the pre-pass replaces

`pieces` cuts a source where the loop cuts it: kept text and replaced blocks.
Whatever the source, the rewritten text is those pieces with the n-th body
replaced by the n-th placeholder. Whether the replaced blocks are template
bodies is another matter: the walk takes every `template` whose neighbours pass
the identifier guard for the keyword, a parameter of that name included.
-/
namespace Metalogos.Parser

/-! ## The pieces of a source -/

inductive Piece where
  | kept (t : Text)
  | replaced (header body : Text)
  deriving DecidableEq

/-- The text of the pieces with `fill n body` in the place of the n-th body. -/
def render (fill : Nat → Text → Text) : Nat → List Piece → Text
  | _, [] => []
  | n, .kept t :: ps => t ++ render fill n ps
  | n, .replaced header body :: ps =>
    keyword ++ header ++ lbrace :: (fill n body ++ rbrace :: render fill (n + 1) ps)

def bodiesOf : List Piece → List Text
  | [] => []
  | .kept _ :: ps => bodiesOf ps
  | .replaced _ body :: ps => body :: bodiesOf ps

/-- The pieces back as they were. -/
def original (ps : List Piece) : Text := render (fun _ body => body) 0 ps

/-- The cuts of the loop. -/
def pieces (prev : Option Char) (rest : Text) : List Piece :=
  match _h : turn prev rest with
  | .done => [.kept rest]
  | .word lead tail => .kept lead :: pieces lead.getLast? tail
  | .block lead b => .kept lead :: .replaced b.header b.body :: pieces (some rbrace) b.tail
termination_by rest.length
decreasing_by
  · exact turn_word_lt _h
  · exact turn_block_lt _h

theorem render_original : ∀ (ps : List Piece) (n : Nat),
    render (fun _ body => body) n ps = original ps := by
  suffices h : ∀ (ps : List Piece) (n m : Nat),
      render (fun _ body => body) n ps = render (fun _ body => body) m ps from
    fun ps n => h ps n 0
  intro ps
  induction ps with
  | nil =>
    intro n m
    rfl
  | cons p ps ih =>
    intro n m
    cases p with
    | kept t => simp only [render, ih n m]
    | replaced header body => simp only [render, ih (n + 1) (m + 1)]

@[simp] theorem original_nil : original [] = [] := rfl

@[simp] theorem original_kept (t : Text) (ps : List Piece) :
    original (.kept t :: ps) = t ++ original ps := rfl

@[simp] theorem original_replaced (header body : Text) (ps : List Piece) :
    original (.replaced header body :: ps) = Block.text ⟨header, body, original ps⟩ := by
  rw [original, render, render_original]
  rfl

theorem pieces_done {prev : Option Char} {rest : Text} (h : turn prev rest = .done) :
    pieces prev rest = [.kept rest] := by
  rw [pieces]
  split <;> simp_all

theorem pieces_word {prev : Option Char} {rest lead tail : Text}
    (h : turn prev rest = .word lead tail) :
    pieces prev rest = .kept lead :: pieces lead.getLast? tail := by
  rw [pieces]
  split <;> simp_all

theorem pieces_block {prev : Option Char} {rest lead : Text} {b : Block}
    (h : turn prev rest = .block lead b) :
    pieces prev rest =
      .kept lead :: .replaced b.header b.body :: pieces (some rbrace) b.tail := by
  rw [pieces]
  split <;> simp_all

/-- Putting every body back gives the source. -/
theorem original_pieces (prev : Option Char) (rest : Text) : original (pieces prev rest) = rest := by
  induction prev, rest using pieces.induct with
  | case1 prev rest h =>
    rw [pieces_done h]
    simp
  | case2 prev rest lead tail h ih =>
    rw [pieces_word h, original_kept, ih, (turn_word h).2]
  | case3 prev rest lead b h ih =>
    rw [pieces_block h, original_kept, original_replaced, ih, turn_block h]

/-- The recorded bodies after the blocks of `ps`, counted from `n`. -/
def record (bodies : Bodies) : Nat → List Text → Bodies
  | _, [] => bodies
  | n, b :: bs => record ((placeholder n, b) :: bodies) (n + 1) bs

theorem preprocessLoop_eq (before rest : Text) (bodies : Bodies) (counter : Nat) :
    preprocessLoop before rest bodies counter =
      (before ++ render (fun n _ => placeholder n) counter (pieces before.getLast? rest),
        record bodies counter (bodiesOf (pieces before.getLast? rest))) := by
  induction before, rest, bodies, counter using preprocessLoop.induct with
  | case1 before rest bodies counter h =>
    rw [pieces_done h, preprocessLoop]
    split <;> simp_all [render, record, bodiesOf]
  | case2 before rest bodies counter lead tail h ih =>
    have hlast : (before ++ lead).getLast? = lead.getLast? :=
      List.getLast?_append_of_ne_nil _ (turn_word h).1
    have hstep : preprocessLoop before rest bodies counter =
        preprocessLoop (before ++ lead) tail bodies counter := by
      rw [preprocessLoop]
      split <;> simp_all
    rw [hstep, ih, hlast, pieces_word h, render, bodiesOf, List.append_assoc]
  | case3 before rest bodies counter lead b h ih =>
    have hstep : preprocessLoop before rest bodies counter =
        preprocessLoop
          (before ++ (lead ++ keyword ++ b.header ++ lbrace :: (placeholder counter ++ [rbrace])))
          b.tail ((placeholder counter, b.body) :: bodies) (counter + 1) := by
      rw [preprocessLoop]
      split <;> simp_all
    have hlast : (before ++ (lead ++ keyword ++ b.header ++
        lbrace :: (placeholder counter ++ [rbrace]))).getLast? = some rbrace := by
      simp [List.getLast?_cons]
    rw [hstep, ih, hlast, pieces_block h]
    simp [render, record, bodiesOf]

/-! ## The recorded bodies -/

theorem slot_inj {m n : Nat} (h : slot m = slot n) : m = n := by
  unfold slot at h
  rw [List.append_cancel_right_eq, List.append_cancel_left_eq] at h
  rw [← Nat.ofDigitChars_toDigits (b := 10) (n := m) (by decide) (by decide), h,
    Nat.ofDigitChars_toDigits (by decide) (by decide)]

theorem placeholder_eq_iff {i j : Nat} : placeholder i = placeholder j ↔ i ≡ j [MOD 2 ^ 32] :=
  ⟨fun h => slot_inj h, fun h => congrArg slot h⟩

/-- Bodies recorded under other placeholders do not hide an entry. -/
theorem lookup_record_other (key : Text) : ∀ (bs : List Text) (bodies : Bodies) (n : Nat),
    (∀ j, j < bs.length → placeholder (n + j) ≠ key) →
      (record bodies n bs).lookup key = bodies.lookup key := by
  intro bs
  induction bs with
  | nil =>
    intro bodies n h
    rfl
  | cons b bs ih =>
    intro bodies n h
    have hn : placeholder n ≠ key := h 0 (by simp)
    rw [record, ih]
    · rw [List.lookup_cons, beq_eq_false_iff_ne.mpr hn.symm]
    · intro j hj
      have := h (j + 1) (by simpa using hj)
      rwa [Nat.add_comm j 1, ← Nat.add_assoc] at this

/-- The body found under a placeholder is the last one recorded under it: at an
index that agrees modulo `2 ^ 32`. -/
theorem lookup_record : ∀ (bs : List Text) (bodies : Bodies) (n i : Nat) (b : Text),
    bs[i]? = some b → ∃ j b', bs[j]? = some b' ∧ n + j ≡ n + i [MOD 2 ^ 32] ∧
      (record bodies n bs).lookup (placeholder (n + i)) = some b' := by
  intro bs
  induction bs with
  | nil =>
    intro bodies n i b h
    simp at h
  | cons b₀ bs ih =>
    intro bodies n i b h
    by_cases hex : ∃ j b', bs[j]? = some b' ∧ n + 1 + j ≡ n + i [MOD 2 ^ 32]
    · -- a later body is recorded under the same placeholder
      obtain ⟨j, b', hj, hm⟩ := hex
      obtain ⟨j', b'', hj', hm', hl⟩ := ih ((placeholder n, b₀) :: bodies) (n + 1) j b' hj
      refine ⟨j' + 1, b'', hj', ?_, ?_⟩
      · rw [Nat.add_comm j' 1, ← Nat.add_assoc]
        exact hm'.trans hm
      · rw [record, ← placeholder_eq_iff.mpr hm, hl]
    · -- this body is the last one under its placeholder
      have hi : i = 0 := by
        by_contra hne
        obtain ⟨k, rfl⟩ := Nat.exists_eq_succ_of_ne_zero hne
        refine hex ⟨k, b, by simpa using h, ?_⟩
        rw [Nat.succ_eq_add_one, Nat.add_comm k 1, Nat.add_assoc]
      subst hi
      refine ⟨0, b₀, rfl, rfl, ?_⟩
      rw [record, lookup_record_other]
      · simp
      · intro j hj hk
        exact hex ⟨j, bs[j], List.getElem?_eq_getElem hj, placeholder_eq_iff.mp hk⟩

/-! ## The walk and the reading -/

/-- The pre-pass takes the spot for the keyword. -/
def keywordAt (s : Spot) : Bool := keyword.isPrefixOf s.rest && !guarded keyword s.prev s.rest

/-- The spot makes the pre-pass replace a block. -/
def candidate (s : Spot) : Bool := keywordAt s && (blockAfter s.rest).isSome

theorem identPart_of_alnum {c : Char} (h : c.isAlphanum = true) : identPart c = true := by
  simp only [Char.isAlphanum, Bool.or_eq_true] at h
  unfold identPart identStart
  rcases h with h | h <;> simp [h]

theorem any_false_mono {o : Option Char} {p q : Char → Bool} (h : ∀ c, p c = true → q c = true)
    (hq : o.any q = false) : o.any p = false := by
  cases o with
  | none => rfl
  | some c =>
    rw [Option.any_some, Bool.eq_false_iff] at *
    exact fun hp => hq (h c hp)

/-- Every whole token is one for the guard; a name that only ends in the keyword
(`_template`) is one for the guard too. -/
theorem keywordAt_of_wholeWord {s : Spot} (h : wholeWord s = true) : keywordAt s = true := by
  simp only [wholeWord, Bool.and_eq_true, Bool.not_eq_true'] at h
  obtain ⟨⟨hk, hp⟩, hn⟩ := h
  have hprev : prevIsAlnum s.prev = false :=
    any_false_mono (fun c hc => identPart_of_alnum hc) hp
  have hnext : nextIsIdent keyword s.rest = false := by
    refine any_false_mono (fun c hc => ?_) hn
    rcases Bool.or_eq_true_iff.mp hc with hc | hc
    · exact identPart_of_alnum hc
    · simp [identPart, identStart, hc]
  simp [keywordAt, guarded, hk, hprev, hnext]

theorem candidate_of_declarationAt {s : Spot} {b : Block} (h : declarationAt s = some b) :
    candidate s = true := by
  obtain ⟨-, hw, hb, -⟩ := declarationAt_eq h
  simp [candidate, keywordAt_of_wholeWord hw, hb]

theorem declarationAt_none {s : Spot} (h : candidate s = false) : declarationAt s = none := by
  cases hd : declarationAt s with
  | none => rfl
  | some b => rw [candidate_of_declarationAt hd] at h; cases h

theorem lexeme_keyword {t : Text} (h : keyword <+: t) : lexeme t = .plain 't' (t.drop 1) := by
  obtain ⟨u, rfl⟩ := h
  rfl

theorem keywordAt_starts {s : Spot} (h : keywordAt s = true) : keyword <+: s.rest := by
  simp only [keywordAt, Bool.and_eq_true] at h
  exact List.isPrefixOf_iff_prefix.mp h.1

theorem spots_declaration {s : Spot} {b : Block} (h : declarationAt s = some b) :
    spots s = s :: spots ⟨some rbrace, b.tail, 0⟩ := by
  rw [spots]
  split <;> simp_all

theorem spots_end {s : Spot} (hd : declarationAt s = none)
    (hl : lexeme s.rest = .eof ∨ lexeme s.rest = .unclosed) : spots s = [s] := by
  rw [spots]
  split
  · simp_all
  · split <;> simp_all

theorem spots_literal {s : Spot} {item r : Text} (hd : declarationAt s = none)
    (hl : lexeme s.rest = .literal item r) : spots s = s :: spots ⟨item.getLast?, r, s.depth⟩ := by
  rw [spots]
  split
  · simp_all
  · split <;> simp_all

theorem spots_plain {s : Spot} {c : Char} {r : Text} (hd : declarationAt s = none)
    (hl : lexeme s.rest = .plain c r) : spots s = s :: spots ⟨some c, r, nest c s.depth⟩ := by
  rw [spots]
  split
  · simp_all
  · split <;> simp_all

theorem keywordAt_false_of_lexeme {s : Spot} (h : ∀ c r, lexeme s.rest ≠ .plain c r) :
    keywordAt s = false := by
  by_contra hk
  exact h _ _ (lexeme_keyword (keywordAt_starts (by simpa using hk)))

theorem candidate_false {s : Spot} (h : keywordAt s = false) : candidate s = false := by
  simp [candidate, h]

/-- The reading from `s` agrees with what the walk found there: up to the hit it
passes no keyword, and it comes by the hit. -/
def Meets (hit : Option (Text × Text)) (s : Spot) : Prop :=
  (hit = none → ∀ t ∈ spots s, keywordAt t = false) ∧
    ∀ lead r, hit = some (lead, r) → ∃ pre s₀, spots s = pre ++ spots s₀ ∧ s₀.rest = r ∧
      keywordAt s₀ = true ∧ ∀ t ∈ pre, keywordAt t = false

theorem Meets.step {s s' : Spot} {hit : Option (Text × Text)} (item : Text)
    (hk : keywordAt s = false) (hs : spots s = s :: spots s') (h : Meets hit s') :
    Meets (hit.map fun p => (item ++ p.1, p.2)) s := by
  obtain ⟨hnone, hsome⟩ := h
  unfold Meets
  rw [hs]
  refine ⟨fun h => ?_, fun lead r h => ?_⟩
  · exact List.forall_mem_cons.mpr ⟨hk, hnone (Option.map_eq_none_iff.mp h)⟩
  · obtain ⟨p, hp, he⟩ := Option.map_eq_some_iff.mp h
    cases he
    obtain ⟨pre, s₀, hpre, hr, hk₀, hall⟩ := hsome _ _ hp
    exact ⟨s :: pre, s₀, by rw [hpre, List.cons_append], hr, hk₀,
      List.forall_mem_cons.mpr ⟨hk, hall⟩⟩

theorem Meets.end {s : Spot} (hl : lexeme s.rest = .eof ∨ lexeme s.rest = .unclosed) :
    Meets none s := by
  have hk : keywordAt s = false :=
    keywordAt_false_of_lexeme (by rcases hl with hl | hl <;> simp [hl])
  unfold Meets
  rw [spots_end (declarationAt_none (candidate_false hk)) hl]
  exact ⟨fun _ => by simpa using hk, fun _ _ h => by cases h⟩

theorem meets_walk (prev : Option Char) (rest : Text) : ∀ depth,
    Meets (nextCodeOccurrence keyword prev rest) ⟨prev, rest, depth⟩ := by
  -- a spot that is no keyword is no declaration either, so both step alike
  induction prev, rest using nextCodeOccurrence.induct keyword with
  | case1 prev rest hl =>
    intro depth
    rw [nextCodeOccurrence_end (.inl hl)]
    exact .end (.inl hl)
  | case2 prev rest hl =>
    intro depth
    rw [nextCodeOccurrence_end (.inr hl)]
    exact .end (.inr hl)
  | case3 prev rest item r hl ih =>
    intro depth
    have hk : keywordAt ⟨prev, rest, depth⟩ = false := keywordAt_false_of_lexeme (by simp [hl])
    rw [nextCodeOccurrence_literal hl]
    exact .step item hk (spots_literal (declarationAt_none (candidate_false hk)) hl) (ih depth)
  | case4 prev rest c r hl hc =>
    intro depth
    rw [nextCodeOccurrence_plain hl, if_pos hc]
    refine ⟨by simp, fun lead r' h => ?_⟩
    cases h
    exact ⟨[], ⟨prev, rest, depth⟩, rfl, rfl, hc, by simp⟩
  | case5 prev rest c r hl hc ih =>
    intro depth
    have hk : keywordAt ⟨prev, rest, depth⟩ = false := by simpa [keywordAt] using hc
    rw [nextCodeOccurrence_plain hl, if_neg hc]
    exact .step [c] hk (spots_plain (declarationAt_none (candidate_false hk)) hl)
      (ih (nest c depth))

/-- What a turn of the loop means for the reading. -/
theorem turn_done_spots {prev : Option Char} {rest : Text} (h : turn prev rest = .done)
    (depth : Nat) : ∀ s ∈ spots ⟨prev, rest, depth⟩, candidate s = false := by
  have hm := meets_walk prev rest depth
  unfold turn at h
  split at h
  · rename_i hn
    exact fun s hs => candidate_false (hm.1 hn s hs)
  · split at h <;> cases h

theorem turn_word_spots {prev : Option Char} {rest lead tail : Text}
    (h : turn prev rest = .word lead tail) (depth : Nat) :
    ∃ pre d, spots ⟨prev, rest, depth⟩ = pre ++ spots ⟨lead.getLast?, tail, d⟩ ∧
      ∀ s ∈ pre, candidate s = false := by
  have hm := meets_walk prev rest depth
  unfold turn at h
  split at h
  · cases h
  · rename_i l r hn
    obtain ⟨pre, s₀, hs, rfl, hk, hall⟩ := hm.2 _ _ hn
    have hpre := keywordAt_starts hk
    split at h
    · rename_i hb
      obtain ⟨rfl, rfl⟩ := Turn.word.inj h
      have hc : candidate s₀ = false := by simp [candidate, hb]
      refine ⟨pre ++ [s₀], nest 't' s₀.depth, ?_, ?_⟩
      · have hlast : (l ++ s₀.rest.take 1).getLast? = some 't' := by
          obtain ⟨u, hu⟩ := hpre
          rw [← hu]
          simp [keyword]
        rw [hs, spots_plain (declarationAt_none hc) (lexeme_keyword hpre), hlast]
        simp
      · intro s hs
        rcases List.mem_append.mp hs with hs | hs
        · exact candidate_false (hall s hs)
        · rw [List.mem_singleton.mp hs, hc]
    · cases h

theorem turn_block_spots {prev : Option Char} {rest lead : Text} {b : Block}
    (h : turn prev rest = .block lead b) (depth : Nat) :
    ∃ pre s₀, spots ⟨prev, rest, depth⟩ = pre ++ spots s₀ ∧ candidate s₀ = true ∧
      blockAfter s₀.rest = some b ∧ ∀ s ∈ pre, candidate s = false := by
  have hm := meets_walk prev rest depth
  unfold turn at h
  split at h
  · cases h
  · rename_i l r hn
    obtain ⟨pre, s₀, hs, rfl, hk, hall⟩ := hm.2 _ _ hn
    split at h
    · cases h
    · rename_i b' hb
      cases h
      exact ⟨pre, s₀, hs, by simp [candidate, hk, hb], hb, fun s hs => candidate_false (hall s hs)⟩

/-! ## Transparency -/

/-- The replaced blocks, each with the source text that follows it. -/
def blocks : List Piece → List Block
  | [] => []
  | .kept _ :: ps => blocks ps
  | .replaced header body :: ps => ⟨header, body, original ps⟩ :: blocks ps

theorem bodiesOf_eq : ∀ ps : List Piece, bodiesOf ps = (blocks ps).map Block.body := by
  intro ps
  induction ps with
  | nil => rfl
  | cons p ps ih =>
    cases p with
    | kept t => simpa [bodiesOf, blocks] using ih
    | replaced header body => simp [bodiesOf, blocks, ih]

theorem blocks_length_le : ∀ ps : List Piece, ∀ b ∈ blocks ps,
    b.text.length ≤ (original ps).length := by
  intro ps
  induction ps with
  | nil => simp [blocks]
  | cons p ps ih =>
    intro b hb
    cases p with
    | kept t =>
      have := ih b hb
      rw [original_kept, List.length_append]
      omega
    | replaced header body =>
      rw [original_replaced]
      rcases List.mem_cons.mp hb with rfl | hb
      · exact le_rfl
      · have := ih b hb
        simp only [Block.text, List.length_append, List.length_cons] at this ⊢
        omega

/-- Every keyword the pre-pass acts on is the keyword of a declaration. -/
def OnlyDeclarations (ss : List Spot) : Prop :=
  ∀ s ∈ ss, candidate s = true → ∃ b, declarationAt s = some b

theorem filterMap_declarationAt_nil {ss : List Spot} (h : ∀ s ∈ ss, candidate s = false) :
    ss.filterMap declarationAt = [] := by
  rw [List.filterMap_eq_nil_iff]
  exact fun s hs => declarationAt_none (h s hs)

/-- The reading passes later spots at shorter texts. -/
theorem spots_length_le (s : Spot) : ∀ t ∈ spots s, t.rest.length ≤ s.rest.length := by
  induction s using spots.induct with
  | case1 s ihd ihl ihp =>
    cases hd : declarationAt s with
    | some b =>
      rw [spots_declaration hd]
      exact List.forall_mem_cons.mpr
        ⟨le_rfl, fun t ht => (ihd b hd t ht).trans (declarationAt_lt hd).le⟩
    | none =>
      cases hl : lexeme s.rest with
      | eof => simp [spots_end hd (.inl hl)]
      | unclosed => simp [spots_end hd (.inr hl)]
      | literal item r =>
        rw [spots_literal hd hl]
        exact List.forall_mem_cons.mpr
          ⟨le_rfl, fun t ht => (ihl item r hl t ht).trans (lexeme_literal_lt hl).le⟩
      | plain c r =>
        rw [spots_plain hd hl]
        exact List.forall_mem_cons.mpr
          ⟨le_rfl, fun t ht => (ihp c r hl t ht).trans (lexeme_plain_lt hl).le⟩

/-- A spot passed after `s` is not where `s` is. -/
theorem spots_head (s : Spot) : ∃ later, spots s = s :: later ∧
    ∀ t ∈ later, t.rest.length < s.rest.length := by
  have hlt : ∀ s' : Spot, s'.rest.length < s.rest.length →
      ∀ t ∈ spots s', t.rest.length < s.rest.length :=
    fun s' h t ht => lt_of_le_of_lt (spots_length_le s' t ht) h
  cases hd : declarationAt s with
  | some b => exact ⟨_, spots_declaration hd, hlt _ (declarationAt_lt hd)⟩
  | none =>
    cases hl : lexeme s.rest with
    | eof => exact ⟨[], spots_end hd (.inl hl), by simp⟩
    | unclosed => exact ⟨[], spots_end hd (.inr hl), by simp⟩
    | literal item r => exact ⟨_, spots_literal hd hl, hlt _ (lexeme_literal_lt hl)⟩
    | plain c r => exact ⟨_, spots_plain hd hl, hlt _ (lexeme_plain_lt hl)⟩

/-- A reading whose candidates are declarations finds the blocks the loop replaces. -/
theorem blocks_eq_declared (prev : Option Char) (rest : Text) : ∀ depth,
    OnlyDeclarations (spots ⟨prev, rest, depth⟩) →
      blocks (pieces prev rest) = (spots ⟨prev, rest, depth⟩).filterMap declarationAt := by
  induction prev, rest using pieces.induct with
  | case1 prev rest h =>
    intro depth _
    rw [pieces_done h, filterMap_declarationAt_nil (turn_done_spots h depth)]
    rfl
  | case2 prev rest lead tail h ih =>
    intro depth hall
    obtain ⟨pre, d, hs, hpre⟩ := turn_word_spots h depth
    rw [hs] at hall ⊢
    rw [pieces_word h, blocks, ih d (fun s hs => hall s (List.mem_append_right _ hs)),
      List.filterMap_append, filterMap_declarationAt_nil hpre, List.nil_append]
  | case3 prev rest lead b h ih =>
    intro depth hall
    obtain ⟨pre, s₀, hs, hc, hb, hpre⟩ := turn_block_spots h depth
    rw [hs] at hall ⊢
    obtain ⟨later, hhead, -⟩ := spots_head s₀
    obtain ⟨b', hd⟩ := hall s₀ (by rw [hhead]; simp) hc
    obtain ⟨-, -, hb', -⟩ := declarationAt_eq hd
    cases hb.symm.trans hb'
    rw [spots_declaration hd] at hall ⊢
    have htail : original (pieces (some rbrace) b.tail) = b.tail := original_pieces _ _
    rw [pieces_block h, blocks, blocks, htail,
      ih 0 (fun s hs => hall s (List.mem_append_right _ (List.mem_cons_of_mem _ hs))),
      List.filterMap_append, filterMap_declarationAt_nil hpre, List.nil_append,
      List.filterMap_cons, hd]

/-- A loop that replaces declared bodies only meets no other candidate. -/
theorem onlyDeclarations_of_blocks (prev : Option Char) (rest : Text) : ∀ depth,
    (∀ b ∈ blocks (pieces prev rest),
      ∃ s ∈ spots ⟨prev, rest, depth⟩, declarationAt s = some b) →
      OnlyDeclarations (spots ⟨prev, rest, depth⟩) := by
  induction prev, rest using pieces.induct with
  | case1 prev rest h =>
    intro depth _ s hs hc
    rw [turn_done_spots h depth s hs] at hc
    cases hc
  | case2 prev rest lead tail h ih =>
    intro depth hall
    obtain ⟨pre, d, hs, hpre⟩ := turn_word_spots h depth
    rw [pieces_word h, blocks] at hall
    rw [hs] at hall ⊢
    have hrest : OnlyDeclarations (spots ⟨lead.getLast?, tail, d⟩) := by
      refine ih d fun b hb => ?_
      obtain ⟨s, hs, hd⟩ := hall b hb
      rcases List.mem_append.mp hs with hs | hs
      · rw [declarationAt_none (hpre s hs)] at hd
        cases hd
      · exact ⟨s, hs, hd⟩
    intro s hs hc
    rcases List.mem_append.mp hs with hs | hs
    · rw [hpre s hs] at hc
      cases hc
    · exact hrest s hs hc
  | case3 prev rest lead b h ih =>
    intro depth hall
    obtain ⟨pre, s₀, hs, hc₀, hb, hpre⟩ := turn_block_spots h depth
    have htail : original (pieces (some rbrace) b.tail) = b.tail := original_pieces _ _
    rw [pieces_block h, blocks, blocks, htail] at hall
    rw [hs] at hall ⊢
    obtain ⟨later, hhead, hlater⟩ := spots_head s₀
    -- the block of this turn is declared where the walk stands, not further on
    have hd₀ : declarationAt s₀ = some b := by
      obtain ⟨s, hs, hd⟩ := hall b (by simp)
      rcases List.mem_append.mp hs with hs | hs
      · rw [declarationAt_none (hpre s hs)] at hd
        cases hd
      · rw [hhead] at hs
        rcases List.mem_cons.mp hs with rfl | hs
        · exact hd
        · have hk : keyword <+: s₀.rest := by
            simp only [candidate, Bool.and_eq_true] at hc₀
            exact keywordAt_starts hc₀.1
          have h1 : b.text = s.rest := declarationAt_text hd
          have h2 : b.text = s₀.rest := blockAfter_text hk hb
          have h3 := hlater s hs
          rw [← h1, ← h2] at h3
          exact absurd h3 (lt_irrefl _)
    rw [spots_declaration hd₀] at hall ⊢
    have hrest : OnlyDeclarations (spots ⟨some rbrace, b.tail, 0⟩) := by
      refine ih 0 fun b' hb' => ?_
      obtain ⟨s, hs, hd⟩ := hall b' (List.mem_cons_of_mem _ hb')
      rcases List.mem_append.mp hs with hs | hs
      · rw [declarationAt_none (hpre s hs)] at hd
        cases hd
      · rcases List.mem_cons.mp hs with rfl | hs
        · -- a later block is not this one again
          cases hd₀.symm.trans hd
          have hle := blocks_length_le _ _ hb'
          rw [htail] at hle
          simp only [Block.text, List.length_append, List.length_cons] at hle
          omega
        · exact ⟨s, hs, hd⟩
    intro s hs hc
    rcases List.mem_append.mp hs with hs | hs
    · rw [hpre s hs] at hc
      cases hc
    · rcases List.mem_cons.mp hs with rfl | hs
      · exact ⟨b, hd₀⟩
      · exact hrest s hs hc

theorem blockAfter_of_mem_blocks (prev : Option Char) (rest : Text) :
    ∀ b ∈ blocks (pieces prev rest), blockAfter b.text = some b := by
  induction prev, rest using pieces.induct with
  | case1 prev rest h => simp [pieces_done h, blocks]
  | case2 prev rest lead tail h ih =>
    rw [pieces_word h, blocks]
    exact ih
  | case3 prev rest lead b h ih =>
    rw [pieces_block h, blocks, blocks, original_pieces]
    refine List.forall_mem_cons.mpr ⟨?_, ih⟩
    obtain ⟨-, s₀, -, hc, hb, -⟩ := turn_block_spots h 0
    simp only [candidate, Bool.and_eq_true] at hc
    rw [blockAfter_text (keywordAt_starts hc.1) hb, hb]

/-- The pre-pass is transparent on a source: every character outside the replaced
bodies is kept, each body is recorded under its own placeholder, and each
replaced block is the body of a template declaration: the keyword before it is a
whole token in code, outside every bracket (so in no body of a pattern, a route,
a tool, a hook or a test), and its header has the declaration's shape. -/
structure Transparent (source : Text) : Prop where
  original : original (pieces none source) = source
  rewritten : (preprocessTemplates source).1 =
    render (fun n _ => placeholder n) 0 (pieces none source)
  recorded : ∀ i b, (bodiesOf (pieces none source))[i]? = some b →
    (preprocessTemplates source).2.lookup (placeholder i) = some b
  declared : ∀ b ∈ blocks (pieces none source), ∃ s ∈ codeSpots source,
    s.rest = b.text ∧ s.depth = 0 ∧ wholeWord s = true ∧ isHeader b.header = true

/-- Bodies that share a placeholder are the same text. -/
def PlaceholdersDistinct (bodies : List Text) : Prop :=
  ∀ i j b b', bodies[i]? = some b → bodies[j]? = some b' → i ≡ j [MOD 2 ^ 32] → b = b'

theorem recorded_iff (source : Text) :
    (∀ i b, (bodiesOf (pieces none source))[i]? = some b →
      (preprocessTemplates source).2.lookup (placeholder i) = some b) ↔
      PlaceholdersDistinct (bodiesOf (pieces none source)) := by
  have hrec : (preprocessTemplates source).2 = record [] 0 (bodiesOf (pieces none source)) := by
    rw [preprocessTemplates, preprocessLoop_eq]
    rfl
  rw [hrec]
  constructor
  · intro h i j b b' hi hj hm
    have h1 := h i b hi
    rw [placeholder_eq_iff.mpr hm, h j b' hj] at h1
    exact (Option.some.inj h1).symm
  · intro h i b hi
    obtain ⟨j, b', hj, hm, hl⟩ := lookup_record _ [] 0 i b hi
    rw [Nat.zero_add, Nat.zero_add] at hm
    rw [Nat.zero_add] at hl
    rw [hl, h i j b b' hi hj hm.symm]

/-- The declared field says that the blocks are found by the reading. -/
theorem declared_iff {source : Text} {b : Block} (hb : b ∈ blocks (pieces none source)) :
    (∃ s ∈ codeSpots source, s.rest = b.text ∧ s.depth = 0 ∧ wholeWord s = true ∧
      isHeader b.header = true) ↔ ∃ s ∈ codeSpots source, declarationAt s = some b := by
  constructor
  · rintro ⟨s, hs, hr, hz, hw, hh⟩
    refine ⟨s, hs, ?_⟩
    rw [declarationAt, if_pos ⟨hz, hw⟩, hr, blockAfter_of_mem_blocks _ _ b hb,
      Option.filter_some, if_pos hh]
  · rintro ⟨s, hs, hd⟩
    obtain ⟨hz, hw, -, hh⟩ := declarationAt_eq hd
    exact ⟨s, hs, (declarationAt_text hd).symm, hz, hw, hh⟩

/-- **Transparency**: exactly when every word `template` in code that the guard
lets through, and after which a block of braces closes, is the keyword of a
top-level template declaration, and no two declarations `2 ^ 32` apart differ. -/
theorem prepass_transparent_iff (source : Text) :
    Transparent source ↔
      OnlyDeclarations (codeSpots source) ∧ PlaceholdersDistinct (declaredBodies source) := by
  have hbodies : OnlyDeclarations (codeSpots source) →
      bodiesOf (pieces none source) = declaredBodies source := by
    intro h
    rw [bodiesOf_eq, blocks_eq_declared none source 0 h]
    rfl
  constructor
  · intro h
    have honly : OnlyDeclarations (codeSpots source) :=
      onlyDeclarations_of_blocks none source 0
        fun b hb => (declared_iff hb).mp (h.declared b hb)
    exact ⟨honly, hbodies honly ▸ (recorded_iff source).mp h.recorded⟩
  · rintro ⟨honly, hdist⟩
    refine ⟨original_pieces _ _, ?_, (recorded_iff source).mpr (hbodies honly ▸ hdist), ?_⟩
    · rw [preprocessTemplates, preprocessLoop_eq]
      rfl
    · intro b hb
      refine (declared_iff hb).mpr ?_
      rw [blocks_eq_declared none source 0 honly, List.mem_filterMap] at hb
      exact hb

/-- **Counterexample**: a parameter named `template` takes the pattern's body for a
template body; the parser gets an empty husk in its place. -/
theorem parameter_swallows_body :
    (preprocessTemplates "pattern P(template: String) -> String \x7b return template \x7d".toList).1 =
        "pattern P(template: String) -> String \x7b__TEMPLATE_BODY_0__\x7d".toList ∧
      ¬ Transparent "pattern P(template: String) -> String \x7b return template \x7d".toList := by
  refine ⟨by decide +kernel, fun h => ?_⟩
  have hnone : ∀ s ∈ codeSpots
      "pattern P(template: String) -> String \x7b return template \x7d".toList,
      wholeWord s = true → s.depth ≠ 0 := by
    decide +kernel
  have hblock : ⟨": String) -> String ".toList, " return template ".toList, []⟩ ∈ blocks (pieces none
      "pattern P(template: String) -> String \x7b return template \x7d".toList) := by
    decide +kernel
  obtain ⟨s, hs, -, hz, hw, -⟩ := h.declared _ hblock
  exact hnone s hs hw hz

end Metalogos.Parser
