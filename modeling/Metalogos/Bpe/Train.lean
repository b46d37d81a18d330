import Mathlib.Algebra.Group.Nat.Defs
import Mathlib.Data.List.Dedup
import Mathlib.Data.List.Infix
import Mathlib.Data.List.Perm.Subperm
import Metalogos.Lib.Dict
import Metalogos.Lib.Fallible
import Metalogos.Lib.TopK

/-!
# Byte-pair vocabularies

`train_bpe`, `encode_bpe` and `decode_bpe` of `metalogos-reflex/src/nn/bpe.rs`. Training starts from the characters of
the corpus and merges one pair of neighbouring tokens in every round, encoding replays the merges in their order. The
hash maps list what they hold in any order (`Listing`), and where two pairs are tied the order decides.

* `bpe_lossless`: a text is encoded exactly when its characters are in the corpus, and decoded to itself;
* `train_size`: training reaches the size that was asked for or makes one token of the corpus;
* `train_rarest`: every merge is of a pair that no other pair of neighbours is rarer than.
-/
namespace Metalogos.Bpe

open Metalogos.Lib

abbrev Token := List Char

abbrev Pair := Token × Token

/-- mirrors metalogos-reflex/src/nn/bpe.rs:25-34 -/
structure BpeVocab where
  merges : List Pair
  vocab : Dict Token Nat
  idToToken : Dict Nat Token
  vocabSize : Nat

/-- `as u32` -/
def asU32 (n : Nat) : Nat := n % 2 ^ 32

/-- mirrors metalogos-reflex/src/nn/bpe.rs:114-119 and :159-162 -/
def addToken (vocab : Dict Token Nat) (t : Token) : Dict Token Nat :=
  if vocab.has t then vocab else vocab.set t (asU32 vocab.keys.length)

def singles (text : List Char) : List Token := text.map fun c => [c]

/-- `windows(2)` -/
def windows : List Token → List Pair
  | a :: b :: ts => (a, b) :: windows (b :: ts)
  | _ => []

/-- mirrors metalogos-reflex/src/nn/bpe.rs:126-130 -/
def pairCounts (tokens : List Token) : Dict Pair Nat :=
  (windows tokens).foldl (fun d p => d.set p ((d.get p).getD 0 + 1)) .empty

/-- mirrors metalogos-reflex/src/nn/bpe.rs:140-151 -/
def pairCmp (a b : Pair × Nat) : Ordering :=
  match compare b.2 a.2 with
  | .eq => compare (b.1.1 ++ b.1.2) (a.1.1 ++ a.1.2)
  | other => other

/-- `Iterator::max_by`: the last of the greatest. -/
def maxBy {α : Type} (cmp : α → α → Ordering) : List α → Option α
  | [] => none
  | a :: l => some (l.foldl (fun x y => if cmp x y = .gt then x else y) a)

/-- mirrors metalogos-reflex/src/nn/bpe.rs:138-153 -/
def bestPair (o : Listing (Pair × Nat)) (tokens : List Token) : Option Pair :=
  (maxBy pairCmp (o.list (pairCounts tokens).pairs)).map (·.1)

/-- mirrors metalogos-reflex/src/nn/bpe.rs:181-194 -/
def applyMerge (pair : Pair) (merged : Token) : List Token → List Token
  | a :: b :: ts =>
    if a = pair.1 ∧ b = pair.2 then merged :: applyMerge pair merged ts else a :: applyMerge pair merged (b :: ts)
  | ts => ts

/-- What the training loop carries. -/
structure Training where
  tokens : List Token
  vocab : Dict Token Nat
  merges : List Pair

/-- mirrors metalogos-reflex/src/nn/bpe.rs:155-165 -/
def Training.round (s : Training) (p : Pair) : Training where
  tokens := applyMerge p (p.1 ++ p.2) s.tokens
  vocab := addToken s.vocab (p.1 ++ p.2)
  merges := s.merges ++ [p]

/-- A round has a token less than the one before, so the tokens of the corpus bound the rounds.
mirrors metalogos-reflex/src/nn/bpe.rs:124-166 -/
def trainLoop (o : Listing (Pair × Nat)) (target : Nat) : Nat → Training → Training
  | 0, s => s
  | rounds + 1, s =>
    if s.vocab.keys.length < target then
      match bestPair o s.tokens with
      | none => s
      | some p => trainLoop o target rounds (s.round p)
    else s

def initial (corpus : List Char) : Training :=
  ⟨singles corpus, (singles corpus).foldl addToken .empty, []⟩

/-- `collect` of the swapped entries: the last of equal identifiers stays. -/
def invert (entries : List (Token × Nat)) : Dict Nat Token :=
  entries.foldl (fun d e => d.set e.2 e.1) .empty

/-- mirrors metalogos-reflex/src/nn/bpe.rs:99-178 -/
def trainBpe (o : Listing (Pair × Nat)) (o' : Listing (Token × Nat)) (corpus : List Char) (target : Nat) :
    Except String BpeVocab :=
  if corpus = [] then .error "reflex_bpe_train: corpus is empty"
  else if target < 2 then .error ("reflex_bpe_train: vocab_size must be >= 2, got " ++ toString target)
  else
    let s := trainLoop o target corpus.length (initial corpus)
    .ok ⟨s.merges, s.vocab, invert (o'.list s.vocab.pairs), s.vocab.keys.length⟩

/-- mirrors metalogos-reflex/src/nn/bpe.rs:207-214 -/
def mergeStep (vocab : Dict Token Nat) (tokens : List Token) (p : Pair) : List Token :=
  if vocab.has (p.1 ++ p.2) then applyMerge p (p.1 ++ p.2) tokens else tokens

/-- mirrors metalogos-reflex/src/nn/bpe.rs:219-229 -/
def tokenId (v : BpeVocab) (t : Token) : Except String Nat :=
  match v.vocab.get t with
  | some id => .ok id
  | none => .error ("reflex_bpe_encode: token '" ++ String.ofList t ++ "' not in vocabulary (vocab_size=" ++
      toString v.vocabSize ++ ")")

/-- mirrors metalogos-reflex/src/nn/bpe.rs:199-231 -/
def encodeBpe (text : List Char) (v : BpeVocab) : Except String (List Nat) :=
  if text = [] then .ok [] else (v.merges.foldl (mergeStep v.vocab) (singles text)).mapM (tokenId v)

def decodeFrom (v : BpeVocab) : Nat → List Nat → Except String (List Char)
  | _, [] => .ok []
  | i, id :: ids =>
    match v.idToToken.get id with
    | some t => do
      let rest ← decodeFrom v (i + 1) ids
      .ok (t ++ rest)
    | none => .error ("reflex_bpe_decode: token ID " ++ toString id ++ " at position " ++ toString i ++
        " not in vocabulary")

/-- mirrors metalogos-reflex/src/nn/bpe.rs:234-247 -/
def decodeBpe (ids : List Nat) (v : BpeVocab) : Except String (List Char) := decodeFrom v 0 ids

/-! ## One merge -/

section

variable {p : Pair} {ts : List Token}

theorem applyMerge_flatten (p : Pair) (ts : List Token) : (applyMerge p (p.1 ++ p.2) ts).flatten = ts.flatten := by
  fun_induction applyMerge p (p.1 ++ p.2) ts with
  | case1 a b ts h ih => rw [List.flatten_cons, ih, h.1, h.2, List.flatten_cons, List.flatten_cons, List.append_assoc]
  | case2 a b ts h ih => rw [List.flatten_cons, ih, ← List.flatten_cons]
  | case3 => rfl

theorem length_applyMerge_le (p : Pair) (m : Token) (ts : List Token) : (applyMerge p m ts).length ≤ ts.length := by
  fun_induction applyMerge p m ts with
  | case1 a b ts h ih =>
    simp only [List.length_cons]
    omega
  | case2 a b ts h ih => exact Nat.succ_le_succ ih
  | case3 => exact Nat.le_refl _

/-- A pair that occurs makes the text shorter. -/
theorem length_applyMerge_lt {m : Token} (h : p ∈ windows ts) : (applyMerge p m ts).length < ts.length := by
  fun_induction applyMerge p m ts with
  | case1 a b ts _ ih =>
    have hle := length_applyMerge_le p m ts
    simp only [List.length_cons]
    omega
  | case2 a b ts hne ih =>
    rcases List.mem_cons.1 h with rfl | h
    · exact absurd ⟨rfl, rfl⟩ hne
    · exact Nat.succ_lt_succ (ih h)
  | case3 ts hshort =>
    rcases ts with _ | ⟨a, _ | ⟨b, ts⟩⟩
    · cases h
    · cases h
    · exact absurd rfl (hshort a b ts)

theorem mem_applyMerge {m t : Token} (h : t ∈ applyMerge p m ts) : t = m ∨ t ∈ ts := by
  fun_induction applyMerge p m ts with
  | case1 a b ts _ ih =>
    rcases List.mem_cons.1 h with rfl | h
    · exact .inl rfl
    · exact (ih h).imp_right fun ht => List.mem_cons_of_mem _ (List.mem_cons_of_mem _ ht)
  | case2 a b ts _ ih =>
    rcases List.mem_cons.1 h with rfl | h
    · exact .inr List.mem_cons_self
    · exact (ih h).imp_right fun ht => List.mem_cons_of_mem _ ht
  | case3 => exact .inr h

theorem windows_infix (h : p ∈ windows ts) : p.1 ++ p.2 <:+: ts.flatten := by
  fun_induction windows ts with
  | case1 a b ts ih =>
    rcases List.mem_cons.1 h with rfl | h
    · exact ⟨[], ts.flatten, by simp⟩
    · exact (ih h).trans (List.suffix_append a _).isInfix
  | case2 => cases h

theorem length_of_windows_nil (h : windows ts = []) : ts.length ≤ 1 := by
  rcases ts with _ | ⟨a, _ | ⟨b, ts⟩⟩
  · exact Nat.zero_le 1
  · exact Nat.le_refl 1
  · cases h

end

/-! ## The pair that is merged -/

section

variable {o : Listing (Pair × Nat)} {ts : List Token} {p : Pair}

theorem count_foldl (l : List Pair) (d : Dict Pair Nat) (p : Pair) :
    ((l.foldl (fun d q => d.set q ((d.get q).getD 0 + 1)) d).get p).getD 0 = (d.get p).getD 0 + l.count p ∧
      ((l.foldl (fun d q => d.set q ((d.get q).getD 0 + 1)) d).has p = true ↔ d.has p = true ∨ p ∈ l) := by
  induction l generalizing d with
  | nil => simp
  | cons q l ih =>
    obtain ⟨hcount, hhas⟩ := ih (d.set q ((d.get q).getD 0 + 1))
    refine ⟨?_, ?_⟩
    · rw [List.foldl_cons, hcount, Dict.get_set]
      by_cases hpq : p = q
      · subst hpq
        rw [if_pos rfl, List.count_cons_self, Option.getD_some]
        omega
      · rw [if_neg hpq, List.count_cons_of_ne (Ne.symm hpq)]
    · rw [List.foldl_cons, hhas, Dict.has, Dict.get_set, List.mem_cons]
      by_cases hpq : p = q
      · simp [hpq]
      · simp [hpq, Dict.has]

/-- What the counts say: a pair is listed with the number of its occurrences, if it occurs. -/
theorem mem_pairCounts {n : Nat} : (p, n) ∈ (pairCounts ts).pairs ↔ p ∈ windows ts ∧ n = (windows ts).count p := by
  have hnodup : (pairCounts ts).keys.Nodup := by
    unfold pairCounts
    generalize hd : (Dict.empty : Dict Pair Nat) = d
    have hstart : d.keys.Nodup := by rw [← hd]; exact List.nodup_nil
    clear hd
    induction windows ts generalizing d with
    | nil => exact hstart
    | cons q l ih => exact ih _ (d.nodup_keys_set q _ hstart)
  obtain ⟨hcount, hhas⟩ := count_foldl (windows ts) .empty p
  rw [Dict.get_empty, Option.getD_none, Nat.zero_add] at hcount
  have hhas' : (pairCounts ts).has p = true ↔ p ∈ windows ts := by
    rw [pairCounts, hhas]
    simp [Dict.has]
  constructor
  · intro h
    have hget : (pairCounts ts).get p = some n := Dict.get_of_mem_pairs hnodup h
    refine ⟨hhas'.1 ((Dict.has_eq_true _ _).2 ⟨n, hget⟩), ?_⟩
    rw [← hcount, ← pairCounts, hget, Option.getD_some]
  · rintro ⟨hp, rfl⟩
    obtain ⟨n, hn⟩ := (Dict.has_eq_true _ _).1 (hhas'.2 hp)
    rw [← hcount, ← pairCounts, hn]
    exact Dict.mem_pairs_of_get hn

theorem maxBy_mem {α : Type} {cmp : α → α → Ordering} {l : List α} {m : α} (h : maxBy cmp l = some m) : m ∈ l := by
  cases l with
  | nil => cases h
  | cons a l =>
    obtain rfl := Option.some.inj h
    clear h
    induction l generalizing a with
    | nil => exact List.mem_cons_self
    | cons b l ih =>
      rw [List.foldl_cons]
      rcases List.mem_cons.1 (ih (if cmp a b = .gt then a else b)) with hm | hm
      · rw [hm]
        split_ifs
        · exact List.mem_cons_self
        · exact List.mem_cons_of_mem _ List.mem_cons_self
      · exact List.mem_cons_of_mem _ (List.mem_cons_of_mem _ hm)

/-- Where greater means a smaller key, the greatest has the smallest. -/
theorem maxBy_least {α : Type} {cmp : α → α → Ordering} {key : α → Nat} (hgt : ∀ x y, cmp x y = .gt → key x ≤ key y)
    (hle : ∀ x y, cmp x y ≠ .gt → key y ≤ key x) {l : List α} {m : α} (h : maxBy cmp l = some m) :
    ∀ y ∈ l, key m ≤ key y := by
  cases l with
  | nil => cases h
  | cons a l =>
    obtain rfl := Option.some.inj h
    clear h
    induction l generalizing a with
    | nil => simp
    | cons b l ih =>
      rw [List.foldl_cons]
      have hbest := ih (if cmp a b = .gt then a else b)
      have hboth : key (if cmp a b = .gt then a else b) ≤ key a ∧ key (if cmp a b = .gt then a else b) ≤ key b := by
        split_ifs with hc
        · exact ⟨Nat.le_refl _, hgt a b hc⟩
        · exact ⟨hle a b hc, Nat.le_refl _⟩
      have hhead := hbest _ List.mem_cons_self
      intro y hy
      rcases List.mem_cons.1 hy with rfl | hy
      · exact hhead.trans hboth.1
      · rcases List.mem_cons.1 hy with rfl | hy
        · exact hhead.trans hboth.2
        · exact hbest y (List.mem_cons_of_mem _ hy)

theorem pairCmp_gt (a b : Pair × Nat) (h : pairCmp a b = .gt) : a.2 ≤ b.2 := by
  unfold pairCmp at h
  split at h
  next heq => exact Nat.le_of_eq (Nat.compare_eq_eq.1 heq).symm
  next => exact Nat.le_of_lt (Nat.compare_eq_gt.1 h)

theorem pairCmp_not_gt (a b : Pair × Nat) (h : pairCmp a b ≠ .gt) : b.2 ≤ a.2 := by
  unfold pairCmp at h
  split at h
  next heq => exact Nat.le_of_eq (Nat.compare_eq_eq.1 heq)
  next => exact Nat.not_lt.1 fun hlt => h (Nat.compare_eq_gt.2 hlt)

/-- The merged pair occurs, and no other pair occurs less often. -/
theorem bestPair_spec (h : bestPair o ts = some p) :
    p ∈ windows ts ∧ ∀ q ∈ windows ts, (windows ts).count p ≤ (windows ts).count q := by
  obtain ⟨⟨p, n⟩, hmax, rfl⟩ := Option.map_eq_some_iff.1 h
  obtain ⟨hp, rfl⟩ := mem_pairCounts.1 (o.mem_list.1 (maxBy_mem hmax))
  refine ⟨hp, fun q hq => ?_⟩
  have hlisted : (q, (windows ts).count q) ∈ o.list (pairCounts ts).pairs :=
    o.mem_list.2 (mem_pairCounts.2 ⟨hq, rfl⟩)
  exact maxBy_least (fun x y => pairCmp_gt x y) (fun x y => pairCmp_not_gt x y) hmax _ hlisted

theorem bestPair_none (h : bestPair o ts = none) : ts.length ≤ 1 := by
  refine length_of_windows_nil (List.eq_nil_iff_forall_not_mem.2 fun q hq => ?_)
  have hlisted : (q, (windows ts).count q) ∈ o.list (pairCounts ts).pairs :=
    o.mem_list.2 (mem_pairCounts.2 ⟨hq, rfl⟩)
  unfold bestPair at h
  cases hl : o.list (pairCounts ts).pairs with
  | nil =>
    rw [hl] at hlisted
    cases hlisted
  | cons e l =>
    rw [hl] at h
    cases h

end

/-! ## The vocabulary grows -/

/-- Tokens are numbered in the order they came. -/
structure Numbered (vocab : Dict Token Nat) : Prop where
  nodup : vocab.keys.Nodup
  ids : vocab.pairs.map (·.2) = (List.range vocab.keys.length).map asU32

theorem numbered_empty : Numbered .empty := ⟨List.nodup_nil, rfl⟩

section

variable {vocab : Dict Token Nat} {t u : Token}

theorem has_addToken : (addToken vocab t).has u = true ↔ vocab.has u = true ∨ u = t := by
  unfold addToken
  split_ifs with h
  · exact ⟨.inl, fun hu => hu.elim id fun hut => hut ▸ h⟩
  · rw [Dict.has, Dict.get_set]
    by_cases hut : u = t
    · simp [hut]
    · simp [hut, Dict.has]

/-- A new token gets the next number. -/
theorem addToken_new (h : ¬vocab.has t = true) :
    (addToken vocab t).pairs = vocab.pairs ++ [(t, asU32 vocab.keys.length)] := by
  have hnone : vocab.get t = none := (Dict.has_eq_false _ _).1 (Bool.eq_false_iff.2 h)
  have hne : ∀ e ∈ vocab.pairs, (decide (e.1 ≠ t)) = true := by
    intro e he
    rw [decide_eq_true_eq]
    rintro rfl
    obtain ⟨w, hw⟩ := (vocab.mem_keys e.1).1 (List.mem_map_of_mem he)
    rw [hnone] at hw
    cases hw
  rw [addToken, if_neg h, Dict.set, Dict.erase, List.filter_eq_self.2 hne]

theorem length_addToken (vocab : Dict Token Nat) (t : Token) : (addToken vocab t).keys.length ≤ vocab.keys.length + 1 := by
  by_cases h : vocab.has t = true
  · rw [addToken, if_pos h]
    exact Nat.le_succ _
  · rw [Dict.keys, addToken_new h, List.map_append, List.length_append]
    exact Nat.le_refl _

theorem Numbered.add (h : Numbered vocab) (t : Token) : Numbered (addToken vocab t) := by
  by_cases hin : vocab.has t = true
  · rwa [addToken, if_pos hin]
  · have hkeys : (addToken vocab t).keys = vocab.keys ++ [t] := by
      rw [Dict.keys, addToken_new hin, List.map_append]
      rfl
    refine ⟨?_, ?_⟩
    · rw [addToken, if_neg hin]
      exact vocab.nodup_keys_set t _ h.nodup
    · rw [hkeys, addToken_new hin, List.map_append, h.ids, List.length_append, List.length_singleton,
        List.range_succ, List.map_append]
      rfl

end

/-- What one step of training keeps: the corpus can be read back from the tokens, every token is in the vocabulary,
and every token of the vocabulary is a piece of the corpus. -/
structure Trained (corpus : List Char) (s : Training) : Prop where
  numbered : Numbered s.vocab
  text : s.tokens.flatten = corpus
  known : ∀ t ∈ s.tokens, s.vocab.has t = true
  alphabet : ∀ c ∈ corpus, s.vocab.has [c] = true
  pieces : ∀ t, s.vocab.has t = true → t <:+: corpus
  merged : ∀ p ∈ s.merges, s.vocab.has (p.1 ++ p.2) = true ∧ p.1 ++ p.2 <:+: corpus
  room : s.vocab.keys.length ≤ corpus.length + s.merges.length
  shrinks : s.merges.length + s.tokens.length ≤ corpus.length

theorem flatten_singles (text : List Char) : (singles text).flatten = text := by
  induction text with
  | nil => rfl
  | cons c cs ih =>
    change c :: (singles cs).flatten = c :: cs
    rw [ih]

theorem foldl_addToken (ts : List Token) {vocab : Dict Token Nat} (h : Numbered vocab) :
    Numbered (ts.foldl addToken vocab) ∧
      (∀ u, (ts.foldl addToken vocab).has u = true ↔ vocab.has u = true ∨ u ∈ ts) ∧
      (ts.foldl addToken vocab).keys.length ≤ vocab.keys.length + ts.length := by
  induction ts generalizing vocab with
  | nil => exact ⟨h, by simp, Nat.le_refl _⟩
  | cons t ts ih =>
    obtain ⟨hnum, hhas, hlen⟩ := ih (h.add t)
    refine ⟨hnum, fun u => ?_, ?_⟩
    · rw [List.foldl_cons, hhas, has_addToken, List.mem_cons, or_assoc]
    · have hone := length_addToken vocab t
      rw [List.foldl_cons, List.length_cons]
      omega

theorem mem_singles {text : List Char} {t : Token} : t ∈ singles text ↔ ∃ c ∈ text, [c] = t := List.mem_map

theorem initial_has {corpus : List Char} {t : Token} :
    (initial corpus).vocab.has t = true ↔ t ∈ singles corpus := by
  rw [initial, (foldl_addToken (singles corpus) numbered_empty).2.1]
  simp [Dict.has]

theorem trained_initial (corpus : List Char) : Trained corpus (initial corpus) where
  numbered := (foldl_addToken _ numbered_empty).1
  text := flatten_singles corpus
  known t ht := initial_has.2 ht
  alphabet c hc := initial_has.2 (mem_singles.2 ⟨c, hc, rfl⟩)
  pieces t ht := by
    obtain ⟨c, hc, rfl⟩ := mem_singles.1 (initial_has.1 ht)
    obtain ⟨l, r, rfl⟩ := List.append_of_mem hc
    exact ⟨l, r, by simp⟩
  merged p hp := by cases hp
  room := by simpa [initial, singles, Dict.empty, Dict.keys] using (foldl_addToken (singles corpus) numbered_empty).2.2
  shrinks := by simp [initial, singles]

theorem Trained.round {corpus : List Char} {s : Training} {p : Pair} (h : Trained corpus s)
    (hp : p ∈ windows s.tokens) : Trained corpus (s.round p) where
  numbered := h.numbered.add _
  text := (applyMerge_flatten p s.tokens).trans h.text
  known t ht := has_addToken.2 ((mem_applyMerge ht).elim .inr fun hin => .inl (h.known t hin))
  alphabet c hc := has_addToken.2 (.inl (h.alphabet c hc))
  pieces t ht := by
    rcases has_addToken.1 ht with hin | rfl
    · exact h.pieces t hin
    · rw [← h.text]
      exact windows_infix hp
  merged q hq := by
    rcases List.mem_append.1 hq with hq | hq
    · exact ⟨has_addToken.2 (.inl (h.merged q hq).1), (h.merged q hq).2⟩
    · rw [List.mem_singleton.1 hq]
      exact ⟨has_addToken.2 (.inr rfl), by rw [← h.text]; exact windows_infix hp⟩
  room := by
    have hroom := h.room
    have hone := length_addToken s.vocab (p.1 ++ p.2)
    simp only [Training.round, List.length_append, List.length_singleton]
    omega
  shrinks := by
    have hshrinks := h.shrinks
    have hshort := length_applyMerge_lt (m := p.1 ++ p.2) hp
    simp only [Training.round, List.length_append, List.length_singleton]
    omega

section

variable {o : Listing (Pair × Nat)} {target rounds : Nat} {s : Training}

/-- What every merge of a pair that occurs keeps holds after training. -/
theorem trainLoop_keeps {P : Training → Prop} (hstep : ∀ s p, bestPair o s.tokens = some p →
    s.vocab.keys.length < target → P s → P (s.round p)) (h : P s) : P (trainLoop o target rounds s) := by
  induction rounds generalizing s with
  | zero => exact h
  | succ rounds ih =>
    rw [trainLoop]
    split_ifs with hroom
    · cases hbest : bestPair o s.tokens with
      | none => exact h
      | some p => exact ih (hstep s p hbest hroom h)
    · exact h

theorem trainLoop_trained {corpus : List Char} (h : Trained corpus s) :
    Trained corpus (trainLoop o target rounds s) :=
  trainLoop_keeps (fun _ _ hbest _ hs => hs.round (bestPair_spec hbest).1) h

/-- The rounds suffice: the loop ends because the vocabulary is large enough or because no pair is left. -/
theorem trainLoop_stops (target : Nat) (h : s.tokens.length ≤ rounds) :
    target ≤ (trainLoop o target rounds s).vocab.keys.length ∨ (trainLoop o target rounds s).tokens.length ≤ 1 := by
  induction rounds generalizing s with
  | zero => exact .inr (by rw [trainLoop]; omega)
  | succ rounds ih =>
    rw [trainLoop]
    split_ifs with hroom
    · cases hbest : bestPair o s.tokens with
      | none => exact .inr (bestPair_none hbest)
      | some p =>
        have hshort := length_applyMerge_lt (m := p.1 ++ p.2) (bestPair_spec hbest).1
        exact ih (s := s.round p) (by simp only [Training.round]; omega)
    · exact .inl (Nat.not_lt.1 hroom)

end

/-! ## Back from the numbers -/

theorem invert_other {entries : List (Token × Nat)} {d : Dict Nat Token} {id : Nat}
    (h : id ∉ entries.map (·.2)) : (entries.foldl (fun d e => d.set e.2 e.1) d).get id = d.get id := by
  induction entries generalizing d with
  | nil => rfl
  | cons e es ih =>
    rw [List.map_cons, List.mem_cons, not_or] at h
    rw [List.foldl_cons, ih h.2, Dict.get_set, if_neg h.1]

theorem invert_get {entries : List (Token × Nat)} {t : Token} {id : Nat} (hnodup : (entries.map (·.2)).Nodup)
    (h : (t, id) ∈ entries) : (invert entries).get id = some t := by
  unfold invert
  generalize (Dict.empty : Dict Nat Token) = d
  induction entries generalizing d with
  | nil => cases h
  | cons e es ih =>
    rw [List.map_cons, List.nodup_cons] at hnodup
    rw [List.foldl_cons]
    rcases List.mem_cons.1 h with rfl | h
    · rw [invert_other hnodup.1, Dict.get_set, if_pos rfl]
    · exact ih hnodup.2 h _

/-- Every number of the vocabulary is read back as its token. -/
def BpeVocab.Readable (v : BpeVocab) : Prop := ∀ t id, v.vocab.get t = some id → v.idToToken.get id = some t

theorem nodup_map_asU32 {n : Nat} (h : n ≤ 2 ^ 32) : ((List.range n).map asU32).Nodup := by
  have hsame : (List.range n).map asU32 = List.range n := by
    refine (List.map_congr_left fun i hi => ?_).trans (List.map_id _)
    exact Nat.mod_eq_of_lt (Nat.lt_of_lt_of_le (List.mem_range.1 hi) h)
  rw [hsame]
  exact List.nodup_range

theorem Numbered.readable {vocab : Dict Token Nat} (h : Numbered vocab) (hsize : vocab.keys.length ≤ 2 ^ 32)
    {entries : List (Token × Nat)} (hp : entries.Perm vocab.pairs) {t : Token} {id : Nat}
    (ht : vocab.get t = some id) : (invert entries).get id = some t := by
  have hnodup : (vocab.pairs.map (·.2)).Nodup := by
    rw [h.ids]
    exact nodup_map_asU32 hsize
  exact invert_get ((hp.map _).nodup_iff.2 hnodup) (hp.mem_iff.2 (Dict.mem_pairs_of_get ht))

/-! ## Encoding -/

/-- The tokens of a text under the merges of a vocabulary. -/
def tokensOf (v : BpeVocab) (text : List Char) : List Token := v.merges.foldl (mergeStep v.vocab) (singles text)

section

variable {v : BpeVocab} {text : List Char}

theorem foldl_mergeStep (ps : List Pair) (ts : List Token) :
    (ps.foldl (mergeStep v.vocab) ts).flatten = ts.flatten ∧
      (ps.foldl (mergeStep v.vocab) ts).length ≤ ts.length ∧
      ∀ t ∈ ps.foldl (mergeStep v.vocab) ts, v.vocab.has t = true ∨ t ∈ ts := by
  induction ps generalizing ts with
  | nil => exact ⟨rfl, Nat.le_refl _, fun t ht => .inr ht⟩
  | cons p ps ih =>
    obtain ⟨htext, hlen, hfrom⟩ := ih (mergeStep v.vocab ts p)
    rw [List.foldl_cons]
    unfold mergeStep at htext hlen hfrom ⊢
    split_ifs at htext hlen hfrom ⊢ with hin
    · refine ⟨htext.trans (applyMerge_flatten p ts), hlen.trans (length_applyMerge_le _ _ _), fun t ht => ?_⟩
      rcases hfrom t ht with hknown | hmem
      · exact .inl hknown
      · exact (mem_applyMerge hmem).elim (fun heq => .inl (heq ▸ hin)) .inr
    · exact ⟨htext, hlen, hfrom⟩

theorem tokensOf_flatten (v : BpeVocab) (text : List Char) : (tokensOf v text).flatten = text :=
  (foldl_mergeStep v.merges _).1.trans (flatten_singles text)

theorem length_tokensOf (v : BpeVocab) (text : List Char) : (tokensOf v text).length ≤ text.length := by
  have hlen := (foldl_mergeStep (v := v) v.merges (singles text)).2.1
  rwa [show (singles text).length = text.length from List.length_map _] at hlen

theorem tokenId_ok {t : Token} {id : Nat} : tokenId v t = .ok id ↔ v.vocab.get t = some id := by
  unfold tokenId
  cases v.vocab.get t <;> simp

/-- Encoding looks up the tokens of the text. -/
theorem encodeBpe_ok {ids : List Nat} :
    encodeBpe text v = .ok ids ↔ (tokensOf v text).map v.vocab.get = ids.map some := by
  have hmap : encodeBpe text v = .ok ids ↔ (tokensOf v text).map (tokenId v) = ids.map .ok := by
    unfold encodeBpe
    split_ifs with hnil
    · have htokens : tokensOf v text = [] := by
        rw [← List.length_eq_zero_iff]
        simpa [hnil] using length_tokensOf v text
      rw [htokens]
      cases ids <;> simp
    · exact mapM_ok
  rw [hmap]
  clear hmap
  generalize tokensOf v text = ts
  induction ts generalizing ids with
  | nil => cases ids <;> simp
  | cons t ts ih =>
    cases ids with
    | nil => simp
    | cons id ids =>
      rw [List.map_cons, List.map_cons, List.cons.injEq, List.map_cons, List.map_cons, List.cons.injEq]
      exact and_congr tokenId_ok ih

theorem encodeBpe_isOk : (∃ ids, encodeBpe text v = .ok ids) ↔ ∀ t ∈ tokensOf v text, v.vocab.has t = true := by
  simp only [encodeBpe_ok]
  generalize tokensOf v text = ts
  constructor
  · rintro ⟨ids, h⟩ t ht
    have hmem : v.vocab.get t ∈ ids.map some := h ▸ List.mem_map_of_mem ht
    obtain ⟨id, -, hid⟩ := List.mem_map.1 hmem
    exact (Dict.has_eq_true _ _).2 ⟨id, hid.symm⟩
  · intro h
    induction ts with
    | nil => exact ⟨[], rfl⟩
    | cons t ts ih =>
      obtain ⟨id, hid⟩ := (Dict.has_eq_true _ _).1 (h t List.mem_cons_self)
      obtain ⟨ids, hids⟩ := ih fun u hu => h u (List.mem_cons_of_mem _ hu)
      exact ⟨id :: ids, by rw [List.map_cons, hid, hids, List.map_cons]⟩

theorem decodeFrom_tokens (hv : v.Readable) {ts : List Token} {ids : List Nat} (i : Nat)
    (h : ts.map v.vocab.get = ids.map some) : decodeFrom v i ids = .ok ts.flatten := by
  induction ts generalizing ids i with
  | nil =>
    cases ids with
    | nil => rfl
    | cons id ids => cases h
  | cons t ts ih =>
    cases ids with
    | nil => cases h
    | cons id ids =>
      rw [List.map_cons, List.map_cons, List.cons.injEq] at h
      rw [decodeFrom, hv t id h.1, List.flatten_cons]
      simp only [ih (i + 1) h.2, bind, Except.bind]

end

/-! ## A trained vocabulary -/

section

variable {o : Listing (Pair × Nat)} {o' : Listing (Token × Nat)} {corpus : List Char} {target : Nat} {v : BpeVocab}

/-- What training returns. -/
theorem trainBpe_ok (h : trainBpe o o' corpus target = .ok v) :
    corpus ≠ [] ∧ ∃ s, s = trainLoop o target corpus.length (initial corpus) ∧ Trained corpus s ∧
      v = ⟨s.merges, s.vocab, invert (o'.list s.vocab.pairs), s.vocab.keys.length⟩ := by
  unfold trainBpe at h
  split_ifs at h with hnil
  exact ⟨hnil, _, rfl, trainLoop_trained (trained_initial corpus), (Except.ok.inj h).symm⟩

theorem Trained.size {s : Training} (h : Trained corpus s) (hsize : corpus.length < 2 ^ 31) :
    s.vocab.keys.length < 2 ^ 32 := by
  have hroom := h.room
  have hshrinks := h.shrinks
  omega

theorem trainBpe_readable (h : trainBpe o o' corpus target = .ok v) (hsize : corpus.length < 2 ^ 31) :
    v.Readable := by
  obtain ⟨-, s, -, hs, rfl⟩ := trainBpe_ok h
  exact fun t id ht => hs.numbered.readable (Nat.le_of_lt (hs.size hsize)) (o'.perm _) ht

theorem Trained.encodes {s : Training} {ids : Dict Nat Token} {n : Nat} (h : Trained corpus s) (text : List Char) :
    (∀ t ∈ tokensOf ⟨s.merges, s.vocab, ids, n⟩ text, s.vocab.has t = true) ↔ ∀ c ∈ text, c ∈ corpus := by
  have hfrom := (foldl_mergeStep (v := ⟨s.merges, s.vocab, ids, n⟩) s.merges (singles text)).2.2
  constructor
  · intro hall c hc
    rw [← tokensOf_flatten ⟨s.merges, s.vocab, ids, n⟩ text] at hc
    obtain ⟨t, ht, hct⟩ := List.mem_flatten.1 hc
    exact (h.pieces t (hall t ht)).subset hct
  · intro hall t ht
    rcases hfrom t ht with hin | hin
    · exact hin
    · obtain ⟨c, hc, rfl⟩ := mem_singles.1 hin
      exact h.alphabet c (hall c hc)

/-- Under a trained vocabulary a text is encoded exactly when its characters are in the corpus, into no more numbers
than it has characters, and what is encoded is decoded to the text. -/
theorem bpe_lossless (h : trainBpe o o' corpus target = .ok v) (hsize : corpus.length < 2 ^ 31) (text : List Char) :
    ((∃ ids, encodeBpe text v = .ok ids) ↔ ∀ c ∈ text, c ∈ corpus) ∧
      ∀ ids, encodeBpe text v = .ok ids → decodeBpe ids v = .ok text ∧ ids.length ≤ text.length := by
  refine ⟨?_, fun ids hids => ?_⟩
  · obtain ⟨-, s, -, hs, rfl⟩ := trainBpe_ok h
    exact encodeBpe_isOk.trans (hs.encodes text)
  · have hlookup := encodeBpe_ok.1 hids
    have hlen : (tokensOf v text).length = ids.length := by simpa using congrArg List.length hlookup
    refine ⟨?_, hlen ▸ length_tokensOf v text⟩
    rw [decodeBpe, decodeFrom_tokens (trainBpe_readable h hsize) 0 hlookup, tokensOf_flatten]

theorem length_initial (corpus : List Char) : (initial corpus).vocab.keys.length ≤ corpus.dedup.length := by
  have hsubset : (initial corpus).vocab.keys ⊆ singles corpus.dedup := by
    intro t ht
    obtain ⟨c, hc, rfl⟩ := mem_singles.1 (initial_has.1 ((Dict.has_eq_true _ _).2 ((Dict.mem_keys _ _).1 ht)))
    exact mem_singles.2 ⟨c, List.mem_dedup.2 hc, rfl⟩
  simpa [singles] using (List.subperm_of_subset (trained_initial corpus).numbered.nodup hsubset).length_le

/-- Training makes as many tokens as were asked for, or one token of the whole corpus; and it makes no more than that,
unless there are more characters. -/
theorem train_size (h : trainBpe o o' corpus target = .ok v) :
    (target ≤ v.vocabSize ∨ v.vocab.has corpus = true) ∧ v.vocabSize ≤ max target corpus.dedup.length := by
  obtain ⟨hnil, s, hloop, hs, rfl⟩ := trainBpe_ok h
  refine ⟨?_, ?_⟩
  · have hstops := trainLoop_stops (o := o) (s := initial corpus) target (show _ ≤ corpus.length by simp [initial, singles])
    rw [← hloop] at hstops
    refine hstops.imp_right fun hone => ?_
    have htext := hs.text
    rcases htokens : s.tokens with _ | ⟨t, _ | ⟨u, ts⟩⟩
    · rw [htokens] at htext
      exact absurd htext.symm hnil
    · rw [htokens, List.flatten_singleton] at htext
      exact htext ▸ hs.known t (htokens ▸ List.mem_cons_self)
    · rw [htokens] at hone
      simp at hone
  · rw [hloop]
    refine trainLoop_keeps (P := fun s => s.vocab.keys.length ≤ max target corpus.dedup.length) ?_ ?_
    · intro s p _ hroom _
      have hone := length_addToken s.vocab (p.1 ++ p.2)
      exact (hone.trans hroom).trans (Nat.le_max_left _ _)
    · exact (length_initial corpus).trans (Nat.le_max_right _ _)

/-- The rounds of a training: the tokens before each merge, and the merge. -/
inductive Rounds (o : Listing (Pair × Nat)) : Training → List (List Token × Pair) → Training → Prop
  | done (s : Training) : Rounds o s [] s
  | merge {s s' : Training} {p : Pair} {rs : List (List Token × Pair)} (hbest : bestPair o s.tokens = some p)
      (hrest : Rounds o (s.round p) rs s') : Rounds o s ((s.tokens, p) :: rs) s'

theorem trainLoop_rounds (o : Listing (Pair × Nat)) (target rounds : Nat) (s : Training) :
    ∃ rs, Rounds o s rs (trainLoop o target rounds s) := by
  induction rounds generalizing s with
  | zero => exact ⟨[], .done s⟩
  | succ rounds ih =>
    rw [trainLoop]
    split_ifs with hroom
    · cases hbest : bestPair o s.tokens with
      | none => exact ⟨[], .done s⟩
      | some p =>
        obtain ⟨rs, hrs⟩ := ih (s.round p)
        exact ⟨_, .merge hbest hrs⟩
    · exact ⟨[], .done s⟩

theorem Rounds.merges {s s' : Training} {rs : List (List Token × Pair)} (h : Rounds o s rs s') :
    s'.merges = s.merges ++ rs.map (·.2) ∧
      ∀ r ∈ rs, r.2 ∈ windows r.1 ∧ ∀ q ∈ windows r.1, (windows r.1).count r.2 ≤ (windows r.1).count q := by
  induction h with
  | done => simp
  | merge hbest _ ih =>
    refine ⟨by rw [ih.1, Training.round, List.map_cons, List.append_assoc]; rfl, fun r hr => ?_⟩
    rcases List.mem_cons.1 hr with rfl | hr
    · exact bestPair_spec hbest
    · exact ih.2 r hr

theorem Rounds.linked {s s' : Training} {rs : List (List Token × Pair)} (h : Rounds o s rs s') :
    rs.map (·.1) <+: s.tokens :: rs.map fun r => applyMerge r.2 (r.2.1 ++ r.2.2) r.1 := by
  induction h with
  | done => exact List.nil_prefix
  | merge hbest _ ih => exact List.prefix_cons_inj _ |>.2 ih

/-- The merges of a trained vocabulary are made one after the other, from the characters of the corpus on, and each of
them is of a pair that no other pair of neighbours occurs less often than. -/
theorem train_rarest (h : trainBpe o o' corpus target = .ok v) :
    ∃ rs : List (List Token × Pair), v.merges = rs.map (·.2) ∧
      (rs.map (·.1) <+: singles corpus :: rs.map fun r => applyMerge r.2 (r.2.1 ++ r.2.2) r.1) ∧
      ∀ r ∈ rs, r.2 ∈ windows r.1 ∧ ∀ q ∈ windows r.1, (windows r.1).count r.2 ≤ (windows r.1).count q := by
  obtain ⟨-, s, hloop, -, rfl⟩ := trainBpe_ok h
  obtain ⟨rs, hrs⟩ := trainLoop_rounds o target corpus.length (initial corpus)
  rw [← hloop] at hrs
  exact ⟨rs, by simpa [initial] using hrs.merges.1, hrs.linked, hrs.merges.2⟩

end

/-! ## A small corpus -/

/-- The vocabulary of `aaab`: the pair that stands there once is merged, not the one that stands there twice. -/
def Sample.rare : BpeVocab :=
  ⟨[(['a'], ['b'])], ⟨[(['a'], 0), (['b'], 1), (['a', 'b'], 2)]⟩, ⟨[(0, ['a']), (1, ['b']), (2, ['a', 'b'])]⟩, 3⟩

theorem Sample.trained_rare :
    trainBpe .asGiven .asGiven ['a', 'a', 'a', 'b'] 3 = .ok Sample.rare := rfl

theorem bpe_lossless_rare : (∃ ids, encodeBpe ['b', 'a', 'b'] Sample.rare = .ok ids) ↔
    ∀ c ∈ ['b', 'a', 'b'], c ∈ ['a', 'a', 'a', 'b'] :=
  (bpe_lossless Sample.trained_rare (by decide) ['b', 'a', 'b']).1

theorem train_size_rare : 3 ≤ Sample.rare.vocabSize ∨ Sample.rare.vocab.has ['a', 'a', 'a', 'b'] = true :=
  (train_size Sample.trained_rare).1

theorem train_rarest_rare : ∃ rs : List (List Token × Pair), Sample.rare.merges = rs.map (·.2) ∧
    (rs.map (·.1) <+: singles ['a', 'a', 'a', 'b'] :: rs.map fun r => applyMerge r.2 (r.2.1 ++ r.2.2) r.1) ∧
    ∀ r ∈ rs, r.2 ∈ windows r.1 ∧ ∀ q ∈ windows r.1, (windows r.1).count r.2 ≤ (windows r.1).count q :=
  train_rarest Sample.trained_rare

end Metalogos.Bpe
