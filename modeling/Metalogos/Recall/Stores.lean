import Metalogos.Lib.Like
import Mathlib.Algebra.Order.Field.Basic
import Mathlib.Algebra.Order.Field.Rat
import Mathlib.Data.List.TakeWhile

/-!
# The two memory stores

`InMemoryStore` and `SqliteStore` of `src/memory_store.rs`, the one behind `memorize`, `recall` and `forget`
without a `persist` path and the one with it. Priorities, embeddings and scores are over an ordered field; the
clock reads `now`. Rows come back in the order of their identifiers, and a statement fails only where a pattern
is too long.

The stores match a query with two different operations. `forget` is a substring search in one and `LIKE` in the
other, and `recall` asks for the substring first in one and for the cosine first in the other. A run in which
every `forget` finds the same entries either way leaves the same entries in both (`sameEntries_run`), and then a
`recall` finds the same in both when no entry that has the query in it has another cosine than one
(`stores_agree`).
-/
namespace Metalogos.Recall

open Metalogos.Lib

variable {F : Type}

/-! ## Entries -/

/-- mirrors src/memory_store.rs:25-44 -/
structure MemoryEntry (F : Type) where
  id : Option Int
  value : String
  priority : F
  timestamp : Int
  decayRate : F
  confidence : F
  embedding : List F
  memType : String
  deriving DecidableEq

/-- The clock, and the two functions on reals that a score takes. -/
structure Env (F : Type) where
  now : Int
  exp : F → F
  sqrt : F → F

section

variable [Field F] [LinearOrder F]

/-- mirrors src/embeddings.rs:423-437 -/
def cosineSimilarity (env : Env F) (a b : List F) : F :=
  if a.length ≠ b.length ∨ a = [] then 0
  else
    let dotProduct := (List.zipWith (· * ·) a b).sum
    let normA := env.sqrt (a.map fun x => x * x).sum
    let normB := env.sqrt (b.map fun x => x * x).sum
    if normA = 0 ∨ normB = 0 then 0 else max (-1) (min (dotProduct / (normA * normB)) 1)

/-- `contains`. -/
def contains (value query : String) : Bool := query.toList <:+: value.toList

/-- The score of an entry of similarity `sim`. -/
def scoreOf (env : Env F) (entry : MemoryEntry F) (sim : F) : F :=
  let ageDays : F := ((max (env.now - entry.timestamp) 0 : Int) : F) / 86400
  sim * entry.priority * env.exp (-entry.decayRate * ageDays)

/-- One entry against the best so far. -/
def consider (env : Env F) (similarity : MemoryEntry F → Option F) (minConfidence : F)
    (best : Option (MemoryEntry F) × F) (entry : MemoryEntry F) : Option (MemoryEntry F) × F :=
  match similarity entry with
  | none => best
  | some sim =>
    let score := scoreOf env entry sim
    if best.2 < score ∧ minConfidence ≤ score then (some entry, score) else best

/-- The loop that both stores run over their entries. -/
def best (env : Env F) (similarity : MemoryEntry F → Option F) (minConfidence : F) (entries : List (MemoryEntry F)) :
    Option (MemoryEntry F × F) :=
  let found := entries.foldl (consider env similarity minConfidence) (none, 0)
  found.1.map fun entry => (entry, found.2)

/-! ## In memory -/

/-- mirrors src/memory_store.rs:171-173 -/
structure InMemoryStore (F : Type) where
  entries : List (MemoryEntry F)

namespace InMemoryStore

def new : InMemoryStore F := ⟨[]⟩

/-- mirrors src/memory_store.rs:190-194 -/
def memorize (s : InMemoryStore F) (entry : MemoryEntry F) : InMemoryStore F × Int :=
  (⟨s.entries ++ [entry]⟩, s.entries.length)

/-- The cosine where there are embeddings, else the substring. -/
def similarity (env : Env F) (query : String) (queryEmbedding : List F) (entry : MemoryEntry F) : Option F :=
  if queryEmbedding ≠ [] ∧ entry.embedding ≠ [] then some (cosineSimilarity env queryEmbedding entry.embedding)
  else if contains entry.value query then some 1
  else none

/-- mirrors src/memory_store.rs:196-235 -/
def «recall» (s : InMemoryStore F) (env : Env F) (query : String) (queryEmbedding : List F) (minConfidence : F) :
    Option (MemoryEntry F × F) :=
  best env (similarity env query queryEmbedding) minConfidence s.entries

/-- mirrors src/memory_store.rs:237-240 -/
def forget (s : InMemoryStore F) (query : String) (cutoff : Int) : InMemoryStore F :=
  ⟨s.entries.filter fun e => !(contains e.value query && e.timestamp < cutoff)⟩

/-- mirrors src/memory_store.rs:260-262 -/
def allEntries (s : InMemoryStore F) : List (MemoryEntry F) := s.entries

end InMemoryStore

/-! ## SQLite -/

/-- A row of `memories`. -/
structure MemoryRow (F : Type) where
  id : Int
  value : String
  priority : F
  confidence : F
  decayRate : F
  createdAt : Int
  embedding : List F
  memType : String

def MemoryRow.entry (r : MemoryRow F) : MemoryEntry F :=
  ⟨none, r.value, r.priority, r.createdAt, r.decayRate, r.confidence, r.embedding, r.memType⟩

/-- `lastId` is the largest identifier given so far. -/
structure SqliteStore (F : Type) where
  rows : List (MemoryRow F)
  lastId : Int

/-- Text up to its first NUL, which is where `LIKE` stops to read. -/
def upToNul (s : List Char) : List Char := s.takeWhile (· ≠ '\x00')

def maxPatternBytes : Nat := 50000

/-- `value LIKE '%' || ?1 || '%'`, false where the statement fails. -/
def likeQuery (value query : String) : Bool :=
  decide (query.utf8ByteSize + 2 ≤ maxPatternBytes) &&
    like (upToNul ('%' :: (query.toList ++ ['%']))) (upToNul value.toList)

namespace SqliteStore

def new : SqliteStore F := ⟨[], 0⟩

/-- mirrors src/memory_store.rs:554-563 -/
def memorize (s : SqliteStore F) (entry : MemoryEntry F) : SqliteStore F × Int :=
  let row : MemoryRow F := ⟨s.lastId + 1, entry.value, entry.priority, entry.confidence, entry.decayRate,
    entry.timestamp, entry.embedding, entry.memType⟩
  (⟨s.rows ++ [row], row.id⟩, row.id)

/-- The substring, else the cosine where there are embeddings. -/
def similarity (env : Env F) (query : String) (queryEmbedding : List F) (entry : MemoryEntry F) : Option F :=
  if contains entry.value query then some 1
  else if queryEmbedding ≠ [] ∧ entry.embedding ≠ [] then some (cosineSimilarity env queryEmbedding entry.embedding)
  else none

/-- mirrors src/memory_store.rs:565-652 -/
def «recall» (s : SqliteStore F) (env : Env F) (query : String) (queryEmbedding : List F) (minConfidence : F) :
    Option (MemoryEntry F × F) :=
  best env (similarity env query queryEmbedding) minConfidence (s.rows.map MemoryRow.entry)

/-- mirrors src/memory_store.rs:654-663 -/
def forget (s : SqliteStore F) (query : String) (cutoff : Int) : SqliteStore F :=
  { s with rows := s.rows.filter fun r => !(likeQuery r.value query && r.createdAt < cutoff) }

/-- mirrors src/memory_store.rs:699-743 -/
def allEntries (s : SqliteStore F) : List (MemoryEntry F) := s.rows.map MemoryRow.entry

end SqliteStore

end

/-! ## Both at once -/

inductive Op (F : Type) where
  | memorize (entry : MemoryEntry F)
  | forget (query : String) (cutoff : Int)

structure Stores (F : Type) where
  mem : InMemoryStore F
  sql : SqliteStore F

namespace Stores

def new : Stores F := ⟨.new, .new⟩

def step (s : Stores F) : Op F → Stores F
  | .memorize entry => ⟨(s.mem.memorize entry).1, (s.sql.memorize entry).1⟩
  | .forget query cutoff => ⟨s.mem.forget query cutoff, s.sql.forget query cutoff⟩

def run (s : Stores F) (ops : List (Op F)) : Stores F := ops.foldl step s

end Stores

/-- The identifier is not part of what is remembered. -/
def MemoryEntry.dropId (e : MemoryEntry F) : MemoryEntry F := { e with id := none }

def SameEntries (s : Stores F) : Prop := s.mem.allEntries.map MemoryEntry.dropId = s.sql.allEntries

/-- What a recall finds. -/
def found (r : Option (MemoryEntry F × F)) : Option (String × F) := r.map fun p => (p.1.value, p.2)

/-! ## Forgetting -/

/-- Among the entries that are old enough, the two operations find the same. -/
def ForgetAgrees (entries : List (MemoryEntry F)) (query : String) (cutoff : Int) : Prop :=
  ∀ e ∈ entries, e.timestamp < cutoff → likeQuery e.value query = contains e.value query

section

variable {s : Stores F} {query : String} {cutoff : Int}

theorem filter_eq_filter_iff {α : Type} {p q : α → Bool} {l : List α} :
    l.filter p = l.filter q ↔ ∀ a ∈ l, p a = q a := by
  constructor
  · intro h a ha
    have hmem : a ∈ l.filter p ↔ a ∈ l.filter q := by rw [h]
    simp only [List.mem_filter, ha, true_and] at hmem
    exact Bool.eq_iff_iff.2 hmem
  · exact fun h => List.filter_congr h

theorem entries_forget (h : SameEntries s) :
    (s.sql.forget query cutoff).allEntries =
      (s.mem.entries.map MemoryEntry.dropId).filter fun e => !(likeQuery e.value query && e.timestamp < cutoff) := by
  have hentries : s.mem.entries.map MemoryEntry.dropId = s.sql.rows.map MemoryRow.entry := h
  rw [hentries, List.filter_map]
  rfl

/-- A `forget` leaves the same entries exactly when the two operations find the same. -/
theorem sameEntries_forget_iff (h : SameEntries s) :
    SameEntries (s.step (.forget query cutoff)) ↔ ForgetAgrees s.mem.entries query cutoff := by
  have hmem : (s.mem.forget query cutoff).allEntries.map MemoryEntry.dropId =
      (s.mem.entries.map MemoryEntry.dropId).filter fun e => !(contains e.value query && e.timestamp < cutoff) := by
    rw [List.filter_map]
    rfl
  change (s.mem.forget query cutoff).allEntries.map MemoryEntry.dropId = (s.sql.forget query cutoff).allEntries ↔ _
  rw [hmem, entries_forget h, filter_eq_filter_iff, List.forall_mem_map]
  refine forall₂_congr fun e _ => ?_
  have hdrop : e.dropId.value = e.value ∧ e.dropId.timestamp = e.timestamp := ⟨rfl, rfl⟩
  rw [hdrop.1, hdrop.2]
  by_cases hold : e.timestamp < cutoff
  · simp [hold, eq_comm]
  · simp [hold]

theorem sameEntries_memorize (h : SameEntries s) (entry : MemoryEntry F) :
    SameEntries (s.step (.memorize entry)) := by
  have hentries : s.mem.entries.map MemoryEntry.dropId = s.sql.rows.map MemoryRow.entry := h
  change (s.mem.entries ++ [entry]).map MemoryEntry.dropId = (s.sql.rows ++ [_]).map MemoryRow.entry
  rw [List.map_append, List.map_append, hentries]
  rfl

theorem upToNul_of_not_mem {s : List Char} (h : '\x00' ∉ s) : upToNul s = s :=
  List.takeWhile_eq_self_iff.2 fun _ hc => decide_eq_true fun hnul => h (hnul ▸ hc)

/-- They do for a short query without wildcards and letters of ASCII, where nothing has a NUL. -/
theorem forgetAgrees_of_literal {entries : List (MemoryEntry F)} (hquery : ∀ c ∈ query.toList, Literal c)
    (hshort : query.utf8ByteSize + 2 ≤ maxPatternBytes) (hnul : '\x00' ∉ query.toList)
    (hvalues : ∀ e ∈ entries, '\x00' ∉ e.value.toList) : ForgetAgrees entries query cutoff := by
  intro e he _
  have hpattern : '\x00' ∉ '%' :: (query.toList ++ ['%']) := by simpa using hnul
  unfold likeQuery contains
  rw [upToNul_of_not_mem hpattern, upToNul_of_not_mem (hvalues e he), decide_eq_true hshort, Bool.true_and,
    Bool.eq_iff_iff, like_contains hquery, decide_eq_true_iff]

end

/-- Every `forget` of the run finds the same entries either way. -/
def ForgetsAgree : Stores F → List (Op F) → Prop
  | _, [] => True
  | s, .memorize entry :: ops => ForgetsAgree (s.step (.memorize entry)) ops
  | s, .forget query cutoff :: ops =>
    ForgetAgrees s.mem.entries query cutoff ∧ ForgetsAgree (s.step (.forget query cutoff)) ops

theorem sameEntries_run {s : Stores F} {ops : List (Op F)} (h : SameEntries s) (hops : ForgetsAgree s ops) :
    SameEntries (s.run ops) := by
  induction ops generalizing s with
  | nil => exact h
  | cons op ops ih =>
    cases op with
    | memorize entry => exact ih (sameEntries_memorize h entry) hops
    | forget query cutoff => exact ih ((sameEntries_forget_iff h).2 hops.1) hops.2

/-! ## Recalling -/

/-- An entry with the query in it has no other cosine than one. -/
def RecallAgrees [Field F] [LinearOrder F] (env : Env F) (entries : List (MemoryEntry F)) (query : String) (queryEmbedding : List F) : Prop :=
  ∀ e ∈ entries, contains e.value query = true → queryEmbedding ≠ [] → e.embedding ≠ [] →
    cosineSimilarity env queryEmbedding e.embedding = 1

section

variable [Field F] [LinearOrder F] {env : Env F} {query : String} {queryEmbedding : List F} {entries : List (MemoryEntry F)}

theorem similarity_eq (h : RecallAgrees env entries query queryEmbedding) {e : MemoryEntry F} (he : e ∈ entries) :
    InMemoryStore.similarity env query queryEmbedding e = SqliteStore.similarity env query queryEmbedding e := by
  unfold InMemoryStore.similarity SqliteStore.similarity
  by_cases hboth : queryEmbedding ≠ [] ∧ e.embedding ≠ []
  · rw [if_pos hboth, if_pos hboth]
    by_cases hfind : contains e.value query = true
    · rw [if_pos hfind, h e he hfind hboth.1 hboth.2]
    · rw [if_neg hfind]
  · rw [if_neg hboth, if_neg hboth]

/-- The identifier plays no part in the loop. -/
theorem foldl_consider {similarity similarity' : MemoryEntry F → Option F} {minConfidence : F}
    (h : ∀ e ∈ entries, similarity' e.dropId = similarity e) (b : Option (MemoryEntry F) × F) :
    (entries.map MemoryEntry.dropId).foldl (consider env similarity' minConfidence) (b.1.map MemoryEntry.dropId, b.2) =
      let b' := entries.foldl (consider env similarity minConfidence) b
      (b'.1.map MemoryEntry.dropId, b'.2) := by
  induction entries generalizing b with
  | nil => rfl
  | cons e entries ih =>
    have hstep : consider env similarity' minConfidence (b.1.map MemoryEntry.dropId, b.2) e.dropId =
        let b' := consider env similarity minConfidence b e
        (b'.1.map MemoryEntry.dropId, b'.2) := by
      unfold consider
      rw [h e List.mem_cons_self]
      cases similarity e with
      | none => rfl
      | some sim =>
        have hscore : scoreOf env e.dropId sim = scoreOf env e sim := rfl
        dsimp only
        rw [hscore]
        split <;> rfl
    rw [List.map_cons, List.foldl_cons, hstep]
    exact ih (fun x hx => h x (List.mem_cons_of_mem e hx)) _

theorem found_best {similarity similarity' : MemoryEntry F → Option F} {minConfidence : F}
    (h : ∀ e ∈ entries, similarity' e.dropId = similarity e) :
    found (best env similarity' minConfidence (entries.map MemoryEntry.dropId)) =
      found (best env similarity minConfidence entries) := by
  have hfold : (entries.map MemoryEntry.dropId).foldl (consider env similarity' minConfidence)
      ((none : Option (MemoryEntry F)).map MemoryEntry.dropId, 0) = _ := foldl_consider h (none, 0)
  unfold found best
  rw [show (none, (0 : F)) = ((none : Option (MemoryEntry F)).map MemoryEntry.dropId, (0 : F)) from rfl, hfold]
  simp only [Option.map_map]
  rfl

theorem found_recall {s : Stores F} {minConfidence : F} (hsame : SameEntries s)
    (h : RecallAgrees env s.mem.entries query queryEmbedding) :
    found (s.sql.recall env query queryEmbedding minConfidence) =
      found (s.mem.recall env query queryEmbedding minConfidence) := by
  have hentries : s.mem.entries.map MemoryEntry.dropId = s.sql.rows.map MemoryRow.entry := hsame
  unfold SqliteStore.recall InMemoryStore.recall
  rw [← hentries]
  refine found_best fun e he => ?_
  rw [similarity_eq h he]
  rfl

end

/-- In a run whose `forget`s find the same entries either way the stores hold the same entries, and a `recall` that
meets its condition finds the same in both. -/
theorem stores_agree [Field F] [LinearOrder F] {ops : List (Op F)} (hops : ForgetsAgree .new ops) (env : Env F) :
    SameEntries (Stores.new.run ops) ∧
      ∀ query queryEmbedding minConfidence, RecallAgrees env (Stores.new.run ops).mem.entries query queryEmbedding →
        found ((Stores.new.run ops).sql.recall env query queryEmbedding minConfidence) =
          found ((Stores.new.run ops).mem.recall env query queryEmbedding minConfidence) := by
  have hsame : SameEntries (Stores.new.run ops) := sameEntries_run (s := .new) rfl hops
  exact ⟨hsame, fun _ _ _ h => found_recall hsame h⟩

/-! ## Two runs -/

/-- `exp` at zero, and the square root of zero and one. -/
def sampleEnv : Env ℚ := ⟨100, fun _ => 1, fun x => x⟩

def entryOf (value : String) (timestamp : Int) (embedding : List ℚ) : MemoryEntry ℚ :=
  ⟨none, value, 1, timestamp, 0, 1, embedding, ""⟩

def fruitRun : List (Op ℚ) :=
  [.memorize (entryOf "50 apples" 0 [1]), .memorize (entryOf "7 pears" 0 [1]), .forget "7" 10]

theorem stores_agree_fruit :
    SameEntries (Stores.new.run fruitRun) ∧
      found ((Stores.new.run fruitRun).sql.recall sampleEnv "apples" [1] 0) =
        found ((Stores.new.run fruitRun).mem.recall sampleEnv "apples" [1] 0) := by
  have hagrees : ForgetsAgree (Stores.new (F := ℚ)) fruitRun := by
    refine ⟨fun e he _ => ?_, trivial⟩
    revert e
    decide +kernel
  obtain ⟨hsame, hrecall⟩ := stores_agree hagrees sampleEnv
  refine ⟨hsame, hrecall "apples" [1] 0 fun e he _ _ _ => ?_⟩
  revert e
  decide +kernel

/-- A percent sign forgets more in SQLite, and an entry that has the query in it is hidden in memory by its
embedding. -/
theorem stores_differ :
    ¬ SameEntries (Stores.new.run [Op.memorize (entryOf "50 apples" 0 []), .forget "50%" 10]) ∧
      found ((Stores.new.run [Op.memorize (entryOf "cat" 0 [1, 0])]).sql.recall sampleEnv "cat" [0, 1] 0) ≠
        found ((Stores.new.run [Op.memorize (entryOf "cat" 0 [1, 0])]).mem.recall sampleEnv "cat" [0, 1] 0) := by
  unfold SameEntries
  decide +kernel

end Metalogos.Recall
