import Metalogos.Lib.Dict
import Metalogos.Lib.WriteThrough

/-!
# The key-value store and its table

The writing builtins of `src/builtins/memory.rs`: `kv_set`, `kv_delete`, `mem_set`, `mem_delete` and `ref`.
The store is a map in memory and the table `kv_store`, each behind a lock of its own. A call changes the map
under the one and, after it has let go, the table under the other; `ref` looks first, and inserts under the
lock of the map without letting go before the table is written. A step of a run is one section under a lock.

Arguments are as the builtins have them after their checks, and the connection is open.

Two writes of one key can reach the table in the other order. `table_matches_map`: in a run where each
section of the table leaves what the map holds, or leaves the key to a later one, the table and the map are
the same whenever no call is under way.
-/
namespace Metalogos.Memory.KeyValue

open Metalogos.Lib

/-! ## Statements -/

/-- The statements on `kv_store`, whose key is primary. -/
inductive Statement where
  | insertOrReplace (key value : String)
  | delete (key : String)
  | insertOrIgnore (key value : String)
  deriving DecidableEq, Repr

def Statement.key : Statement → String
  | .insertOrReplace key _ => key
  | .delete key => key
  | .insertOrIgnore key _ => key

def Statement.exec (table : Dict String String) : Statement → Dict String String
  | .insertOrReplace key value => table.set key value
  | .delete key => table.erase key
  | .insertOrIgnore key value => if table.has key then table else table.set key value

/-- What the statement makes of the row of its key. -/
def Statement.row (row : Option String) : Statement → Option String
  | .insertOrReplace _ value => some value
  | .delete _ => none
  | .insertOrIgnore _ value => some (row.getD value)

theorem Statement.get_exec (st : Statement) (table : Dict String String) (k : String) :
    (st.exec table).get k = if k = st.key then st.row (table.get st.key) else table.get k := by
  cases st with
  | insertOrReplace key value => exact table.get_set key k value
  | delete key => exact table.get_erase key k
  | insertOrIgnore key value =>
    show (if table.has key then table else table.set key value).get k =
      if k = key then some ((table.get key).getD value) else table.get k
    cases hrow : table.get key with
    | none => rw [(table.has_eq_false key).2 hrow, if_neg (by simp), Dict.get_set, Option.getD_none]
    | some old =>
      rw [(table.has_eq_true key).2 ⟨old, hrow⟩, if_pos rfl, Option.getD_some]
      by_cases hk : k = key
      · rw [if_pos hk, hk, hrow]
      · rw [if_neg hk]

/-! ## Builtins -/

inductive Ret where
  | unit
  | string (s : String)
  deriving DecidableEq, Repr

/-- What a call has still to do, section by section. -/
inductive Program where
  | returned (ret : Ret)
  /-- Take the lock of the map, change it, let go; what follows depends on the map as it was. -/
  | kvStore (change : Dict String String → Dict String String) (next : Dict String String → Program)
  /-- Take the lock of the map, change it and keep the lock. -/
  | kvStoreHeld (change : Dict String String → Dict String String) (next : Program)
  /-- Take the lock of the connection, run the statement, let go. -/
  | kvSqlite (st : Statement) (next : Program)
  /-- Let go of the map. -/
  | dropKvStore (next : Program)

/-- mirrors src/builtins/memory.rs:112-135 -/
def builtinKvSet (key value : String) : Program :=
  .kvStore (·.set key value) fun _ => .kvSqlite (.insertOrReplace key value) (.returned .unit)

/-- mirrors src/builtins/memory.rs:147-165 -/
def builtinKvDelete (key : String) : Program :=
  .kvStore (·.erase key) fun _ => .kvSqlite (.delete key) (.returned .unit)

/-- mirrors src/builtins/memory.rs:193-216 -/
def builtinMemSet (key value : String) : Program :=
  .kvStore (·.set key value) fun _ => .kvSqlite (.insertOrReplace key value) (.returned (.string value))

/-- mirrors src/builtins/memory.rs:229-247 -/
def builtinMemDelete (key : String) : Program :=
  .kvStore (·.erase key) fun store => .kvSqlite (.delete key) (.returned (.string ((store.get key).getD "")))

/-- mirrors src/builtins/memory.rs:1098-1126 -/
def builtinContentRef (sha256Hex : String → String) (content : String) : Program :=
  let hash := sha256Hex content
  let key := "__ref:" ++ hash
  .kvStore id fun store =>
    if store.has key then .returned (.string hash)
    else .kvStoreHeld (·.set key content)
      (.kvSqlite (.insertOrIgnore key content) (.dropKvStore (.returned (.string hash))))

inductive Call where
  | kvSet (key value : String)
  | kvDelete (key : String)
  | memSet (key value : String)
  | memDelete (key : String)
  | ref (content : String)
  deriving DecidableEq, Repr

def Call.program (sha256Hex : String → String) : Call → Program
  | .kvSet key value => builtinKvSet key value
  | .kvDelete key => builtinKvDelete key
  | .memSet key value => builtinMemSet key value
  | .memDelete key => builtinMemDelete key
  | .ref content => builtinContentRef sha256Hex content

/-! ## Runs -/

variable {ι : Type}

/-- `holder` is the call that keeps the lock of the map. -/
structure Kv (ι : Type) where
  map : Dict String String
  table : Dict String String
  holder : Option ι
  todo : ι → Program

/-- A fresh process: the map is loaded from the rows of the table.
mirrors src/builtins/memory.rs:70-109 -/
def Kv.start (programs : ι → Program) (rows : Dict String String) : Kv ι := ⟨rows, rows, none, programs⟩

section

variable [DecidableEq ι]

/-- The next section of call `i`; it waits while another call keeps the lock of the map. -/
def Kv.step (s : Kv ι) (i : ι) : Kv ι :=
  match s.todo i with
  | .returned _ => s
  | .kvStore change next =>
    if s.holder.isSome then s
    else { s with map := change s.map, todo := Function.update s.todo i (next s.map) }
  | .kvStoreHeld change next =>
    if s.holder.isSome then s
    else { s with map := change s.map, holder := some i, todo := Function.update s.todo i next }
  | .kvSqlite st next => { s with table := st.exec s.table, todo := Function.update s.todo i next }
  | .dropKvStore next => { s with holder := none, todo := Function.update s.todo i next }

def Kv.run (s : Kv ι) (order : List ι) : Kv ι := order.foldl Kv.step s

end

/-- Every call has returned or has not begun. -/
def Kv.Quiet (programs : ι → Program) (s : Kv ι) : Prop :=
  ∀ i, s.todo i = programs i ∨ ∃ ret, s.todo i = .returned ret

/-- A call other than `i` has still to write the key to the table. -/
def Kv.OthersOwe (s : Kv ι) (i : ι) (key : String) : Prop :=
  ∃ j, j ≠ i ∧ ∃ st next, s.todo j = .kvSqlite st next ∧ st.key = key

/-- The step of call `i`, if it is one on the table, leaves the row as the map has it or leaves the key to
another call. -/
def Kv.Settles (s : Kv ι) (i : ι) : Prop :=
  ∀ st next, s.todo i = .kvSqlite st next →
    s.OthersOwe i st.key ∨ (st.exec s.table).get st.key = s.map.get st.key

def Kv.SettlesAll [DecidableEq ι] : Kv ι → List ι → Prop
  | _, [] => True
  | s, i :: order => s.Settles i ∧ (s.step i).SettlesAll order

/-! ## As a write-through cache -/

/-- The statement of a section on the table. -/
def Program.due : Program → Option Statement
  | .kvSqlite st _ => some st
  | _ => none

/-- What has changed in the map is the key of the statement that follows. -/
def Puts (change : Dict String String → Dict String String) (store : Dict String String) (next : Program) : Prop :=
  (change store = store ∧ next.due = none) ∨
    ∃ st v, next.due = some st ∧ ∀ k, (change store).get k = if k = st.key then v else store.get k

/-- Each change of the map is followed by the statement for its key. -/
def Program.WritesThrough : Program → Prop
  | .returned _ => True
  | .kvStore change next => ∀ store, Puts change store (next store) ∧ (next store).WritesThrough
  | .kvStoreHeld change next => (∀ store, Puts change store next) ∧ next.WritesThrough
  | .kvSqlite _ next => next.due = none ∧ next.WritesThrough
  | .dropKvStore next => next.due = none ∧ next.WritesThrough

theorem puts_set {key value : String} {store : Dict String String} {st : Statement} {next : Program}
    (h : st.key = key) : Puts (·.set key value) store (.kvSqlite st next) :=
  .inr ⟨st, some value, rfl, fun k => by rw [h]; exact store.get_set key k value⟩

theorem puts_erase {key : String} {store : Dict String String} {next : Program} :
    Puts (·.erase key) store (.kvSqlite (.delete key) next) :=
  .inr ⟨.delete key, none, rfl, fun k => store.get_erase key k⟩

theorem program_writesThrough (sha256Hex : String → String) (c : Call) : (c.program sha256Hex).WritesThrough := by
  cases c with
  | kvSet key value => exact fun store => ⟨puts_set rfl, rfl, trivial⟩
  | kvDelete key => exact fun store => ⟨puts_erase, rfl, trivial⟩
  | memSet key value => exact fun store => ⟨puts_set rfl, rfl, trivial⟩
  | memDelete key => exact fun store => ⟨puts_erase, rfl, trivial⟩
  | ref content =>
    intro store
    show Puts id store (if _ then _ else _) ∧ (if _ then _ else _ : Program).WritesThrough
    split
    · exact ⟨.inl ⟨rfl, rfl⟩, trivial⟩
    · exact ⟨.inl ⟨rfl, rfl⟩, fun store => puts_set rfl, rfl, rfl, trivial⟩

/-- The map is the cache, the table the backing. -/
def Kv.cached (s : Kv ι) : Cached ι String String :=
  ⟨s.map.get, s.table.get, fun i => (s.todo i).due.map fun st => (st.key, fun row => st.row row)⟩

theorem due_eq_some {p : Program} {st : Statement} : p.due = some st ↔ ∃ next, p = .kvSqlite st next := by
  cases p <;> simp [Program.due]

theorem cached_due {s : Kv ι} {i : ι} {k : String} :
    (∃ w, s.cached.due i = some (k, w)) ↔ ∃ st next, s.todo i = .kvSqlite st next ∧ st.key = k := by
  constructor
  · rintro ⟨w, hw⟩
    obtain ⟨st, hst, he⟩ := Option.map_eq_some_iff.1 hw
    obtain ⟨next, hnext⟩ := due_eq_some.1 hst
    exact ⟨st, next, hnext, by cases he; rfl⟩
  · rintro ⟨st, next, hnext, rfl⟩
    exact ⟨fun row => st.row row, by simp [Kv.cached, hnext, Program.due]⟩

theorem settles_iff {s : Kv ι} {i : ι} {st : Statement} {next : Program} (hi : s.todo i = .kvSqlite st next) :
    s.Settles i ↔ s.cached.Settles i st.key fun row => st.row row := by
  have hothers : s.OthersOwe i st.key ↔ s.cached.OthersOwe i st.key :=
    exists_congr fun j => and_congr_right fun _ => cached_due.symm
  have hrow : (st.exec s.table).get st.key = st.row (s.table.get st.key) := by
    rw [st.get_exec, if_pos rfl]
  unfold Cached.Settles
  rw [← hothers]
  constructor
  · intro h
    have h := h st next hi
    rwa [hrow] at h
  · intro h st' next' hi'
    obtain ⟨rfl, rfl⟩ : st = st' ∧ next = next' := by simpa [hi] using hi'
    rwa [hrow]

variable [DecidableEq ι]

/-- A step pays a row, or it owes none and changes the map of at most one key, whose row it then owes. -/
theorem cached_step (s : Kv ι) (i : ι) (hw : (s.todo i).WritesThrough) :
    ((s.todo i).due = none ∧
      ((s.step i).cached = s.cached ∨ ∃ k v w, (s.step i).cached = s.cached.put i k v w)) ∨
    (∃ st next, s.todo i = .kvSqlite st next ∧ (s.step i).cached = s.cached.pay i st.key fun row => st.row row) := by
  have hsame {holder : Option ι} {next : Program} (hdue : (s.todo i).due = none) (hnext : next.due = none) :
      (⟨s.map, s.table, holder, Function.update s.todo i next⟩ : Kv ι).cached = s.cached := by
    simp only [Kv.cached, Cached.mk.injEq, true_and]
    funext j
    by_cases hj : j = i
    · simp [hj, hdue, hnext]
    · simp [hj]
  have hput {change : Dict String String → Dict String String} {holder : Option ι} {next : Program}
      (hdue : (s.todo i).due = none) (hputs : Puts change s.map next) :
      (⟨change s.map, s.table, holder, Function.update s.todo i next⟩ : Kv ι).cached = s.cached ∨ ∃ k v w,
        (⟨change s.map, s.table, holder, Function.update s.todo i next⟩ : Kv ι).cached = s.cached.put i k v w := by
    rcases hputs with ⟨hid, hnext⟩ | ⟨st, v, hst, hget⟩
    · rw [hid]
      exact .inl (hsame hdue hnext)
    · refine .inr ⟨st.key, v, fun row => st.row row, ?_⟩
      simp only [Kv.cached, Cached.put, Cached.mk.injEq, true_and]
      constructor
      · funext k
        rw [hget, Function.update_apply]
      · funext j
        by_cases hj : j = i
        · simp [hj, hst]
        · simp [hj]
  unfold Kv.step
  cases htodo : s.todo i with
  | returned ret => exact .inl ⟨rfl, .inl rfl⟩
  | kvStore change next =>
    rw [htodo] at hw
    have hdue : (s.todo i).due = none := by rw [htodo]; rfl
    dsimp only
    split
    · exact .inl ⟨rfl, .inl rfl⟩
    · exact .inl ⟨rfl, hput hdue (hw s.map).1⟩
  | kvStoreHeld change next =>
    rw [htodo] at hw
    have hdue : (s.todo i).due = none := by rw [htodo]; rfl
    dsimp only
    split
    · exact .inl ⟨rfl, .inl rfl⟩
    · exact .inl ⟨rfl, hput hdue (hw.1 s.map)⟩
  | kvSqlite st next =>
    rw [htodo] at hw
    refine .inr ⟨st, next, rfl, ?_⟩
    simp only [Kv.cached, Cached.pay, Cached.mk.injEq, true_and]
    constructor
    · funext k
      rw [st.get_exec, Function.update_apply]
    · funext j
      by_cases hj : j = i
      · simp [hj, hw.1]
      · simp [hj]
  | dropKvStore next =>
    rw [htodo] at hw
    have hdue : (s.todo i).due = none := by rw [htodo]; rfl
    exact .inl ⟨rfl, .inl (hsame hdue hw.1)⟩

theorem writesThrough_step {s : Kv ι} (h : ∀ j, (s.todo j).WritesThrough) (i j : ι) :
    ((s.step i).todo j).WritesThrough := by
  have hupdate {next : Program} (hnext : next.WritesThrough) :
      (Function.update s.todo i next j).WritesThrough := by
    by_cases hj : j = i
    · simpa [hj] using hnext
    · simpa [hj] using h j
  have hi := h i
  unfold Kv.step
  cases htodo : s.todo i with
  | returned ret => exact h j
  | kvStore change next =>
    rw [htodo] at hi
    dsimp only
    split
    · exact h j
    · exact hupdate (hi s.map).2
  | kvStoreHeld change next =>
    rw [htodo] at hi
    dsimp only
    split
    · exact h j
    · exact hupdate hi.2
  | kvSqlite st next =>
    rw [htodo] at hi
    exact hupdate hi.2
  | dropKvStore next =>
    rw [htodo] at hi
    exact hupdate hi.2

/-- A step keeps the two sides together exactly when it settles. -/
theorem coherent_step {s : Kv ι} {i : ι} (hw : (s.todo i).WritesThrough) (h : s.cached.Coherent) :
    (s.step i).cached.Coherent ↔ s.Settles i := by
  have hfree (hdue : (s.todo i).due = none) : s.Settles i := by
    intro st next hi
    rw [hi] at hdue
    cases hdue
  rcases cached_step s i hw with ⟨hdue, he | ⟨k, v, w, he⟩⟩ | ⟨st, next, hi, he⟩
  · rw [he]
    exact iff_of_true h (hfree hdue)
  · rw [he]
    exact iff_of_true (h.put (by simp [Kv.cached, hdue])) (hfree hdue)
  · rw [he, settles_iff hi]
    exact ⟨Cached.pay_coherent, h.pay (by simp [Kv.cached, hi, Program.due])⟩

omit [DecidableEq ι] in
theorem coherent_start (programs : ι → Program) (rows : Dict String String) :
    (Kv.start programs rows).cached.Coherent := fun _ => .inl rfl

theorem coherent_run {s : Kv ι} {order : List ι} (hw : ∀ j, (s.todo j).WritesThrough) (h : s.cached.Coherent)
    (hset : s.SettlesAll order) : (s.run order).cached.Coherent := by
  induction order generalizing s with
  | nil => exact h
  | cons i order ih =>
    exact ih (writesThrough_step hw i) ((coherent_step (hw i) h).2 hset.1) hset.2

omit [DecidableEq ι] in
theorem due_of_quiet {sha256Hex : String → String} {calls : ι → Call} {s : Kv ι}
    (h : s.Quiet fun i => (calls i).program sha256Hex) (i : ι) : s.cached.due i = none := by
  rcases h i with h | ⟨ret, h⟩
  · simp only [Kv.cached, h]
    cases calls i <;> rfl
  · simp [Kv.cached, h, Program.due]

/-- Where every section of the table settles, the table holds what the map holds whenever no call is under
way. -/
theorem table_matches_map (sha256Hex : String → String) (calls : ι → Call) (rows : Dict String String)
    (order : List ι)
    (hset : (Kv.start (fun i => (calls i).program sha256Hex) rows).SettlesAll order)
    (hquiet : ((Kv.start (fun i => (calls i).program sha256Hex) rows).run order).Quiet
      fun i => (calls i).program sha256Hex) (key : String) :
    ((Kv.start (fun i => (calls i).program sha256Hex) rows).run order).table.get key =
      ((Kv.start (fun i => (calls i).program sha256Hex) rows).run order).map.get key :=
  (coherent_run (fun i => program_writesThrough sha256Hex (calls i)) (coherent_start _ rows) hset).settled
    (due_of_quiet hquiet) key

/-- Two writers of one key, a reference, and nothing else. -/
def Sample.calls : Nat → Call
  | 0 => .kvSet "k" "a"
  | 1 => .memSet "k" "b"
  | _ => .ref "text"

def Sample.sha256Hex (s : String) : String :=
  if s = "text" then "982d9e3eb996f559e633f4d194def3761d909f5a3b647d1a851fead67c32c9d1" else s

def Sample.start : Kv Nat := .start (fun i => (Sample.calls i).program Sample.sha256Hex) .empty

/-- The table sees the two writes in the order of the map. -/
theorem table_matches_map_ordered :
    (Sample.start.run [0, 1, 0, 1, 2, 2, 2, 2]).table.get "k" =
      (Sample.start.run [0, 1, 0, 1, 2, 2, 2, 2]).map.get "k" := by
  have hidle {s : Kv Nat} {i : Nat} (h : (s.todo i).due = none) : s.Settles i := by
    intro st next hi
    rw [hi] at h
    cases h
  refine table_matches_map Sample.sha256Hex Sample.calls .empty [0, 1, 0, 1, 2, 2, 2, 2] ?_ ?_ "k"
  · refine ⟨hidle rfl, hidle rfl, ?_, ?_, hidle rfl, hidle rfl, ?_, hidle rfl, trivial⟩
    · rintro st next h
      cases h
      exact .inl ⟨1, by decide, .insertOrReplace "k" "b", _, rfl, rfl⟩
    · rintro st next h
      cases h
      exact .inr (by decide)
    · rintro st next h
      cases h
      exact .inr (by decide)
  · intro i
    match i with
    | 0 => exact .inr ⟨_, rfl⟩
    | 1 => exact .inr ⟨_, rfl⟩
    | 2 => exact .inr ⟨_, rfl⟩
    | i + 3 => exact .inl rfl

/-- The second writer reaches the table first: the map holds its value, the table that of the other. -/
theorem table_diverges : ¬ ∀ (sha256Hex : String → String) (calls : Nat → Call) (rows : Dict String String)
    (order : List Nat),
    (((Kv.start (fun i => (calls i).program sha256Hex) rows).run order).Quiet
      fun i => (calls i).program sha256Hex) →
    ∀ key, ((Kv.start (fun i => (calls i).program sha256Hex) rows).run order).table.get key =
      ((Kv.start (fun i => (calls i).program sha256Hex) rows).run order).map.get key := by
  intro h
  have hk := h Sample.sha256Hex Sample.calls .empty [0, 1, 1, 0] ?_ "k"
  · exact absurd hk (by decide)
  · intro i
    match i with
    | 0 => exact .inr ⟨_, rfl⟩
    | 1 => exact .inr ⟨_, rfl⟩
    | i + 2 => exact .inl rfl

end Metalogos.Memory.KeyValue
