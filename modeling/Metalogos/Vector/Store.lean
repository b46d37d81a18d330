import Mathlib.Logic.Function.Basic
import Metalogos.Lang.Value

/-!
# Storing a vector

`vec_store` (`src/builtins/vector.rs:254-429`): up to six statements write one after the other on a
connection that commits each by itself: the dimension, the table, the row, the scope of the table, the
text. A statement may fail by itself (`Fault`), and the call may be refused between two of them: the scope
is checked after the row is in. SQLite folds the case of a table's name, `vec_meta` and `vec_scopes` do not:
two spellings of a name are one table, with two dimensions and two scopes.

`vecStore_atomic_iff`: a call that returns an error leaves the contents as they were exactly when nothing
fails after a write (`LeavesBehind`), and in a run of such calls, none of which meets another spelling of
its table bound to another scope, a table bound to a scope holds rows of that scope only.
-/
namespace Metalogos.Vector

open Metalogos.Lang

variable {F : Type}

/-! ## The arguments -/

/-- mirrors src/builtins/vector.rs:92-101 -/
def typeName : Value F → String
  | .string _ => "String"
  | .float _ => "Float"
  | .bool _ => "Bool"
  | .list _ => "List"
  | .struct _ _ => "Struct"
  | _ => "other"

/-- mirrors src/builtins/vector.rs:82-90 -/
def valueAsString (builtin : String) (pos : Nat) (v : Value F) (what : String) : Except String String :=
  match v with
  | .string s => .ok s
  | other => .error (builtin ++ "(): argument " ++ toString pos ++ " (" ++ what ++ ") must be a String, got "
      ++ typeName other)

def embeddingFrom (builtin : String) : Nat → List (Value F) → Except String (List F)
  | _, [] => .ok []
  | i, .float f :: items => (embeddingFrom builtin (i + 1) items).map (f :: ·)
  | i, other :: _ => .error (builtin ++ "(): embedding component " ++ toString i ++ " must be a Float, got "
      ++ typeName other)

/-- mirrors src/builtins/vector.rs:103-125 -/
def valueAsEmbedding (builtin : String) (pos : Nat) (v : Value F) : Except String (List F) :=
  match v with
  | .list items => embeddingFrom builtin 0 items
  | other => .error (builtin ++ "(): argument " ++ toString pos ++ " must be a List of Float (embedding), got "
      ++ typeName other)

/-- mirrors src/builtins/vector.rs:64-80 -/
def validateTableName (builtin table : String) : Except String Unit :=
  let ok := match table.toList with
    | c :: cs => (c.isAlpha || c == '_') && cs.all fun c => c.isAlphanum || c == '_'
    | [] => false
  if ok then .ok ()
  else .error (builtin ++ "(): invalid table name '" ++ table
    ++ "': must match [A-Za-z_][A-Za-z0-9_]* (SQL identifier whitelist)")

/-- The fifth argument. -/
structure Payload where
  text : Option String := none
  scope : Option String := none

/-- mirrors src/builtins/vector.rs:271-296 -/
def readField (p : Payload) (field : String × Value F) : Except String Payload :=
  match field.1, field.2 with
  | "text", .string t => .ok { p with text := some t }
  | "scope", .string s => .ok { p with scope := some s }
  | "text", other => .error ("vec_store(): opts.text must be a String, got " ++ other.typeName)
  | "scope", other => .error ("vec_store(): opts.scope must be a String, got " ++ other.typeName)
  | k, _ => .error ("vec_store(): unknown opts field '" ++ k ++ "' — known: text, scope")

/-- mirrors src/builtins/vector.rs:266-304 -/
def readPayload : Value F → Except String Payload
  | .string text => .ok { text := some text }
  | .struct _ fields => fields.foldlM readField {}
  | other => .error ("vec_store(): argument 5 (payload) must be a String (text) or Struct \x7btext, scope\x7d, got "
      ++ other.typeName)

structure Call (F : Type) where
  dbPath : String
  table : String
  id : String
  embedding : List F
  text : Option String
  scope : Option String

def Call.dim (c : Call F) : Nat := c.embedding.length

/-- Everything `vec_store` does before it opens the database.
mirrors src/builtins/vector.rs:255-310 -/
def readArgs (args : List (Value F)) : Except String (Call F) :=
  let arity : Except String (Call F) := .error ("vec_store() requires 4 or 5 arguments (db_path, table, id, "
    ++ "embedding[, payload]), got " ++ toString args.length)
  match args with
  | a₀ :: a₁ :: a₂ :: a₃ :: rest =>
    if rest.length ≤ 1 then do
      let dbPath ← valueAsString "vec_store" 1 a₀ "db_path"
      let table ← valueAsString "vec_store" 2 a₁ "table"
      let id ← valueAsString "vec_store" 3 a₂ "id"
      let embedding ← valueAsEmbedding "vec_store" 4 a₃
      let p ← match rest with
        | a₄ :: _ => readPayload a₄
        | [] => .ok {}
      if embedding = [] then
        throw "vec_store(): embedding must not be empty (dim 0 vectors are not storable)"
      validateTableName "vec_store" table
      return ⟨dbPath, table, id, embedding, p.text, p.scope⟩
    else arity
  | _ => arity

/-! ## The database -/

/-- A row of a `vec0` table; `given` is the scope of the call that stored it, which nothing reads. -/
structure VecRow (F : Type) where
  rowid : Nat
  embedding : List F
  id : String
  given : Option String

structure FtsRow where
  id : String
  text : String

/-- A table of the file: `vec0` of a dimension, `fts5`, or one with other columns. -/
inductive Table (F : Type) where
  | vec (dim : Nat) (rows : List (VecRow F))
  | fts (rows : List FtsRow)
  | other

/-- The name of a table as an identifier: without the case of its letters. -/
def folded (name : String) : String := String.ofList (name.toList.map Char.toLower)

/-- The tables by folded name; `dims` is `vec_meta`, `scopes` is `vec_scopes`, both by the name as it is given. -/
structure Db (F : Type) where
  tables : String → Option (Table F)
  dims : String → Option Nat
  scopes : String → Option String

/-- The statements of one call, in the order they are run. -/
inductive Stmt where
  | openFile | dimTable | dimQuery | dimInsert | create | rowid | insert
  | scopeTable | scopeQuery | scopeInsert | ftsCreate | ftsDelete | ftsInsert
  deriving DecidableEq

/-- What the database answers to a statement, where it fails: locks, a full disk, limits of `vec0`. -/
abbrev Fault := Stmt → Option String

namespace Db

def setTable (db : Db F) (name : String) (t : Table F) : Db F :=
  { db with tables := Function.update db.tables (folded name) (some t) }

/-- `CREATE VIRTUAL TABLE IF NOT EXISTS`. -/
def create (db : Db F) (name : String) (t : Table F) : Db F :=
  match db.tables (folded name) with
  | some _ => db
  | none => db.setTable name t

/-- `COALESCE(MAX(rowid), 0) + 1`; the numbers of a table that is not `vec0` are of no use later. -/
def nextRowid (db : Db F) (name : String) : Nat :=
  match db.tables (folded name) with
  | some (.vec _ rows) => (rows.map (·.rowid)).foldl max 0 + 1
  | _ => 1

/-- `INSERT INTO … (rowid, embedding, id)`. -/
def insertVec (db : Db F) (name : String) (row : VecRow F) : Except String (Db F) :=
  match db.tables (folded name) with
  | some (.vec d rows) =>
    if d = row.embedding.length then .ok (db.setTable name (.vec d (rows ++ [row])))
    else .error "Dimension mismatch for inserted vector"
  | some _ => .error "table has no column named embedding"
  | none => .error "no such table"

/-- `DELETE FROM … WHERE id = ?1`. -/
def deleteId (db : Db F) (name id : String) : Except String (Db F) :=
  match db.tables (folded name) with
  | some (.vec d rows) => .ok (db.setTable name (.vec d (rows.filter (·.id ≠ id))))
  | some (.fts rows) => .ok (db.setTable name (.fts (rows.filter (·.id ≠ id))))
  | some .other => .error "no such column: id"
  | none => .error "no such table"

/-- `INSERT INTO … (id, text)`. -/
def insertFts (db : Db F) (name : String) (row : FtsRow) : Except String (Db F) :=
  match db.tables (folded name) with
  | some (.fts rows) => .ok (db.setTable name (.fts (rows ++ [row])))
  | some _ => .error "table has no column named text"
  | none => .error "no such table"

def vecRows (db : Db F) (name : String) : List (VecRow F) :=
  match db.tables (folded name) with
  | some (.vec _ rows) => rows
  | _ => []

def ftsRows (db : Db F) (name : String) : List FtsRow :=
  match db.tables (folded name) with
  | some (.fts rows) => rows
  | _ => []

end Db

/-! ## The call -/

variable (fault : Fault)

/-- The first fault among the statements, with its text. -/
def failing (stmts : List (Stmt × String)) : Option String :=
  stmts.firstM fun s => (fault s.1).map (s.2 ++ ·)

/-- mirrors src/builtins/vector.rs:374-410 -/
def bindTableScope (db : Db F) (builtin table scope : String) : Except String Unit × Db F :=
  match fault .scopeTable with
  | some e => (.error (builtin ++ "(): cannot init vec_scopes: " ++ e), db)
  | none =>
    match fault .scopeQuery with
    | some e => (.error (builtin ++ "(): vec_scopes query: " ++ e), db)
    | none =>
      match db.scopes table with
      | some bound =>
        if bound ≠ scope then
          (.error (builtin ++ "(): table '" ++ table ++ "' is bound to scope '" ++ bound ++ "', refusing to rebind to '"
            ++ scope ++ "' — scope is a hard container boundary"), db)
        else (.ok (), db)
      | none =>
        match fault .scopeInsert with
        | some e => (.error (builtin ++ "(): vec_scopes insert: " ++ e), db)
        | none => (.ok (), { db with scopes := Function.update db.scopes table (some scope) })

def ftsName (table : String) : String := table ++ "__fts"

/-- mirrors src/builtins/vector.rs:413-432 -/
def upsertFtsText (db : Db F) (builtin table id text : String) : Except String Unit × Db F :=
  match fault .ftsCreate with
  | some e => (.error (builtin ++ "(): cannot create fts index for '" ++ table ++ "': " ++ e), db)
  | none =>
    let db := db.create (ftsName table) (.fts [])
    match (fault .ftsDelete).elim (db.deleteId (ftsName table) id) .error with
    | .error e => (.error (builtin ++ "(): fts delete by id: " ++ e), db)
    | .ok db =>
      match (fault .ftsInsert).elim (db.insertFts (ftsName table) ⟨id, text⟩) .error with
      | .error e => (.error (builtin ++ "(): fts insert: " ++ e), db)
      | .ok db => (.ok (), db)

/-- The scope, then the text.
mirrors src/builtins/vector.rs:346-368 -/
def storePayload [FloatModel F] (db : Db F) (c : Call F) (rowid : Nat) : Except String (Value F) × Db F :=
  match c.scope.elim (.ok (), db) (bindTableScope fault db "vec_store" c.table) with
  | (.error e, db) => (.error e, db)
  | (.ok (), db) =>
    match c.text.elim (.ok (), db) (upsertFtsText fault db "vec_store" c.table c.id) with
    | (.error e, db) => (.error e, db)
    | (.ok (), db) =>
      (.ok (.struct "VecStoreResult" [("stored", .float (FloatModel.ofNat 1)), ("table", .string c.table),
        ("id", .string c.id), ("dim", .float (FloatModel.ofNat c.dim)), ("rowid", .float (FloatModel.ofNat rowid))]), db)

/-- The table and the row.
mirrors src/builtins/vector.rs:324-346 -/
def storeRow [FloatModel F] (db : Db F) (c : Call F) : Except String (Value F) × Db F :=
  match fault .create with
  | some e => (.error ("vec_store(): cannot create vec0 table '" ++ c.table ++ "': " ++ e), db)
  | none =>
    let db := db.create c.table (.vec c.dim [])
    match fault .rowid with
    | some e => (.error ("vec_store(): rowid allocation: " ++ e), db)
    | none =>
      let rowid := db.nextRowid c.table
      match (fault .insert).elim (db.insertVec c.table ⟨rowid, c.embedding, c.id, c.scope⟩) .error with
      | .error e => (.error ("vec_store(): insert: " ++ e), db)
      | .ok db => storePayload fault db c rowid

/-- mirrors src/builtins/vector.rs:254-369 -/
def vecStore [FloatModel F] (db : Db F) (args : List (Value F)) : Except String (Value F) × Db F :=
  match readArgs args with
  | .error e => (.error e, db)
  | .ok c =>
    match failing fault [(.openFile, "vec_store(): cannot open vector db '" ++ c.dbPath ++ "': "),
        (.dimTable, "vec_store(): cannot init vec_meta: "), (.dimQuery, "vec_meta query: ")] with
    | some e => (.error e, db)
    | none =>
      match db.dims c.table with
      | some existing =>
        if existing ≠ c.dim then
          (.error ("vec_store(): dimension mismatch for table '" ++ c.table ++ "': created with dim "
            ++ toString existing ++ ", got " ++ toString c.dim
            ++ " — vectors of different models/dimensions must not be mixed"), db)
        else storeRow fault db c
      | none =>
        match fault .dimInsert with
        | some e => (.error ("vec_meta insert: " ++ e), db)
        | none => storeRow fault { db with dims := Function.update db.dims c.table (some c.dim) } c

/-! ## What fails where -/

/-- The contents the store is about: rows, texts, dimensions, scopes. An empty table is as good as none. -/
structure SameContent (a b : Db F) : Prop where
  vec : ∀ t, a.vecRows t = b.vecRows t
  fts : ∀ t, a.ftsRows t = b.ftsRows t
  dims : a.dims = b.dims
  scopes : a.scopes = b.scopes

variable {fault}

def BindFails (fault : Fault) (db : Db F) (table scope : String) : Prop :=
  fault .scopeTable ≠ none ∨ fault .scopeQuery ≠ none ∨ (∃ bound, db.scopes table = some bound ∧ bound ≠ scope) ∨
    db.scopes table = none ∧ fault .scopeInsert ≠ none

def FtsFails (fault : Fault) (db : Db F) (table : String) : Prop :=
  fault .ftsCreate ≠ none ∨ fault .ftsDelete ≠ none ∨ fault .ftsInsert ≠ none ∨
    ∃ t, db.tables (folded (ftsName table)) = some t ∧ ∀ rows, t ≠ .fts rows

/-- Something after the insertion of the row fails. -/
def PayloadFails (fault : Fault) (db : Db F) (c : Call F) : Prop :=
  (∃ s, c.scope = some s ∧ BindFails fault db c.table s) ∨ (∃ t, c.text = some t ∧ FtsFails fault db c.table)

/-- The table or the row is refused. -/
def RowFails (fault : Fault) (db : Db F) (c : Call F) : Prop :=
  fault .create ≠ none ∨ fault .rowid ≠ none ∨ fault .insert ≠ none ∨
    ∃ t, db.tables (folded c.table) = some t ∧ ∀ rows, t ≠ .vec c.dim rows

/-- The call fails after a write: the dimension was recorded, or the row stored. -/
def LeavesBehind (fault : Fault) (db : Db F) (c : Call F) : Prop :=
  (∀ s ∈ [Stmt.openFile, .dimTable, .dimQuery], fault s = none) ∧
    (db.dims c.table = none ∧ fault .dimInsert = none ∧ (RowFails fault db c ∨ PayloadFails fault db c) ∨
      db.dims c.table = some c.dim ∧ ¬ RowFails fault db c ∧ PayloadFails fault db c)

/-- The call comes to the row, and another spelling of its table is bound to another scope. -/
def CrossesSpelling (fault : Fault) (db : Db F) (c : Call F) : Prop :=
  (∀ s ∈ [Stmt.openFile, .dimTable, .dimQuery], fault s = none) ∧
    (db.dims c.table = some c.dim ∨ db.dims c.table = none ∧ fault .dimInsert = none) ∧ ¬ RowFails fault db c ∧
    ∃ t bound s, folded t = folded c.table ∧ t ≠ c.table ∧ db.scopes t = some bound ∧ c.scope = some s ∧ bound ≠ s

theorem SameContent.refl (db : Db F) : SameContent db db := ⟨fun _ => rfl, fun _ => rfl, rfl, rfl⟩

section

variable {db : Db F} {table : String}

@[simp] theorem vecRows_setTable (db : Db F) (name t : String) (tab : Table F) :
    (db.setTable name tab).vecRows t =
      if folded t = folded name then (match tab with | .vec _ rows => rows | _ => []) else db.vecRows t := by
  unfold Db.vecRows Db.setTable
  by_cases h : folded t = folded name
  · rw [h]
    cases tab <;> simp
  · simp [h]

/-- Two spellings of a name are one table. -/
theorem vecRows_congr {t t' : String} (h : folded t = folded t') : db.vecRows t = db.vecRows t' := by
  rw [Db.vecRows, Db.vecRows, h]

@[simp] theorem ftsRows_setTable (db : Db F) (name t : String) (tab : Table F) :
    (db.setTable name tab).ftsRows t =
      if folded t = folded name then (match tab with | .fts rows => rows | _ => []) else db.ftsRows t := by
  unfold Db.ftsRows Db.setTable
  by_cases h : folded t = folded name
  · rw [h]
    cases tab <;> simp
  · simp [h]

/-- A table that is created is empty. -/
theorem sameContent_create {t : Table F} (ht : t = .fts [] ∨ ∃ d, t = .vec d []) :
    SameContent db (db.create table t) := by
  unfold Db.create
  cases hdb : db.tables (folded table) with
  | some t' => exact .refl db
  | none =>
    refine ⟨fun x => ?_, fun x => ?_, rfl, rfl⟩
    · rw [vecRows_setTable]
      split_ifs with hx
      · have hv : db.vecRows x = [] := by rw [Db.vecRows, hx, hdb]
        rcases ht with rfl | ⟨d, rfl⟩ <;> exact hv
      · rfl
    · rw [ftsRows_setTable]
      split_ifs with hx
      · have hf : db.ftsRows x = [] := by rw [Db.ftsRows, hx, hdb]
        rcases ht with rfl | ⟨d, rfl⟩ <;> exact hf
      · rfl

theorem bindTableScope_spec (fault : Fault) (db : Db F) (table scope : String) :
    (∃ e, bindTableScope fault db "vec_store" table scope = (.error e, db)) ∧ BindFails fault db table scope ∨
    bindTableScope fault db "vec_store" table scope =
      (.ok (), { db with scopes := Function.update db.scopes table (some scope) }) ∧
      ¬ BindFails fault db table scope ∧ ∀ bound ∈ db.scopes table, bound = scope := by
  unfold bindTableScope BindFails
  cases h₁ : fault .scopeTable with
  | some e => exact .inl ⟨⟨_, rfl⟩, .inl (by simp)⟩
  | none =>
    cases h₂ : fault .scopeQuery with
    | some e => exact .inl ⟨⟨_, rfl⟩, .inr (.inl (by simp))⟩
    | none =>
      cases h₃ : db.scopes table with
      | some bound =>
        by_cases hb : bound = scope
        · subst hb
          have hsame : Function.update db.scopes table (some bound) = db.scopes := by
            rw [← h₃, Function.update_eq_self]
          right
          simp [hsame]
        · left
          simp [hb]
      | none =>
        cases h₄ : fault .scopeInsert with
        | some e => exact .inl ⟨⟨_, rfl⟩, .inr (.inr (.inr ⟨rfl, by simp⟩))⟩
        | none =>
          right
          simp

/-- What the text does not touch. -/
structure KeepsRows (name : String) (a b : Db F) : Prop where
  vec : ∀ t, folded t ≠ folded name → a.vecRows t = b.vecRows t
  dims : a.dims = b.dims
  scopes : a.scopes = b.scopes

theorem keepsRows_setTable (db : Db F) (name : String) (t : Table F) : KeepsRows name db (db.setTable name t) :=
  ⟨fun x hx => by rw [vecRows_setTable, if_neg hx], rfl, rfl⟩

theorem KeepsRows.trans {name : String} {a b c : Db F} (h : KeepsRows name a b) (h' : KeepsRows name b c) :
    KeepsRows name a c :=
  ⟨fun t ht => (h.vec t ht).trans (h'.vec t ht), h.dims.trans h'.dims, h.scopes.trans h'.scopes⟩

theorem keepsRows_create (db : Db F) (name : String) : KeepsRows name db (db.create name (.fts [])) :=
  let h : SameContent db (db.create name (.fts [])) := sameContent_create (.inl rfl)
  ⟨fun t _ => h.vec t, h.dims, h.scopes⟩

theorem tables_create (db : Db F) (name : String) (t : Table F) :
    (db.create name t).tables (folded name) = some ((db.tables (folded name)).getD t) := by
  unfold Db.create
  cases h : db.tables (folded name) with
  | some t' => simpa using h
  | none => simp [Db.setTable]

/-- The text goes in exactly where the table is a text index. -/
theorem replaceText_spec (id text : String) {name : String} {tab : Table F} (h : db.tables (folded name) = some tab) :
    (∃ rows, tab = .fts rows ∧ ∃ db₁ db₂, db.deleteId name id = .ok db₁ ∧ db₁.insertFts name ⟨id, text⟩ = .ok db₂ ∧
      KeepsRows name db db₁ ∧ KeepsRows name db db₂ ∧ db₂.vecRows name = db.vecRows name) ∨
    (∀ rows, tab ≠ .fts rows) ∧ ((∃ e, db.deleteId name id = .error e) ∨
      ∃ db₁ e, db.deleteId name id = .ok db₁ ∧ db₁.insertFts name ⟨id, text⟩ = .error e ∧ KeepsRows name db db₁) := by
  cases tab with
  | vec d rows =>
    right
    refine ⟨by simp, .inr ⟨db.setTable name (.vec d (rows.filter (·.id ≠ id))), "table has no column named text", ?_, ?_,
      keepsRows_setTable _ _ _⟩⟩
    · rw [Db.deleteId, h]
    · simp only [Db.insertFts, Db.setTable, Function.update_self]
  | fts rows =>
    left
    have hv : db.vecRows name = [] := by rw [Db.vecRows, h]
    refine ⟨rows, rfl, db.setTable name (.fts (rows.filter (·.id ≠ id))),
      (db.setTable name (.fts (rows.filter (·.id ≠ id)))).setTable name (.fts (rows.filter (·.id ≠ id) ++ [⟨id, text⟩])),
      ?_, ?_, keepsRows_setTable _ _ _, (keepsRows_setTable _ _ _).trans (keepsRows_setTable _ _ _), ?_⟩
    · rw [Db.deleteId, h]
    · simp only [Db.insertFts, Db.setTable, Function.update_self]
    · rw [vecRows_setTable, if_pos rfl, hv]
  | other =>
    right
    refine ⟨by simp, .inl ⟨"no such column: id", ?_⟩⟩
    rw [Db.deleteId, h]

theorem upsertFtsText_spec (fault : Fault) (db : Db F) (table id text : String) :
    KeepsRows (ftsName table) db (upsertFtsText fault db "vec_store" table id text).2 ∧
    ((∃ e, (upsertFtsText fault db "vec_store" table id text).1 = .error e) ∧ FtsFails fault db table ∨
      (upsertFtsText fault db "vec_store" table id text).1 = .ok () ∧ ¬ FtsFails fault db table ∧
        ∀ t, (upsertFtsText fault db "vec_store" table id text).2.vecRows t = db.vecRows t) := by
  have hcreate := keepsRows_create db (ftsName table)
  have hvec : (db.create (ftsName table) (.fts [])).vecRows (ftsName table) = db.vecRows (ftsName table) :=
    ((sameContent_create (.inl rfl)).vec _).symm
  have htab := tables_create db (ftsName table) (.fts [])
  have hkind : (∃ t, db.tables (folded (ftsName table)) = some t ∧ ∀ rows, t ≠ .fts rows) ↔
      ∀ rows, (db.tables (folded (ftsName table))).getD (.fts []) ≠ .fts rows := by
    cases db.tables (folded (ftsName table)) <;> simp
  unfold upsertFtsText FtsFails
  rw [hkind]
  cases h₁ : fault .ftsCreate with
  | some e => exact ⟨⟨fun _ _ => rfl, rfl, rfl⟩, .inl ⟨⟨_, rfl⟩, .inl (by simp)⟩⟩
  | none =>
    cases h₂ : fault .ftsDelete with
    | some e => exact ⟨hcreate, .inl ⟨⟨_, rfl⟩, .inr (.inl (by simp))⟩⟩
    | none =>
      simp only [Option.elim_none]
      rcases replaceText_spec id text htab with
        ⟨rows, hfts, db₁, db₂, hdel, hins, hk₁, hk₂, hv⟩ | ⟨hno, ⟨e, hdel⟩ | ⟨db₁, e, hdel, hins, hk₁⟩⟩
      · rw [hdel]
        cases h₃ : fault .ftsInsert with
        | some e => exact ⟨hcreate.trans hk₁, .inl ⟨⟨_, rfl⟩, .inr (.inr (.inl (by simp)))⟩⟩
        | none =>
          simp only [Option.elim_none, hins]
          refine ⟨hcreate.trans hk₂, .inr ⟨trivial, ?_, fun t => ?_⟩⟩
          · simp [hfts]
          · by_cases ht : folded t = folded (ftsName table)
            · rw [vecRows_congr ht, hv, hvec, ← vecRows_congr ht]
            · rw [← (hcreate.trans hk₂).vec t ht]
      · rw [hdel]
        exact ⟨hcreate, .inl ⟨⟨_, rfl⟩, .inr (.inr (.inr hno))⟩⟩
      · rw [hdel]
        cases h₃ : fault .ftsInsert with
        | some e => exact ⟨hcreate.trans hk₁, .inl ⟨⟨_, rfl⟩, .inr (.inr (.inr hno))⟩⟩
        | none =>
          simp only [Option.elim_none, hins]
          exact ⟨hcreate.trans hk₁, .inl ⟨⟨_, rfl⟩, .inr (.inr (.inr hno))⟩⟩

theorem ne_ftsName (table : String) : folded table ≠ folded (ftsName table) := by
  intro h
  have hlen := congrArg (fun s => s.toList.length) h
  simp only [folded, ftsName, String.toList_ofList, List.length_map, String.toList_append, List.length_append] at hlen
  have : "__fts".toList.length = 5 := rfl
  omega

end

/-! ## The call as a whole -/

variable [FloatModel F] {db : Db F} {c : Call F}

/-- After the row: an error exactly where something fails, and the rows of the table stay. -/
theorem storePayload_spec (fault : Fault) (db : Db F) (c : Call F) (rowid : Nat) :
    (storePayload fault db c rowid).2.vecRows c.table = db.vecRows c.table ∧
    ((∃ e, (storePayload fault db c rowid).1 = .error e) ∧ PayloadFails fault db c ∨
      (∃ v, (storePayload fault db c rowid).1 = .ok v) ∧ ¬ PayloadFails fault db c ∧
        (∀ t, (storePayload fault db c rowid).2.vecRows t = db.vecRows t) ∧
        (∀ bound s, db.scopes c.table = some bound → c.scope = some s → bound = s) ∧
        (storePayload fault db c rowid).2.scopes =
          c.scope.elim db.scopes fun s => Function.update db.scopes c.table (some s)) := by
  -- the text, on any database whose tables and rows are those of `db`
  have htext (db' : Db F) (htab : db'.tables = db.tables) :
      (c.text.elim (.ok (), db') (upsertFtsText fault db' "vec_store" c.table c.id)).2.vecRows c.table =
        db.vecRows c.table ∧
      ((∃ e, (c.text.elim (.ok (), db') (upsertFtsText fault db' "vec_store" c.table c.id)).1 = .error e) ∧
          (∃ t, c.text = some t ∧ FtsFails fault db c.table) ∨
        (c.text.elim (.ok (), db') (upsertFtsText fault db' "vec_store" c.table c.id)).1 = .ok () ∧
          (¬ ∃ t, c.text = some t ∧ FtsFails fault db c.table) ∧
          (∀ t, (c.text.elim (.ok (), db') (upsertFtsText fault db' "vec_store" c.table c.id)).2.vecRows t =
            db.vecRows t) ∧
          (c.text.elim (.ok (), db') (upsertFtsText fault db' "vec_store" c.table c.id)).2.scopes = db'.scopes) := by
    have hrows : ∀ t, db'.vecRows t = db.vecRows t := fun t => by rw [Db.vecRows, Db.vecRows, htab]
    have hfails : FtsFails fault db' c.table ↔ FtsFails fault db c.table := by
      unfold FtsFails
      rw [htab]
    cases c.text with
    | none => exact ⟨hrows _, .inr ⟨rfl, by simp, hrows, rfl⟩⟩
    | some t =>
      obtain ⟨hk, hres⟩ := upsertFtsText_spec fault db' c.table c.id t
      rw [hfails] at hres
      refine ⟨(hk.vec _ (ne_ftsName c.table)).symm.trans (hrows _), ?_⟩
      rcases hres with ⟨he, hf⟩ | ⟨hok, hf, hv⟩
      · exact .inl ⟨he, t, rfl, hf⟩
      · exact .inr ⟨hok, by simpa using hf, fun x => (hv x).trans (hrows x), hk.scopes.symm⟩
  -- the scope in front of it
  have hbind : (∃ e db', c.scope.elim (.ok (), db) (bindTableScope fault db "vec_store" c.table) = (.error e, db') ∧
        db' = db ∧ ∃ s, c.scope = some s ∧ BindFails fault db c.table s) ∨
      ∃ db', c.scope.elim (.ok (), db) (bindTableScope fault db "vec_store" c.table) = (.ok (), db') ∧
        db'.tables = db.tables ∧ (¬ ∃ s, c.scope = some s ∧ BindFails fault db c.table s) ∧
        (∀ bound s, db.scopes c.table = some bound → c.scope = some s → bound = s) ∧
        db'.scopes = c.scope.elim db.scopes fun s => Function.update db.scopes c.table (some s) := by
    cases c.scope with
    | none => exact .inr ⟨db, rfl, rfl, by simp, by simp, rfl⟩
    | some s =>
      rcases bindTableScope_spec fault db c.table s with ⟨⟨e, he⟩, hf⟩ | ⟨hok, hf, hb⟩
      · exact .inl ⟨e, db, he, rfl, s, rfl, hf⟩
      · refine .inr ⟨_, hok, rfl, by simpa using hf, fun bound s' hbound hs' => ?_, rfl⟩
        obtain rfl := Option.some.inj hs'
        exact hb bound hbound
  unfold storePayload PayloadFails
  rcases hbind with ⟨e, db', he, rfl, hf⟩ | ⟨db', hok, htab, hf, hb, hscopes⟩
  · rw [he]
    exact ⟨rfl, .inl ⟨⟨e, rfl⟩, .inl hf⟩⟩
  · obtain ⟨hrows, hres⟩ := htext db' htab
    rw [hok]
    dsimp only
    generalize c.text.elim (.ok (), db') (upsertFtsText fault db' "vec_store" c.table c.id) = r at hrows hres
    obtain ⟨res, db''⟩ := r
    rcases hres with ⟨⟨e, he⟩, hft⟩ | ⟨hok', hft, hv, hsc⟩
    · obtain rfl : res = .error e := he
      exact ⟨hrows, .inl ⟨⟨e, rfl⟩, .inr hft⟩⟩
    · obtain rfl : res = .ok () := hok'
      exact ⟨hrows, .inr ⟨⟨_, rfl⟩, not_or.2 ⟨hf, hft⟩, hv, hb, hsc.trans hscopes⟩⟩

omit [FloatModel F] in
theorem payloadFails_congr {db' : Db F} (htab : db'.tables (folded (ftsName c.table)) = db.tables (folded (ftsName c.table)))
    (hscopes : db'.scopes = db.scopes) : PayloadFails fault db' c ↔ PayloadFails fault db c := by
  unfold PayloadFails BindFails FtsFails
  rw [htab, hscopes]

/-- The row goes in, or the contents stay. -/
theorem storeRow_spec (fault : Fault) (db : Db F) (c : Call F) :
    RowFails fault db c ∧ (∃ e, (storeRow fault db c).1 = .error e) ∧ SameContent db (storeRow fault db c).2 ∨
    ¬ RowFails fault db c ∧ ∃ row : VecRow F, row.given = c.scope ∧
      (storeRow fault db c).2.vecRows c.table = db.vecRows c.table ++ [row] ∧
      ((∃ e, (storeRow fault db c).1 = .error e) ∧ PayloadFails fault db c ∨
        (∃ v, (storeRow fault db c).1 = .ok v) ∧ ¬ PayloadFails fault db c ∧
          (∀ t, folded t ≠ folded c.table → (storeRow fault db c).2.vecRows t = db.vecRows t) ∧
          (∀ bound s, db.scopes c.table = some bound → c.scope = some s → bound = s) ∧
          (storeRow fault db c).2.scopes =
            c.scope.elim db.scopes fun s => Function.update db.scopes c.table (some s)) := by
  have hsame : SameContent db (db.create c.table (.vec c.dim [])) := sameContent_create (.inr ⟨c.dim, rfl⟩)
  have htab := tables_create db c.table (.vec c.dim [])
  have hkind : (∃ t, db.tables (folded c.table) = some t ∧ ∀ rows, t ≠ .vec c.dim rows) ↔
      ∀ rows, (db.tables (folded c.table)).getD (.vec c.dim []) ≠ .vec c.dim rows := by
    cases db.tables (folded c.table) <;> simp
  unfold storeRow RowFails
  rw [hkind]
  cases h₁ : fault .create with
  | some e => exact .inl ⟨.inl (by simp), ⟨_, rfl⟩, .refl db⟩
  | none =>
    cases h₂ : fault .rowid with
    | some e => exact .inl ⟨.inr (.inl (by simp)), ⟨_, rfl⟩, hsame⟩
    | none =>
      cases h₃ : fault .insert with
      | some e => exact .inl ⟨.inr (.inr (.inl (by simp))), ⟨_, rfl⟩, hsame⟩
      | none =>
        simp only [Option.elim_none]
        by_cases hvec : ∃ rows, (db.tables (folded c.table)).getD (.vec c.dim []) = .vec c.dim rows
        · obtain ⟨rows, hrows⟩ := hvec
          rw [hrows] at htab
          right
          generalize hrow : (⟨(db.create c.table (.vec c.dim [])).nextRowid c.table, c.embedding, c.id, c.scope⟩ :
            VecRow F) = row
          have hins : (db.create c.table (.vec c.dim [])).insertVec c.table row =
              .ok ((db.create c.table (.vec c.dim [])).setTable c.table (.vec c.dim (rows ++ [row]))) := by
            rw [Db.insertVec, htab, ← hrow]
            exact if_pos rfl
          have hold : db.vecRows c.table = rows := by
            rw [hsame.vec, Db.vecRows, htab]
          have hpayload : PayloadFails fault
              ((db.create c.table (.vec c.dim [])).setTable c.table (.vec c.dim (rows ++ [row]))) c ↔
              PayloadFails fault db c := by
            have hne : folded (ftsName c.table) ≠ folded c.table := (ne_ftsName c.table).symm
            refine payloadFails_congr ?_ hsame.scopes.symm
            unfold Db.create Db.setTable
            cases db.tables (folded c.table) <;> simp [hne]
          rw [hins]
          dsimp only
          obtain ⟨hkeep, hres⟩ := storePayload_spec fault
            ((db.create c.table (.vec c.dim [])).setTable c.table (.vec c.dim (rows ++ [row]))) c
            ((db.create c.table (.vec c.dim [])).nextRowid c.table)
          rw [hpayload] at hres
          refine ⟨by simp [hrows], row, by rw [← hrow], ?_, ?_⟩
          · rw [hkeep, vecRows_setTable, if_pos rfl, hold]
          · rcases hres with ⟨he, hf⟩ | ⟨hok, hf, hv, hb, hsc⟩
            · exact .inl ⟨he, hf⟩
            · have hscopes : db.scopes = (db.create c.table (.vec c.dim [])).scopes := hsame.scopes
              refine .inr ⟨hok, hf, fun t ht => ?_, ?_, ?_⟩
              · rw [hv, vecRows_setTable, if_neg ht, ← hsame.vec]
              · rw [hscopes]
                exact hb
              · rw [hscopes]
                exact hsc
        · have hno : ∀ rows, (db.tables (folded c.table)).getD (.vec c.dim []) ≠ .vec c.dim rows := fun rows h => hvec ⟨rows, h⟩
          left
          refine ⟨.inr (.inr (.inr hno)), ?_⟩
          have hins : ∃ e, (db.create c.table (.vec c.dim [])).insertVec c.table
              ⟨(db.create c.table (.vec c.dim [])).nextRowid c.table, c.embedding, c.id, c.scope⟩ = .error e := by
            unfold Db.insertVec
            rw [htab]
            cases hd : (db.tables (folded c.table)).getD (.vec c.dim []) with
            | vec d rows =>
              have hdim : d ≠ c.dim := by
                rintro rfl
                exact hno rows hd
              exact ⟨_, if_neg hdim⟩
            | fts rows => exact ⟨_, rfl⟩
            | other => exact ⟨_, rfl⟩
          obtain ⟨e, he⟩ := hins
          rw [he]
          exact ⟨⟨_, rfl⟩, hsame⟩

theorem failing_eq_none {stmts : List (Stmt × String)} (h : ∀ s ∈ stmts, fault s.1 = none) : failing fault stmts = none := by
  induction stmts with
  | nil => rfl
  | cons s stmts ih =>
    obtain ⟨hs, hrest⟩ := List.forall_mem_cons.1 h
    unfold failing at ih ⊢
    rw [List.firstM, hs, ih hrest]
    rfl

theorem failing_isSome {stmts : List (Stmt × String)} {s : Stmt} (hs : s ∈ stmts.map (·.1)) (h : fault s ≠ none) :
    ∃ e, failing fault stmts = some e := by
  induction stmts with
  | nil => cases hs
  | cons a stmts ih =>
    unfold failing at ih ⊢
    rw [List.firstM]
    cases ha : fault a.1 with
    | some e => exact ⟨_, rfl⟩
    | none =>
      rcases List.mem_cons.1 hs with rfl | hs
      · exact absurd ha h
      · obtain ⟨e, he⟩ := ih hs
        rw [he]
        exact ⟨e, rfl⟩

/-- The call stops before any write, or comes to the row. -/
theorem vecStore_cases (fault : Fault) (db : Db F) (args : List (Value F)) :
    (∃ e, vecStore fault db args = (.error e, db)) ∧ (∀ c, readArgs args = .ok c → ¬ LeavesBehind fault db c) ∨
    ∃ c, readArgs args = .ok c ∧ (∀ s ∈ [Stmt.openFile, .dimTable, .dimQuery], fault s = none) ∧
      (db.dims c.table = some c.dim ∧ vecStore fault db args = storeRow fault db c ∨
        db.dims c.table = none ∧ fault .dimInsert = none ∧ vecStore fault db args =
          storeRow fault { db with dims := Function.update db.dims c.table (some c.dim) } c) := by
  unfold vecStore
  cases hargs : readArgs args with
  | error e => exact .inl ⟨⟨e, rfl⟩, by simp⟩
  | ok c =>
    dsimp only
    by_cases hopen : ∀ s ∈ [Stmt.openFile, .dimTable, .dimQuery], fault s = none
    · rw [failing_eq_none (by simpa using hopen)]
      cases hdim : db.dims c.table with
      | some d =>
        by_cases hd : d = c.dim
        · subst hd
          exact .inr ⟨c, rfl, hopen, .inl ⟨hdim, by simp⟩⟩
        · refine .inl ⟨⟨_, by simp only [ne_eq, hd, not_false_eq_true, if_true]; rfl⟩, fun c' hc' hl => ?_⟩
          cases hc'
          rcases hl.2 with ⟨hnone, -⟩ | ⟨hsome, -⟩
          · simp [hdim] at hnone
          · exact hd (Option.some.inj (hdim.symm.trans hsome))
      | none =>
        cases hins : fault .dimInsert with
        | some e =>
          refine .inl ⟨⟨_, rfl⟩, fun c' hc' hl => ?_⟩
          cases hc'
          rcases hl.2 with ⟨-, hnone, -⟩ | ⟨hsome, -⟩
          · simp [hins] at hnone
          · simp [hdim] at hsome
        | none => exact .inr ⟨c, rfl, hopen, .inr ⟨hdim, rfl, rfl⟩⟩
    · left
      obtain ⟨s, hs⟩ := not_forall.1 hopen
      obtain ⟨hs, hf⟩ := Classical.not_imp.1 hs
      have hsome : ∃ e, failing fault [(.openFile, "vec_store(): cannot open vector db '" ++ c.dbPath ++ "': "),
          (.dimTable, "vec_store(): cannot init vec_meta: "), (.dimQuery, "vec_meta query: ")] = some e :=
        failing_isSome (by simpa using hs) hf
      obtain ⟨e, he⟩ := hsome
      rw [he]
      exact ⟨⟨e, rfl⟩, fun c' _ hl => hopen hl.1⟩

omit [FloatModel F] in
theorem length_vecRows_ne {a b : Db F} {t : String} {row : VecRow F} (h : b.vecRows t = a.vecRows t ++ [row]) :
    ¬ SameContent a b := by
  intro hs
  have hlen := congrArg List.length (hs.vec t)
  rw [h, List.length_append] at hlen
  simp at hlen

/-- An error leaves the contents as they were exactly when nothing fails after a write. -/
theorem vecStore_unchanged_iff (fault : Fault) (db : Db F) (args : List (Value F)) :
    (∀ e, (vecStore fault db args).1 = .error e → SameContent db (vecStore fault db args).2) ↔
      ∀ c, readArgs args = .ok c → ¬ LeavesBehind fault db c := by
  rcases vecStore_cases fault db args with ⟨⟨e, he⟩, hno⟩ | ⟨c, hc, hopen, ⟨hdim, heq⟩ | ⟨hdim, hins, heq⟩⟩
  · rw [he]
    exact ⟨fun _ => hno, fun _ _ _ => .refl db⟩
  · rw [heq]
    rcases storeRow_spec fault db c with ⟨hrow, -, hsame⟩ | ⟨hrow, row, -, hrows, ⟨⟨e, he⟩, hf⟩ | ⟨⟨v, hv⟩, hf, -⟩⟩
    · refine ⟨fun _ c' hc' hl => ?_, fun _ _ _ => hsame⟩
      obtain rfl : c = c' := by simpa [hc] using hc'
      rcases hl.2 with ⟨hnone, -⟩ | ⟨-, hnot, -⟩
      · simp [hdim] at hnone
      · exact hnot hrow
    · refine ⟨fun h => absurd (h e he) (length_vecRows_ne hrows), fun h => ?_⟩
      exact absurd ⟨hopen, .inr ⟨hdim, hrow, hf⟩⟩ (h c hc)
    · refine ⟨fun _ c' hc' hl => ?_, fun _ e he => by simp [hv] at he⟩
      obtain rfl : c = c' := by simpa [hc] using hc'
      rcases hl.2 with ⟨hnone, -⟩ | ⟨-, -, hpay⟩
      · simp [hdim] at hnone
      · exact hf hpay
  · -- the dimension is recorded by now
    rw [heq]
    rcases storeRow_spec fault { db with dims := Function.update db.dims c.table (some c.dim) } c with
      ⟨hrow, ⟨e, he⟩, hsame⟩ | ⟨hrow, row, -, hrows, ⟨⟨e, he⟩, hf⟩ | ⟨⟨v, hv⟩, hf, -⟩⟩
    · refine ⟨fun h => ?_, fun h => ?_⟩
      · have hdims := congrFun ((h e he).dims.trans hsame.dims.symm) c.table
        simp [hdim] at hdims
      · exact absurd ⟨hopen, .inl ⟨hdim, hins, .inl hrow⟩⟩ (h c hc)
    · refine ⟨fun h => absurd (h e he) (length_vecRows_ne hrows), fun h => ?_⟩
      exact absurd ⟨hopen, .inl ⟨hdim, hins, .inr hf⟩⟩ (h c hc)
    · refine ⟨fun _ c' hc' hl => ?_, fun _ e he => by simp [hv] at he⟩
      obtain rfl : c = c' := by simpa [hc] using hc'
      rcases hl.2 with ⟨-, -, hrow' | hpay⟩ | ⟨hsome, -⟩
      · exact hrow hrow'
      · exact hf hpay
      · simp [hdim] at hsome

/-! ## Runs -/

/-- One call of a run, with what the database answers in it. -/
structure Store (F : Type) where
  fault : Fault
  args : List (Value F)

def Store.after (s : Store F) (db : Db F) : Db F := (vecStore s.fault db s.args).2

def runStores (db : Db F) (stores : List (Store F)) : Db F := stores.foldl (fun db s => s.after db) db

/-- No call of the run fails after a write, and none stores a row where another spelling is bound to another scope. -/
def CleanRun : Db F → List (Store F) → Prop
  | _, [] => True
  | db, s :: stores =>
    (∀ c, readArgs s.args = .ok c → ¬ LeavesBehind s.fault db c ∧ ¬ CrossesSpelling s.fault db c) ∧
      CleanRun (s.after db) stores

/-- A new file. -/
def Db.empty : Db F := ⟨fun _ => none, fun _ => none, fun _ => none⟩

/-- The invariant: rows of other scopes are in no bound table, and rows of a scope in no unbound one. -/
structure Scoped (db : Db F) : Prop where
  bound : ∀ t s, db.scopes t = some s → ∀ row ∈ db.vecRows t, row.given = none ∨ row.given = some s
  unbound : ∀ t, (∀ t', folded t' = folded t → db.scopes t' = none) → ∀ row ∈ db.vecRows t, row.given = none

omit [FloatModel F] in
theorem Scoped.of_sameContent {a b : Db F} (h : Scoped a) (hs : SameContent a b) : Scoped b where
  bound t s ht row hrow := h.bound t s (by rw [hs.scopes, ht]) row (by rw [hs.vec]; exact hrow)
  unbound t ht row hrow := h.unbound t (by rw [hs.scopes]; exact ht) row (by rw [hs.vec]; exact hrow)

omit [FloatModel F] in
/-- A call that stores its row binds the table to its scope, and finds no spelling of it bound to another one. -/
theorem scoped_store {db' : Db F} {row : VecRow F} (h : Scoped db) (hgiven : row.given = c.scope)
    (hrows : db'.vecRows c.table = db.vecRows c.table ++ [row])
    (hother : ∀ t, folded t ≠ folded c.table → db'.vecRows t = db.vecRows t)
    (hbound : ∀ t bound s, folded t = folded c.table → db.scopes t = some bound → c.scope = some s → bound = s)
    (hscopes : db'.scopes = c.scope.elim db.scopes fun s => Function.update db.scopes c.table (some s)) :
    Scoped db' := by
  have hscope_ne (t : String) (ht : t ≠ c.table) : db'.scopes t = db.scopes t := by
    rw [hscopes]
    cases c.scope with
    | none => rfl
    | some s => exact Function.update_of_ne ht _ _
  have hsame (t : String) (ht : folded t = folded c.table) : db'.vecRows t = db.vecRows t ++ [row] := by
    rw [vecRows_congr ht, hrows, vecRows_congr ht]
  constructor
  · intro t s hs r hr
    by_cases ht : folded t = folded c.table
    · rw [hsame t ht] at hr
      cases hsc : c.scope with
      | none =>
        rw [hscopes, hsc] at hs
        rcases List.mem_append.1 hr with hr | hr
        · exact h.bound t s hs r hr
        · obtain rfl : r = row := by simpa using hr
          exact .inl (hgiven.trans hsc)
      | some s' =>
        obtain rfl : s = s' := by
          by_cases htc : t = c.table
          · subst htc
            rw [hscopes, hsc] at hs
            simpa using hs.symm
          · exact hbound t s s' ht (hscope_ne t htc ▸ hs) hsc
        rcases List.mem_append.1 hr with hr | hr
        · -- an older row: of no scope, or of the one a spelling is bound to
          by_cases hany : ∀ t', folded t' = folded t → db.scopes t' = none
          · exact .inl (h.unbound t hany r hr)
          · obtain ⟨t', ht', hne⟩ : ∃ t', folded t' = folded t ∧ db.scopes t' ≠ none := by simpa using hany
            obtain ⟨bound, hb⟩ := Option.ne_none_iff_exists'.1 hne
            obtain rfl := hbound t' bound s (ht'.trans ht) hb hsc
            exact h.bound t' bound hb r (by rwa [vecRows_congr ht'])
        · obtain rfl : r = row := by simpa using hr
          exact .inr (hgiven.trans hsc)
    · rw [hother t ht] at hr
      rw [hscope_ne t fun heq => ht (by rw [heq])] at hs
      exact h.bound t s hs r hr
  · intro t hs r hr
    by_cases ht : folded t = folded c.table
    · rw [hsame t ht] at hr
      cases hsc : c.scope with
      | none =>
        rw [hscopes, hsc] at hs
        rcases List.mem_append.1 hr with hr | hr
        · exact h.unbound t hs r hr
        · obtain rfl : r = row := by simpa using hr
          exact hgiven.trans hsc
      | some s' =>
        have hnone := hs c.table ht.symm
        rw [hscopes, hsc] at hnone
        simp at hnone
    · rw [hother t ht] at hr
      refine h.unbound t (fun t' ht' => ?_) r hr
      rw [← hscope_ne t' fun heq => ht (by rw [← ht', heq])]
      exact hs t' ht'

theorem scoped_step {s : Store F} (h : Scoped db)
    (hclean : ∀ c, readArgs s.args = .ok c → ¬ LeavesBehind s.fault db c ∧ ¬ CrossesSpelling s.fault db c) :
    Scoped (s.after db) := by
  cases hres : (vecStore s.fault db s.args).1 with
  | error e => exact h.of_sameContent ((vecStore_unchanged_iff _ _ _).2 (fun c hc => (hclean c hc).1) e hres)
  | ok v =>
    unfold Store.after
    rcases vecStore_cases s.fault db s.args with ⟨⟨e, he⟩, -⟩ | ⟨c, hc, hopen, hstore⟩
    · rw [he] at hres
      cases hres
    · -- recording the dimension changes neither rows nor scopes
      obtain ⟨db₁, htab, hsc, hdim, heq⟩ : ∃ db₁ : Db F, db₁.tables = db.tables ∧ db₁.scopes = db.scopes ∧
          (db.dims c.table = some c.dim ∨ db.dims c.table = none ∧ s.fault .dimInsert = none) ∧
          vecStore s.fault db s.args = storeRow s.fault db₁ c := by
        rcases hstore with ⟨hdim, heq⟩ | ⟨hdim, hins, heq⟩
        · exact ⟨db, rfl, rfl, .inl hdim, heq⟩
        · exact ⟨{ db with dims := Function.update db.dims c.table (some c.dim) }, rfl, rfl, .inr ⟨hdim, hins⟩, heq⟩
      have hv : db₁.vecRows = db.vecRows := by
        funext t
        rw [Db.vecRows, Db.vecRows, htab]
      have hrow : RowFails s.fault db₁ c ↔ RowFails s.fault db c := by rw [RowFails, RowFails, htab]
      rw [heq] at hres ⊢
      have h₁ : Scoped db₁ := ⟨by rw [hv, hsc]; exact h.bound, by rw [hv, hsc]; exact h.unbound⟩
      rcases storeRow_spec s.fault db₁ c with ⟨-, ⟨e, he⟩, -⟩ |
        ⟨hfits, row, hgiven, hrows, ⟨⟨e, he⟩, -⟩ | ⟨-, -, hother, hbound, hscopes⟩⟩
      · rw [he] at hres
        cases hres
      · rw [he] at hres
        cases hres
      · refine scoped_store h₁ hgiven hrows hother (fun t bound s' ht hb hs' => ?_) hscopes
        by_cases htc : t = c.table
        · subst htc
          exact hbound bound s' hb hs'
        · by_contra hne
          rw [hsc] at hb
          exact (hclean c hc).2 ⟨hopen, hdim, mt hrow.2 hfits, t, bound, s', ht, htc, hb, hs', hne⟩

theorem scoped_run {stores : List (Store F)} : ∀ {db : Db F}, Scoped db → CleanRun db stores →
    Scoped (runStores db stores) := by
  induction stores with
  | nil =>
    intro db h _
    exact h
  | cons s stores ih =>
    intro db h hclean
    exact ih (scoped_step h hclean.1) hclean.2

omit [FloatModel F] in
theorem scoped_empty : Scoped (Db.empty : Db F) where
  bound t s hs := by cases hs
  unbound t _ row hrow := by cases hrow

/-- A failed call leaves the contents as they were exactly when nothing fails after a write, and in a run of
such calls, none of which meets another spelling bound to another scope, a table bound to a scope holds no row of
another one. -/
theorem vecStore_atomic_iff (F : Type) [FloatModel F] :
    (∀ (fault : Fault) (db : Db F) (args : List (Value F)),
      (∀ e, (vecStore fault db args).1 = .error e → SameContent db (vecStore fault db args).2) ↔
        ∀ c, readArgs args = .ok c → ¬ LeavesBehind fault db c) ∧
    ∀ stores : List (Store F), CleanRun Db.empty stores → ∀ t s, (runStores Db.empty stores).scopes t = some s →
      ∀ row ∈ (runStores Db.empty stores).vecRows t, row.given = none ∨ row.given = some s := by
  constructor
  · intro fault db args
    exact vecStore_unchanged_iff fault db args
  · intro stores hclean t s hs
    exact (scoped_run scoped_empty hclean).bound t s hs

/-- The arguments of a call with a scope. -/
def Sample.storeArgs (table id scope : String) : List (Value Int) :=
  [.string "mem.db", .string table, .string id, .list [.float 1], .struct "Opts" [("scope", .string scope)]]

open Sample in
/-- The second call is refused, and its row is in the table of the first one. Under another spelling of the table's
name it is not refused. -/
theorem refused_row_stays :
    (¬ ∀ (fault : Fault) (db : Db Int) (args : List (Value Int)) (e : String),
      (vecStore fault db args).1 = .error e → SameContent db (vecStore fault db args).2) ∧
    (¬ ∀ (stores : List (Store Int)) (t s : String), (runStores Db.empty stores).scopes t = some s →
      ∀ row ∈ (runStores Db.empty stores).vecRows t, row.given = none ∨ row.given = some s) ∧
    ∃ v db row, vecStore (fun _ => none) (runStores Db.empty [⟨fun _ => none, storeArgs "docs" "1" "a"⟩])
        (storeArgs "Docs" "2" "b") = (.ok v, db) ∧ db.scopes "docs" = some "a" ∧ row ∈ db.vecRows "docs" ∧
      row.given = some "b" := by
  refine ⟨?_, ?_, ?_⟩
  · intro h
    have hvec := (h (fun _ => none) (runStores Db.empty [⟨fun _ => none, storeArgs "docs" "1" "a"⟩])
      (storeArgs "docs" "2" "b") _ rfl).vec "docs"
    exact absurd (congrArg List.length hvec) (by decide)
  · intro h
    have hrow := h [⟨fun _ => none, storeArgs "docs" "1" "a"⟩, ⟨fun _ => none, storeArgs "docs" "2" "b"⟩] "docs" "a" rfl
      ⟨2, [1], "2", some "b"⟩ (List.mem_cons_of_mem _ List.mem_cons_self)
    simp at hrow
  · exact ⟨_, _, ⟨2, [1], "2", some "b"⟩, rfl, rfl, List.mem_cons_of_mem _ List.mem_cons_self, rfl⟩

end Metalogos.Vector
