import Metalogos.Memory.Run

/-!
# Typed memory: the persistent store

With `METALOGOS_MEMORY_DB` set, every mutation of a container is also written to four tables, and a fresh
process reads its containers from there (`db_load_container`). `Db` has the tables with the columns and
primary keys of the schema, `apply` the statements, `load` the rebuild. A `World` is the registry, the
grants and the store. `recall` and a revoked consent walk over containers and are one call on each of them
here. Every statement succeeds.
-/
namespace Metalogos.Memory

open Metalogos.Lib Metalogos.Grants

/-! ## Tables -/

/-- A row of `memtyped_containers` without its key.
mirrors src/memory_typed.rs:813-817 -/
structure ContainerRow where
  subject : String
  label : String
  createdUnix : Int
  deriving DecidableEq

/-- A row of `memtyped_entries` without its key. -/
structure EntryRow where
  stored : ByteArray
  isEnc : Int
  createdUnix : Int
  retained : Int
  deriving DecidableEq

/-- A row of `memtyped_entry_attrs` without its key; the floats are stored exactly. -/
structure AttrRow where
  priority : Num
  decayRate : Num
  lastAccessUnix : Int
  ttlUnix : Option Int
  poisoned : Int
  deriving DecidableEq

/-- A row of `memtyped_edges`; all of it is the key. -/
structure Edge where
  containerId : String
  child : String
  parent : String
  deriving DecidableEq

structure Db where
  containers : Dict String ContainerRow
  entries : Dict (String × String) EntryRow
  attrs : Dict (String × String) AttrRow
  edges : List Edge

def Db.empty : Db := ⟨.empty, .empty, .empty, []⟩

/-! ## Writing through -/

/-- mirrors src/memory_typed.rs:868-872 -/
def Stored.column : Stored → ByteArray × Int
  | .plain s => (s.toUTF8, 0)
  | .enc blob => (blob, 1)

def TypedEntry.row (e : TypedEntry) (retained : Int) : EntryRow :=
  ⟨e.stored.column.1, e.stored.column.2, toI64 e.createdUnix, retained⟩

/-- mirrors src/memory_typed.rs:934-956 -/
def TypedEntry.attrRow (e : TypedEntry) : AttrRow where
  priority := e.priority
  decayRate := e.decayRate
  lastAccessUnix := toI64 e.lastAccessUnix
  ttlUnix := e.ttlUnix.map fun t : Nat => toI64 t
  poisoned := if e.poisoned then 1 else 0

/-- `INSERT OR IGNORE`. -/
def insertEdge (edges : List Edge) (e : Edge) : List Edge := if e ∈ edges then edges else edges ++ [e]

/-- The pin column is written as 0.
mirrors src/memory_typed.rs:864-907 -/
def Db.entryPut (db : Db) (id key : String) (entry : TypedEntry) : Db :=
  { db with
    entries := db.entries.set (id, key) (entry.row 0)
    attrs := db.attrs.set (id, key) entry.attrRow
    edges := (entry.derivedFrom.map fun p => ⟨id, key, p⟩).foldl insertEdge
      (db.edges.filter fun e => ¬ (e.containerId = id ∧ e.child = key)) }

/-- mirrors src/memory_typed.rs:909-920 -/
def Db.pin (db : Db) (id key : String) (retained : Bool) : Db :=
  { db with entries := db.entries.modify (id, key) fun r => { r with retained := if retained then 1 else 0 } }

/-- mirrors src/memory_typed.rs:958-990 -/
def Db.deleteKey (id : String) (db : Db) (k : String) : Db :=
  { db with
    entries := db.entries.erase (id, k)
    attrs := db.attrs.erase (id, k)
    edges := db.edges.filter fun e => ¬ (e.containerId = id ∧ (e.child = k ∨ e.parent = k)) }

def Db.apply (id : String) (db : Db) : Write → Db
  | .entryPut key entry => db.entryPut id key entry
  | .pin key retained => db.pin id key retained
  | .attrs key entry => { db with attrs := db.attrs.set (id, key) entry.attrRow }
  | .delete ks => ks.foldl (Db.deleteKey id) db

def Db.applyAll (db : Db) (id : String) (ws : List Write) : Db := ws.foldl (Db.apply id) db

/-! ## Loading -/

/-- A time column read back: `max(0) as u64`. -/
def fromColumn (x : Int) : Nat := (max 0 x).toNat

/-- mirrors src/memory_typed.rs:1040-1048 -/
def EntryRow.toStored (r : EntryRow) : Stored :=
  if r.isEnc ≠ 0 then .enc r.stored
  else match String.fromUTF8? r.stored with
    | some s => .plain s
    | none => .enc .empty

/-- mirrors src/memory_typed.rs:1052-1061 -/
def EntryRow.entry (r : EntryRow) : TypedEntry := .new r.toStored [] (fromColumn r.createdUnix)

/-- mirrors src/memory_typed.rs:1085-1091 -/
def AttrRow.merge (r : AttrRow) (e : TypedEntry) : TypedEntry :=
  { e with
    priority := r.priority
    decayRate := r.decayRate
    lastAccessUnix := fromColumn r.lastAccessUnix
    ttlUnix := r.ttlUnix.map fromColumn
    poisoned := r.poisoned ≠ 0 }

/-- The keys of a container in a table. -/
def keysIn {α : Type} (id : String) (d : Dict (String × String) α) : List String :=
  (d.keys.filter (·.1 = id)).map (·.2)

def Db.loadEntry (db : Db) (id : String) (d : Dict String TypedEntry) (k : String) : Dict String TypedEntry :=
  match db.entries.get (id, k) with
  | none => d
  | some r => d.set k r.entry

/-- mirrors src/memory_typed.rs:1019-1064 -/
def Db.loadEntries (db : Db) (id : String) : Dict String TypedEntry :=
  (keysIn id db.entries).foldl (db.loadEntry id) .empty

/-- mirrors src/memory_typed.rs:1049-1051 -/
def Db.loadPins (db : Db) (id : String) : Finset String :=
  ((keysIn id db.entries).filter fun k => (db.entries.get (id, k)).any (·.retained ≠ 0)).toFinset

def Db.mergeAttr (db : Db) (id : String) (d : Dict String TypedEntry) (k : String) : Dict String TypedEntry :=
  match db.attrs.get (id, k) with
  | none => d
  | some r => d.modify k r.merge

/-- mirrors src/memory_typed.rs:1065-1093 -/
def Db.mergeAttrs (db : Db) (id : String) (d : Dict String TypedEntry) : Dict String TypedEntry :=
  (keysIn id db.attrs).foldl (db.mergeAttr id) d

def TypedEntry.derive (parent : String) (e : TypedEntry) : TypedEntry :=
  { e with derivedFrom := e.derivedFrom ++ [parent] }

/-- mirrors src/memory_typed.rs:1094-1113 -/
def Db.edgesIn (db : Db) (id : String) : List Edge := db.edges.filter fun e => e.containerId = id

/-- mirrors src/memory_typed.rs:994-1124 -/
def Db.loadContainer (db : Db) (id : String) (row : ContainerRow) (label : MemLabel) : TypedContainer where
  id := id
  subject := row.subject
  label := label
  createdUnix := fromColumn row.createdUnix
  entries := (db.edgesIn id).foldl (fun d e => d.modify e.child (.derive e.parent))
    (db.mergeAttrs id (db.loadEntries id))
  children := (db.edgesIn id).foldl (fun ch e => ch.set e.parent (kidsOf ch e.parent ++ [e.child])) .empty
  retained := db.loadPins id

/-- mirrors src/memory_typed.rs:994-1124 -/
def Db.load (db : Db) (subject : String) (label : MemLabel) : Option TypedContainer := do
  let id ← (db.containers.select fun _ r => r.subject = subject && r.label = label.asStr).head?
  let row ← db.containers.get id
  some (db.loadContainer id row label)

/-! ## The world -/

structure World where
  registry : Dict String TypedContainer
  grants : GrantLedger
  db : Db

def World.start : World := ⟨.empty, .empty, .empty⟩

/-- `restart` is a new process on the same store: the registry is empty and the grants are any. -/
inductive WorldOp where
  | open (subject : String) (label : MemLabel) (consented : Bool) (freshId : String) (now : Nat)
  | on (handle : String) (op : Op)
  | restart (grants : GrantLedger)

/-- mirrors src/memory_typed.rs:846-862 -/
def Db.openContainer (db : Db) (c : TypedContainer) : Db :=
  if db.containers.has c.id then db
  else { db with containers := db.containers.set c.id ⟨c.subject, c.label.asStr, toI64 c.createdUnix⟩ }

/-- The container of a subject and label, if it is in the registry. -/
def World.opened (w : World) (subject : String) (label : MemLabel) : List String :=
  w.registry.select fun _ c => c.subject = subject && c.label = label

/-- mirrors src/memory_typed.rs:330-384 -/
def World.openContainer (w : World) (subject : String) (label : MemLabel) (consented : Bool)
    (freshId : String) (now : Nat) : World :=
  if blank subject then w
  else if label = .priv && !consented then w
  else if w.opened subject label ≠ [] then w
  else match w.db.load subject label with
    | some c => { w with registry := w.registry.set c.id c }
    | none =>
      let c := TypedContainer.fresh freshId subject label now
      { w with registry := w.registry.set c.id c, db := w.db.openContainer c }

variable (K : Cipher)

def World.step (w : World) : WorldOp → World
  | .open subject label consented freshId now => w.openContainer subject label consented freshId now
  | .on handle op =>
    match w.registry.get handle with
    | none => w
    | some c =>
      let x := Mem.exec K ⟨w.grants, c⟩ op
      ⟨w.registry.set handle x.1.container, x.1.grants, w.db.applyAll c.id x.2⟩
  | .restart grants => { w with registry := .empty, grants := grants }

def World.run (w : World) (ops : List WorldOp) : World := ops.foldl (World.step K) w

end Metalogos.Memory
