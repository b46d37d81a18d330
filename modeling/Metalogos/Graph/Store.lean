import Metalogos.Graph.Snapshot
import Metalogos.Lib.Json

/-!
# Where the memory graph is kept

`get_memory_graph` and `save_memory_graph` of `src/builtins/memory.rs`: the graph is a text under `memory_graph` in the
key-value store, with a mirror in SQLite, and is built once from the list under `mtree_entries` that older versions
left. Both are behind a mutex. The thread's guards are followed by hand: `acquire` has no result where the thread holds
the mutex already.

`get_memory_graph_iff`: the guards of the reader are still alive where the migrated graph is saved, so the function
returns exactly where no migration is due.
-/
namespace Metalogos.Graph

open Metalogos.Lib

variable {F : Type}

inductive Lock where
  | kvStore
  | kvSqlite
  deriving DecidableEq, Repr

/-- The two stores; there may be no connection, and a mutex may be poisoned. -/
structure KvWorld where
  kvStore : Dict String String
  kvSqlite : Option (Dict String String)
  storePoisoned : Bool
  sqlitePoisoned : Bool

/-- The texts of `serde_json`. -/
structure Codec (F : Type) where
  write : GraphSnapshot F → String
  read : String → Option (GraphSnapshot F)
  parseArray : String → Option (List Json)
  asF64 : Json → Option F

/-- `lock()`: whether there is a guard, and the locks that the thread holds then. -/
def acquire (poisoned : Bool) (held : List Lock) (l : Lock) : Option (Bool × List Lock) :=
  if l ∈ held then none
  else if poisoned then some (false, held)
  else some (true, l :: held)

def toJson (c : Codec F) (g : MemoryGraph F) : String := c.write g.toSnapshot

variable [Field F] [LinearOrder F]

def fromJson (c : Codec F) (json : String) : MemoryGraph F := .fromSnapshot ((c.read json).getD ⟨[], []⟩)

def strAt (e : Json) (key fallback : String) : String := ((e.get key).bind Json.asStr).getD fallback

/-- mirrors src/builtins/memory.rs:412-422 -/
def legacyNode (c : Codec F) (e : Json) : MemoryNode F where
  id := strAt e "id" ""
  text := strAt e "text" ""
  level := strAt e "level" "L0"
  score := ((e.get "score").bind c.asF64).getD 0
  createdAt := ((e.get "created_at").bind Json.asI64).getD 0
  source := strAt e "source" "migrated"
  tags := []
  lastAccessed := 0
  accessCount := 0

/-- mirrors src/builtins/memory.rs:410-427 -/
def migrate (c : Codec F) (entries : List Json) : MemoryGraph F :=
  entries.foldl (fun graph e => if (legacyNode c e).id = "" then graph else graph.addNode (legacyNode c e)) .new

omit [Field F] [LinearOrder F] in
/-- mirrors src/builtins/memory.rs:437-449 -/
def saveMemoryGraph (c : Codec F) (w : KvWorld) (held : List Lock) (graph : MemoryGraph F) : Option KvWorld := do
  let json := toJson c graph
  let (store, _) ← acquire w.storePoisoned held .kvStore
  let w := if store then { w with kvStore := w.kvStore.set "memory_graph" json } else w
  let (sqlite, _) ← acquire w.sqlitePoisoned held .kvSqlite
  some (if sqlite then { w with kvSqlite := w.kvSqlite.map fun conn => conn.set "memory_graph" json } else w)

/-- The value of a key, in memory or else in SQLite. -/
def KvWorld.look (w : KvWorld) (key : String) : Option String :=
  if !w.storePoisoned then w.kvStore.get key
  else if !w.sqlitePoisoned then w.kvSqlite.bind fun conn => conn.get key
  else none

/-- `none` where the thread waits for itself.
mirrors src/builtins/memory.rs:368-435 -/
def getMemoryGraph (c : Codec F) (w : KvWorld) : Option (MemoryGraph F × KvWorld) := do
  let (store, held) ← acquire w.storePoisoned [] .kvStore
  let (sqlite, held) ← acquire w.sqlitePoisoned held .kvSqlite
  let value := fun key =>
    if store then w.kvStore.get key
    else if sqlite then w.kvSqlite.bind fun conn => conn.get key
    else none
  match value "memory_graph" with
  | some json => some (fromJson c json, w)
  | none =>
    match (value "mtree_entries").bind c.parseArray with
    | none => some (.new, w)
    | some entries =>
      let graph := migrate c entries
      let w' ← saveMemoryGraph c w held graph
      some (graph, w')

/-! ## The migration -/

/-- The graph is there yet to be built from the older list. -/
def MigrationDue (c : Codec F) (w : KvWorld) (entries : List Json) : Prop :=
  w.look "memory_graph" = none ∧ (w.look "mtree_entries").bind c.parseArray = some entries

/-- What is said of reading the graph: it ends, and a migration that is due hands out the graph of the entries and
leaves it stored. -/
structure Accessible (c : Codec F) (w : KvWorld) : Prop where
  ends : (getMemoryGraph c w).isSome = true
  migrated : ∀ entries, MigrationDue c w entries → ∃ g w', getMemoryGraph c w = some (g, w') ∧ g.links = [] ∧
    (∀ id, g.getNode id = if id = "" then none else (entries.map (legacyNode c)).find? fun n => n.id = id) ∧
    w'.look "memory_graph" = some (toJson c g)

/-- The guards are there until the end, and the writer asks for one of them. -/
theorem getMemoryGraph_eq (c : Codec F) (w : KvWorld) : getMemoryGraph c w = match w.look "memory_graph" with
    | some json => some (fromJson c json, w)
    | none => match (w.look "mtree_entries").bind c.parseArray with
      | none => some (.new, w)
      | some _ => none := by
  obtain ⟨kvStore, kvSqlite, storePoisoned, sqlitePoisoned⟩ := w
  cases storePoisoned <;> cases sqlitePoisoned <;>
    simp [getMemoryGraph, acquire, KvWorld.look, saveMemoryGraph]

/-- The graph can be read exactly where no migration is due. -/
theorem get_memory_graph_iff (c : Codec F) (w : KvWorld) : Accessible c w ↔ ∀ entries, ¬ MigrationDue c w entries := by
  constructor
  · rintro h entries ⟨hgraph, hentries⟩
    have hends := h.ends
    rw [getMemoryGraph_eq, hgraph] at hends
    dsimp only at hends
    rw [hentries] at hends
    cases hends
  · intro hdue
    refine ⟨?_, fun entries hd => absurd hd (hdue entries)⟩
    rw [getMemoryGraph_eq]
    cases hgraph : w.look "memory_graph" with
    | some json => rfl
    | none =>
      cases hentries : (w.look "mtree_entries").bind c.parseArray with
      | none => rfl
      | some entries => exact absurd ⟨hgraph, hentries⟩ (hdue entries)

/-- The list of an older version. -/
def legacyText : String := "[\x7b\"id\":\"mt_1\",\"text\":\"tea\"\x7d]"

/-- A codec that knows one text. -/
def legacyCodec : Codec ℚ where
  write _ := "graph"
  read _ := none
  parseArray text := if text = legacyText then some [.obj [("id", .str "mt_1"), ("text", .str "tea")]] else none
  asF64 _ := none

/-- A store that an older version left. -/
theorem get_memory_graph_waits : ¬ ∀ (c : Codec ℚ) (w : KvWorld), Accessible c w := by
  intro hall
  have hends := (hall legacyCodec ⟨⟨[("mtree_entries", legacyText)]⟩, none, false, false⟩).ends
  rw [getMemoryGraph_eq] at hends
  revert hends
  decide +kernel

end Metalogos.Graph
