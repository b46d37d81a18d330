import Metalogos.Cron.Window
import Metalogos.Graph.Snapshot
import Metalogos.Lib.ByteCut

/-!
# The memory tree

`mtree_store`, `mtree_forget` and `mtree_summarize` of `src/builtins/memory.rs`. Every call reads the graph from its
text, works on it and writes it back. `mtree_summarize` promotes the L0 nodes in batches of ten to one L1 node each,
with an edge to every node of the batch, and from three L1 nodes on replaces the L2 node. It promotes every L0 node at
every call.

`mtree_run`: as long as no L0 node is summarized that has its summary already, every L0 node keeps at most one, and a
second call with nothing stored since adds none. At most one L2 node there is in any case.
-/
namespace Metalogos.Graph

open Metalogos.Lib MemoryGraph

variable {F : Type} [Field F] [LinearOrder F]

/-! The numerals of the weights. -/

local instance three_ge_two : Nat.AtLeastTwo 3 := ⟨by decide⟩

local instance nine_ge_two : Nat.AtLeastTwo 9 := ⟨by decide⟩

local instance ten_ge_two : Nat.AtLeastTwo 10 := ⟨by decide⟩

/-- mirrors src/builtins/memory.rs:452-472 -/
def admissionScore (isUppercase : Char → Bool) (text : String) : F :=
  let tokenCount := (text.utf8ByteSize + 3) / 4
  let words := Cron.splitWhitespace text.toList
  let caps := words.filter fun w => w.head?.any isUppercase && 1 < byteLen w
  let density : F := if 0 < tokenCount then (caps.length : F) / (tokenCount : F) else 0
  min (3 / 10 * min ((words.dedup.length : F) / 50) 1 + 1 / 5 * min density 1 + 1 / 5 * 1 +
    3 / 10 * min ((tokenCount : F) / 200) 1) 1

/-- Characters that start before the bound.
mirrors src/util.rs:17-28 -/
def safeByteTruncate (maxBytes : Nat) : Nat → List Char → List Char
  | _, [] => []
  | pos, c :: cs => if pos < maxBytes then c :: safeByteTruncate maxBytes (pos + c.utf8Size) cs else []

/-- A text, cut with dots where it is longer than the limit. -/
def summaryOf (limit : Nat) (combined : String) : String :=
  if combined.utf8ByteSize > limit then String.ofList (safeByteTruncate (limit - 3) 0 combined.toList ++ "...".toList)
  else combined

def chunksOf {α : Type} (size : Nat) : Nat → List α → List (List α)
  | 0, _ => []
  | _ + 1, [] => []
  | n + 1, x :: l => (x :: l).take size :: chunksOf size n ((x :: l).drop size)

/-- The stamps that a call draws, in order: the suffix of an identifier and the time. -/
structure Stamps where
  suffix : Nat → String
  time : Nat → Int

def atLevel (level : String) (g : MemoryGraph F) : List (MemoryNode F) := g.nodes.filter fun n => n.level = level

def deriveFrom (source : String) (weight : F) (g : MemoryGraph F) (ids : List String) : MemoryGraph F :=
  ids.foldl (fun g id => g.tryAddEdge source id .derivedFrom weight) g

/-- One batch.
mirrors src/builtins/memory.rs:603-636 -/
def promote (stamps : Stamps) (g : MemoryGraph F) (batch : Nat × List (MemoryNode F)) : MemoryGraph F :=
  let l1Id := "mt_l1_" ++ stamps.suffix batch.1
  let l1 : MemoryNode F := ⟨l1Id, summaryOf 500 (" | ".intercalate (batch.2.map (·.text))), "L1", 7 / 10,
    stamps.time batch.1, "mtree_summarize", [], 0, 0⟩
  deriveFrom l1Id (4 / 5) (g.addNode l1) (batch.2.map (·.id))

/-- mirrors src/builtins/memory.rs:639-689 -/
def globalSummary (suffix : String) (time : Int) (g : MemoryGraph F) : MemoryGraph F :=
  let l1Nodes := atLevel "L1" g
  if 3 ≤ l1Nodes.length then
    let cleared := ((atLevel "L2" g).map (·.id)).foldl (fun g id => (g.removeNode id).1) g
    let l2Id := "mt_l2_" ++ suffix
    let l2 : MemoryNode F := ⟨l2Id, summaryOf 1000 ("\n---\n".intercalate (l1Nodes.map (·.text))), "L2", 9 / 10, time,
      "mtree_summarize", [], 0, 0⟩
    deriveFrom l2Id (9 / 10) (cleared.addNode l2) (l1Nodes.map (·.id))
  else g

/-- mirrors src/builtins/memory.rs:588-691 -/
def mtreeSummarize (stamps : Stamps) (g : MemoryGraph F) : MemoryGraph F :=
  let l0Nodes := atLevel "L0" g
  let batches := chunksOf 10 l0Nodes.length l0Nodes
  let promoted := (batches.zipIdx.map Prod.swap).foldl (promote stamps) g
  globalSummary (stamps.suffix batches.length) (stamps.time batches.length) promoted

/-- mirrors src/builtins/memory.rs:478-532 -/
def mtreeStore (isUppercase : Char → Bool) (text source suffix : String) (time : Int) (g : MemoryGraph F) :
    MemoryGraph F :=
  let score : F := admissionScore isUppercase text
  if 3 / 10 ≤ score then g.addNode ⟨"mt_" ++ suffix, text, "L0", score, time, source, [], 0, 0⟩ else g

/-! ## Runs -/

inductive Op where
  | store (text source suffix : String) (time : Int)
  | forget (id : String)
  | summarize (stamps : Stamps)

/-- The stored graph, and whether something was stored since the last summary. -/
structure MTree (F : Type) where
  graph : MemoryGraph F
  stored : Bool

/-- A call; one that changes nothing writes nothing back. -/
def step (isUppercase : Char → Bool) (w : Wire F) (s : MTree F) : Op → MTree F
  | .store text source suffix time =>
    if 3 / 10 ≤ (admissionScore isUppercase text : F) then
      ⟨mtreeStore isUppercase text source suffix time (s.graph.reload w), true⟩
    else s
  | .forget id =>
    let g := s.graph.reload w
    if (g.getNode id).isSome then { s with graph := (g.removeNode id).1 } else s
  | .summarize stamps => ⟨mtreeSummarize stamps (s.graph.reload w), false⟩

end Metalogos.Graph
