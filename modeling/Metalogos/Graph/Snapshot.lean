import Mathlib.Algebra.Order.Field.Rat
import Metalogos.Graph.Neighbors

/-!
# Snapshots of the memory graph

`subgraph`, `to_json` and `from_json` of `src/memory_graph.rs`. A snapshot holds nodes, and edges by the identifiers of
their ends; the text in between is `serde_json`'s, which may write a number as `null` or read back its neighbour
(`Wire`).

`graph_answers`: for a graph built by the operations, `neighbors` is the distance between 1 and the depth, `subgraph`
keeps the edges with both ends in the set, and both answers come back from the text with the numbers as it has them.
-/
namespace Metalogos.Graph

open Metalogos.Lib

/-- mirrors src/memory_graph.rs:84-90 -/
structure GraphEdgeRecord (F : Type) where
  sourceId : String
  targetId : String
  relation : String
  weight : F
  deriving DecidableEq

structure GraphSnapshot (F : Type) where
  nodes : List (MemoryNode F)
  edges : List (GraphEdgeRecord F)

/-- A number as it comes back from the text; `none` where the text is refused. -/
structure Wire (F : Type) where
  reread : F → Option F

variable {F : Type}

def Link.record (l : Link F) : GraphEdgeRecord F := ⟨l.source, l.target, l.edge.relation.asStr, l.edge.weight⟩

/-- What stays of a node. -/
def Wire.node (w : Wire F) (n : MemoryNode F) : MemoryNode F := { n with score := (w.reread n.score).getD n.score }

def Wire.record (w : Wire F) (r : GraphEdgeRecord F) : GraphEdgeRecord F :=
  { r with weight := (w.reread r.weight).getD r.weight }

/-- The snapshot that is read from the text of one. -/
def Wire.reparse (w : Wire F) (s : GraphSnapshot F) : Option (GraphSnapshot F) :=
  if (s.nodes.all fun n => (w.reread n.score).isSome) && s.edges.all fun r => (w.reread r.weight).isSome then
    some ⟨s.nodes.map w.node, s.edges.map w.record⟩
  else none

namespace MemoryGraph

/-- mirrors src/memory_graph.rs:512-545 -/
def subgraph (g : MemoryGraph F) (ids : List String) : GraphSnapshot F :=
  ⟨g.nodes.filter fun n => n.id ∈ ids,
    g.graph.edgeIndices.filterMap fun e => match g.linkOf e with
      | some l => if l.source ∈ ids ∧ l.target ∈ ids then some l.record else none
      | none => none⟩

/-- mirrors src/memory_graph.rs:548-570 -/
def toSnapshot (g : MemoryGraph F) : GraphSnapshot F :=
  ⟨g.nodes, g.graph.edgeIndices.filterMap fun e => (g.linkOf e).map Link.record⟩

def addRecord [Field F] [LinearOrder F] (g : MemoryGraph F) (r : GraphEdgeRecord F) : MemoryGraph F :=
  match Relation.fromStr r.relation with
  | some relation => g.tryAddEdge r.sourceId r.targetId relation r.weight
  | none => g

/-- mirrors src/memory_graph.rs:573-588 -/
def fromSnapshot [Field F] [LinearOrder F] (s : GraphSnapshot F) : MemoryGraph F :=
  s.edges.foldl addRecord (s.nodes.foldl addNode new)

/-- `from_json(&g.to_json())`. -/
def reload [Field F] [LinearOrder F] (w : Wire F) (g : MemoryGraph F) : MemoryGraph F :=
  fromSnapshot ((w.reparse g.toSnapshot).getD ⟨[], []⟩)

/-- The graphs that the operations build. -/
inductive Built [Field F] [LinearOrder F] : MemoryGraph F → Prop
  | new : Built new
  | addNode {g} (n : MemoryNode F) : Built g → Built (g.addNode n)
  | addEdge {g} (s t : String) (r : Relation) (w : F) : Built g → Built (g.tryAddEdge s t r w)
  | removeNode {g} (id : String) : Built g → Built (g.removeNode id).1

variable {g : MemoryGraph F}

theorem Built.ok [Field F] [LinearOrder F] (h : g.Built) : g.Ok := by
  induction h with
  | new => exact ok_new
  | addNode n _ ih => exact (ih.addNode n).1
  | addEdge s t r w _ ih => exact ih.tryAddEdge.1
  | removeNode id _ ih => exact (ih.removeNode id).1

/-! ## The edges of a snapshot -/

theorem perm_edges (g : MemoryGraph F) {β : Type} (f : Edge (MemoryEdge F) → Option β) :
    (g.graph.edgeIndices.filterMap f).Perm (g.graph.edges.filterMap f) :=
  StableGraph.perm_edgeIndices.filterMap f

theorem subgraph_edges (g : MemoryGraph F) (ids : List String) : (g.subgraph ids).edges.Perm
    ((g.links.filter fun l => l.source ∈ ids ∧ l.target ∈ ids).map Link.record) := by
  refine (perm_edges g _).trans (.of_eq ?_)
  unfold links
  generalize g.graph.edges = edges
  induction edges with
  | nil => rfl
  | cons e edges ih =>
    cases hl : g.linkOf e with
    | none => simpa [hl] using ih
    | some l =>
      by_cases hin : l.source ∈ ids ∧ l.target ∈ ids
      · simpa [hl, hin] using ih
      · rw [List.filterMap_cons_none (by simp [hl, hin]), List.filterMap_cons_some hl,
          List.filter_cons_of_neg (by simpa using hin), ih]

theorem toSnapshot_edges (g : MemoryGraph F) : g.toSnapshot.edges.Perm (g.links.map Link.record) := by
  refine (perm_edges g _).trans (.of_eq ?_)
  unfold links
  rw [List.map_filterMap]

theorem Ok.subgraph_nodes (h : g.Ok) {ids : List String} {n : MemoryNode F} :
    n ∈ (g.subgraph ids).nodes ↔ g.getNode n.id = some n ∧ n.id ∈ ids := by
  unfold subgraph
  rw [List.mem_filter, h.mem_nodes, decide_eq_true_eq]

/-! ## Reading a snapshot -/

/-- Of the nodes with one identifier the first one is taken. -/
theorem Ok.foldl_addNode (ns : List (MemoryNode F)) : ∀ {g : MemoryGraph F}, g.Ok → (ns.foldl MemoryGraph.addNode g).Ok ∧
    (ns.foldl MemoryGraph.addNode g).links = g.links ∧
    ∀ id, (ns.foldl MemoryGraph.addNode g).getNode id = (g.getNode id).or (ns.find? fun n => n.id = id) := by
  induction ns with
  | nil =>
    intro g h
    exact ⟨h, rfl, fun id => by simp⟩
  | cons n ns ih =>
    intro g h
    obtain ⟨hok, hlinks, hnode⟩ := h.addNode n
    obtain ⟨hok', hlinks', hnode'⟩ := ih hok
    refine ⟨hok', hlinks'.trans hlinks, fun id => ?_⟩
    rw [List.foldl_cons, hnode', hnode, List.find?_cons]
    by_cases hid : n.id = id
    · subst hid
      cases hg : g.getNode n.id with
      | none => simp
      | some m => simp
    · have hid' : ¬(id = n.id ∧ g.getNode id = none) := fun hc => hid hc.1.symm
      rw [if_neg hid']
      simp [hid]

section

variable [Field F] [LinearOrder F]

/-- The edge that a record asks for. -/
def linkOfRecord (r : GraphEdgeRecord F) : Option (Link F) :=
  (Relation.fromStr r.relation).map fun relation => ⟨r.sourceId, r.targetId, relation, clamp r.weight⟩

theorem Ok.foldl_addRecord (rs : List (GraphEdgeRecord F)) : ∀ {g : MemoryGraph F}, g.Ok →
    (∀ r ∈ rs, (g.getNode r.sourceId).isSome ∧ (g.getNode r.targetId).isSome) →
    (rs.foldl addRecord g).Ok ∧ (rs.foldl addRecord g).getNode = g.getNode ∧
      (rs.foldl addRecord g).links = (rs.filterMap linkOfRecord).reverse ++ g.links := by
  induction rs with
  | nil =>
    intro g h _
    exact ⟨h, rfl, rfl⟩
  | cons r rs ih =>
    intro g h hends
    have hhead := hends r List.mem_cons_self
    rw [List.foldl_cons]
    cases hrel : Relation.fromStr r.relation with
    | none =>
      have hlink : linkOfRecord r = none := by
        unfold linkOfRecord
        rw [hrel]
        rfl
      have hadd : addRecord g r = g := by
        unfold addRecord
        rw [hrel]
      rw [hadd, List.filterMap_cons_none hlink]
      exact ih h fun r' hr' => hends r' (List.mem_cons_of_mem _ hr')
    | some relation =>
      have hlink : linkOfRecord r = some ⟨r.sourceId, r.targetId, relation, clamp r.weight⟩ := by
        unfold linkOfRecord
        rw [hrel]
        rfl
      have hadd : addRecord g r = g.tryAddEdge r.sourceId r.targetId relation r.weight := by
        unfold addRecord
        rw [hrel]
      obtain ⟨hok, hnode, hlinks⟩ := h.tryAddEdge (s := r.sourceId) (t := r.targetId) (r := relation) (w := r.weight)
      rw [if_pos hhead] at hlinks
      rw [hadd, List.filterMap_cons_some hlink]
      obtain ⟨hok', hnode', hlinks'⟩ := ih hok fun r' hr' => by
        rw [hnode]
        exact hends r' (List.mem_cons_of_mem _ hr')
      refine ⟨hok', hnode'.trans hnode, ?_⟩
      rw [hlinks', hlinks]
      simp

end

/-! ## The graph that is read back -/

theorem Ok.find_nodes (h : g.Ok) (id : String) : (g.nodes.find? fun n => n.id = id) = g.getNode id := by
  cases hn : g.getNode id with
  | none =>
    rw [List.find?_eq_none]
    intro n hmem hid
    rw [decide_eq_true_eq] at hid
    rw [h.mem_nodes, hid, hn] at hmem
    cases hmem
  | some n =>
    have hid := h.id_of_getNode hn
    have hmem : n ∈ g.nodes := h.mem_nodes.2 (by rw [hid]; exact hn)
    cases hf : g.nodes.find? fun n => n.id = id with
    | none =>
      rw [List.find?_eq_none] at hf
      exact absurd (decide_eq_true hid) (hf n hmem)
    | some m =>
      have hm := List.mem_of_find?_eq_some hf
      have hmid := List.find?_some hf
      rw [decide_eq_true_eq] at hmid
      rw [h.mem_nodes, hmid, hn] at hm
      exact hm.symm

/-- What stays of an edge. -/
def rereadLink [Field F] [LinearOrder F] (w : Wire F) (l : Link F) : Link F :=
  { l with edge := ⟨l.edge.relation, clamp ((w.reread l.edge.weight).getD l.edge.weight)⟩ }

/-- Every number comes back as some number. -/
def Readable (w : Wire F) (g : MemoryGraph F) : Prop :=
  (∀ id n, g.getNode id = some n → (w.reread n.score).isSome = true) ∧
    ∀ l ∈ g.links, (w.reread l.edge.weight).isSome = true

variable {w : Wire F}

theorem find_map_node (ns : List (MemoryNode F)) (id : String) :
    ((ns.map w.node).find? fun n => n.id = id) = (ns.find? fun n => n.id = id).map w.node := by
  rw [List.find?_map]
  rfl

theorem Ok.reload_spec [Field F] [LinearOrder F] (h : g.Ok) (hread : g.Readable w) : (g.reload w).Ok ∧
    (∀ id, (g.reload w).getNode id = (g.getNode id).map w.node) ∧
    (g.reload w).links.Perm (g.links.map (rereadLink w)) := by
  have hnodes : ∀ n ∈ g.nodes, (w.reread n.score).isSome = true := fun n hn => hread.1 n.id n (h.mem_nodes.1 hn)
  have hedges : ∀ r ∈ g.toSnapshot.edges, ∃ l ∈ g.links, l.record = r := fun r hr =>
    List.mem_map.1 ((toSnapshot_edges g).mem_iff.1 hr)
  have hreparse : w.reparse g.toSnapshot = some ⟨g.nodes.map w.node, g.toSnapshot.edges.map w.record⟩ := by
    unfold Wire.reparse
    refine if_pos ?_
    rw [Bool.and_eq_true, List.all_eq_true, List.all_eq_true]
    refine ⟨hnodes, fun r hr => ?_⟩
    obtain ⟨l, hl, rfl⟩ := hedges r hr
    exact hread.2 l hl
  unfold reload fromSnapshot
  rw [hreparse]
  dsimp only [Option.getD_some]
  obtain ⟨hok, hlinks, hnode⟩ := ok_new.foldl_addNode (g.nodes.map w.node)
  have hnode' : ∀ id, ((g.nodes.map w.node).foldl MemoryGraph.addNode new).getNode id = (g.getNode id).map w.node := by
    intro id
    rw [hnode, find_map_node, h.find_nodes]
    rfl
  obtain ⟨hok', hgetNode, hlinks'⟩ := hok.foldl_addRecord (g.toSnapshot.edges.map w.record) (by
    intro r hr
    obtain ⟨r', hr', rfl⟩ := List.mem_map.1 hr
    obtain ⟨l, hl, rfl⟩ := hedges r' hr'
    rw [hnode', hnode', Option.isSome_map, Option.isSome_map]
    exact h.ends_of_link hl)
  refine ⟨hok', fun id => by rw [hgetNode, hnode'], ?_⟩
  rw [hlinks', hlinks]
  have hempty : (new : MemoryGraph F).links = [] := rfl
  rw [hempty, List.append_nil]
  refine (List.reverse_perm _).trans ?_
  have hperm := ((toSnapshot_edges g).map w.record).filterMap linkOfRecord
  refine hperm.trans (.of_eq ?_)
  rw [List.map_map, List.filterMap_map]
  have hlink : (linkOfRecord ∘ (w.record ∘ Link.record) : Link F → Option (Link F)) = some ∘ rereadLink w := by
    funext l
    simp [linkOfRecord, Wire.record, Link.record, Relation.fromStr_asStr, rereadLink]
  rw [hlink, List.filterMap_eq_map]

theorem Ok.reload_joined [Field F] [LinearOrder F] (h : g.Ok) (hread : g.Readable w) :
    (g.reload w).Joined = g.Joined := by
  obtain ⟨-, -, hlinks⟩ := h.reload_spec hread
  funext a b
  refine propext ⟨?_, ?_⟩
  · rintro ⟨l, hl, hends⟩
    obtain ⟨l', hl', rfl⟩ := List.mem_map.1 (hlinks.mem_iff.1 hl)
    exact ⟨l', hl', hends⟩
  · rintro ⟨l, hl, hends⟩
    exact ⟨rereadLink w l, hlinks.mem_iff.2 (List.mem_map_of_mem hl), hends⟩

/-- The neighbours are the same with the numbers as the text has them. -/
theorem Ok.reload_neighbors [Field F] [LinearOrder F] (h : g.Ok) (hread : g.Readable w) {id : String} {depth k : Nat}
    {n : MemoryNode F} : (n, k) ∈ (g.reload w).neighbors id depth ↔
      ∃ n', (n', k) ∈ g.neighbors id depth ∧ n = w.node n' := by
  obtain ⟨hok, hnode, -⟩ := h.reload_spec hread
  rw [hok.mem_neighbors_iff, h.reload_joined hread, hnode]
  constructor
  · rintro ⟨hk, hkd, hn, hdist⟩
    obtain ⟨n', hn', rfl⟩ := Option.map_eq_some_iff.1 hn
    have hid : n'.id = (w.node n').id := rfl
    refine ⟨n', h.mem_neighbors_iff.2 ⟨hk, hkd, hn', ?_⟩, rfl⟩
    rw [hid]
    exact hdist
  · rintro ⟨n', hmem, rfl⟩
    obtain ⟨hk, hkd, hn', hdist⟩ := h.mem_neighbors_iff.1 hmem
    refine ⟨hk, hkd, ?_, hdist⟩
    have hid : (w.node n').id = n'.id := rfl
    rw [hid, hn']
    rfl

theorem Ok.reload_subgraph [Field F] [LinearOrder F] (h : g.Ok) (hread : g.Readable w) (ids : List String) :
    ((g.reload w).subgraph ids).edges.Perm
      (((g.links.filter fun l => l.source ∈ ids ∧ l.target ∈ ids).map (rereadLink w)).map Link.record) := by
  obtain ⟨-, -, hlinks⟩ := h.reload_spec hread
  refine (subgraph_edges _ ids).trans (((hlinks.filter _).trans (.of_eq ?_)).map _)
  rw [List.filter_map]
  rfl

end MemoryGraph

/-- What the graph answers, before and after it went through the text. -/
theorem graph_answers [Field F] [LinearOrder F] {g : MemoryGraph F} (h : g.Built) :
    (∀ id depth, (∀ n k, (n, k) ∈ g.neighbors id depth ↔
        1 ≤ k ∧ k ≤ depth ∧ g.getNode n.id = some n ∧ Distance g.Joined id k n.id) ∧
      ((g.neighbors id depth).map fun p => p.1.id).Nodup) ∧
    (∀ ids, (∀ n, n ∈ (g.subgraph ids).nodes ↔ g.getNode n.id = some n ∧ n.id ∈ ids) ∧
      (g.subgraph ids).edges.Perm ((g.links.filter fun l => l.source ∈ ids ∧ l.target ∈ ids).map Link.record)) ∧
    ∀ w : Wire F, g.Readable w →
      (∀ id depth, (∀ n k, (n, k) ∈ (g.reload w).neighbors id depth ↔
          ∃ n', (n', k) ∈ g.neighbors id depth ∧ n = w.node n') ∧
        (((g.reload w).neighbors id depth).map fun p => p.1.id).Nodup) ∧
      ∀ ids, ((g.reload w).subgraph ids).edges.Perm
        (((g.links.filter fun l => l.source ∈ ids ∧ l.target ∈ ids).map (MemoryGraph.rereadLink w)).map Link.record) := by
  have hok := h.ok
  refine ⟨fun id depth => ⟨fun n k => hok.mem_neighbors_iff, hok.nodup_neighbors⟩,
    fun ids => ⟨fun n => hok.subgraph_nodes, MemoryGraph.subgraph_edges g ids⟩, fun w hread => ?_⟩
  refine ⟨fun id depth => ⟨fun n k => hok.reload_neighbors hread, ?_⟩, fun ids => hok.reload_subgraph hread ids⟩
  exact (hok.reload_spec hread).1.nodup_neighbors

def leaf (id : String) : MemoryNode ℚ := ⟨id, "", "L0", 1 / 2, 0, "user", [], 0, 0⟩

def pairGraph : MemoryGraph ℚ :=
  ((MemoryGraph.new.addNode (leaf "a")).addNode (leaf "b")).tryAddEdge "a" "b" .relatedTo (1 / 2)

/-- Four nodes in a ring; the index of `b` is that of a node removed before. -/
def ring : MemoryGraph ℚ :=
  (((((((((MemoryGraph.new.addNode (leaf "a")).addNode (leaf "x")).removeNode "x").1.addNode (leaf "b")).addNode
    (leaf "c")).addNode (leaf "d")).tryAddEdge "a" "b" .relatedTo (1 / 2)).tryAddEdge "b" "c" .refersTo (1 / 4)).tryAddEdge
    "c" "d" .relatedTo (1 / 2)).tryAddEdge "d" "a" .supersedes (1 / 4)

theorem ring_built : ring.Built :=
  .addEdge _ _ _ _ <| .addEdge _ _ _ _ <| .addEdge _ _ _ _ <| .addEdge _ _ _ _ <|
    .addNode _ <| .addNode _ <| .addNode _ <| .removeNode _ <| .addNode _ <| .addNode _ .new

theorem ring_links : ring.links = [⟨"d", "a", .supersedes, 1 / 4⟩, ⟨"c", "d", .relatedTo, 1 / 2⟩,
    ⟨"b", "c", .refersTo, 1 / 4⟩, ⟨"a", "b", .relatedTo, 1 / 2⟩] := by decide +kernel

/-- The scores and weights of the ring come back as they were. -/
def exactWire : Wire ℚ := ⟨some⟩

theorem ring_distance : Distance ring.Joined "a" 2 "c" := by
  have hnear (x : String) : ring.Joined "a" x → x = "b" ∨ x = "d" := by
    rintro ⟨l, hl, hends⟩
    rw [ring_links] at hl
    simp only [List.mem_cons, List.not_mem_nil, or_false] at hl
    rcases hl with rfl | rfl | rfl | rfl <;> simp_all [eq_comm]
  refine ⟨?_, fun m hm hwithin => ?_⟩
  · have hab : ring.Joined "a" "b" := ⟨⟨"a", "b", .relatedTo, 1 / 2⟩, by simp [ring_links], .inl ⟨rfl, rfl⟩⟩
    have hbc : ring.Joined "b" "c" := ⟨⟨"b", "c", .refersTo, 1 / 4⟩, by simp [ring_links], .inl ⟨rfl, rfl⟩⟩
    exact .inr ⟨"b", .inr ⟨"a", rfl, hab⟩, hbc⟩
  · have hone : Within ring.Joined "a" 1 "c" := hwithin.mono (by omega)
    rcases hone with hself | ⟨u, rfl, hac⟩
    · exact absurd (show "c" = "a" from hself) (by decide)
    · exact absurd (hnear "c" hac) (by decide)

/-- The node across the ring is found at distance two, and found again in the graph that went through the text. -/
theorem graph_answers_ring : (leaf "c", 2) ∈ ring.neighbors "a" 2 ∧
    (ring.subgraph ["a", "b"]).edges.Perm [⟨"a", "b", "related_to", 1 / 2⟩] ∧ ring.Readable exactWire ∧
    (leaf "c", 2) ∈ (ring.reload exactWire).neighbors "a" 2 ∧
    ((ring.reload exactWire).subgraph ["a", "b"]).edges.Perm [⟨"a", "b", "related_to", 1 / 2⟩] := by
  obtain ⟨hnear, hsub, hreload⟩ := graph_answers ring_built
  have hread : ring.Readable exactWire := ⟨fun _ _ _ => rfl, fun _ _ => rfl⟩
  obtain ⟨hfar, hedges⟩ := hreload exactWire hread
  have hc : (leaf "c", 2) ∈ ring.neighbors "a" 2 :=
    ((hnear "a" 2).1 (leaf "c") 2).2 ⟨by decide, Nat.le_refl 2, by decide +kernel, ring_distance⟩
  refine ⟨hc, (hsub ["a", "b"]).2.trans (.of_eq ?_), hread, ((hfar "a" 2).1 (leaf "c") 2).2 ⟨leaf "c", hc, rfl⟩,
    (hedges ["a", "b"]).trans (.of_eq ?_)⟩
  · rw [ring_links]
    decide +kernel
  · rw [ring_links]
    decide +kernel

end Metalogos.Graph
