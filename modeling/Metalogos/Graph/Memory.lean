import Mathlib.Algebra.Order.Field.Basic
import Metalogos.Graph.Stable

/-!
# The memory graph

`src/memory_graph.rs`: nodes with an identifier of their own, joined by typed edges with a weight, and an index from
the identifiers to the graph's. Scores and weights are over an ordered field.

What is said of the graph goes through the two views by identifier, `getNode` and `links`; `Ok` is the consistency of
the index, and each operation has one lemma that says what it does to the views.
-/
namespace Metalogos.Graph

open Metalogos.Lib

inductive Relation where
  | derivedFrom
  | contradicts
  | relatedTo
  | supersedes
  | refersTo
  deriving DecidableEq, Repr

def Relation.asStr : Relation → String
  | .derivedFrom => "derived_from"
  | .contradicts => "contradicts"
  | .relatedTo => "related_to"
  | .supersedes => "supersedes"
  | .refersTo => "refers_to"

def Relation.fromStr (s : String) : Option Relation :=
  if s = "derived_from" then some .derivedFrom
  else if s = "contradicts" then some .contradicts
  else if s = "related_to" then some .relatedTo
  else if s = "supersedes" then some .supersedes
  else if s = "refers_to" then some .refersTo
  else none

theorem Relation.fromStr_asStr (r : Relation) : fromStr r.asStr = some r := by
  cases r <;> rfl

/-- mirrors src/memory_graph.rs:47-64 -/
structure MemoryNode (F : Type) where
  id : String
  text : String
  level : String
  score : F
  createdAt : Int
  source : String
  tags : List String
  lastAccessed : Int
  accessCount : Nat
  deriving DecidableEq

structure MemoryEdge (F : Type) where
  relation : Relation
  weight : F
  deriving DecidableEq

structure MemoryGraph (F : Type) where
  graph : StableGraph (MemoryNode F) (MemoryEdge F)
  idIndex : Dict String Nat

/-- An edge by the identifiers of its ends. -/
structure Link (F : Type) where
  source : String
  target : String
  edge : MemoryEdge F
  deriving DecidableEq

namespace MemoryGraph

variable {F : Type}

def new : MemoryGraph F := ⟨.new, .empty⟩

/-- A node with an identifier that is there already changes nothing.
mirrors src/memory_graph.rs:124-132 -/
def addNode (g : MemoryGraph F) (node : MemoryNode F) : MemoryGraph F :=
  match g.idIndex.get node.id with
  | some _ => g
  | none => ⟨(g.graph.addNode node).1, g.idIndex.set node.id (g.graph.addNode node).2⟩

def clamp [Field F] [LinearOrder F] (w : F) : F := max 0 (min w 1)

/-- mirrors src/memory_graph.rs:136-160 -/
def addEdge [Field F] [LinearOrder F] (g : MemoryGraph F) (sourceId targetId : String) (relation : Relation)
    (weight : F) : Except String (MemoryGraph F) :=
  match g.idIndex.get sourceId with
  | none => .error s!"node not found: {sourceId}"
  | some src => match g.idIndex.get targetId with
    | none => .error s!"node not found: {targetId}"
    | some tgt => .ok { g with graph := g.graph.addEdge src tgt ⟨relation, clamp weight⟩ }

/-- `let _ = graph.add_edge(..)`. -/
def tryAddEdge [Field F] [LinearOrder F] (g : MemoryGraph F) (sourceId targetId : String) (relation : Relation)
    (weight : F) : MemoryGraph F :=
  match g.addEdge sourceId targetId relation weight with
  | .ok g' => g'
  | .error _ => g

/-- mirrors src/memory_graph.rs:163-165 -/
def getNode (g : MemoryGraph F) (id : String) : Option (MemoryNode F) := (g.idIndex.get id).bind g.graph.nodes.get

/-- mirrors src/memory_graph.rs:168-170 -/
def nodes (g : MemoryGraph F) : List (MemoryNode F) := g.graph.nodeIndices.filterMap g.graph.nodes.get

/-- mirrors src/memory_graph.rs:262-269 -/
def removeNode (g : MemoryGraph F) (id : String) : MemoryGraph F × Bool :=
  match g.idIndex.get id with
  | some i => (⟨g.graph.removeNode i, g.idIndex.erase id⟩, true)
  | none => (g, false)

/-! ## The views -/

def linkOf (g : MemoryGraph F) (e : Edge (MemoryEdge F)) : Option (Link F) := do
  let src ← g.graph.nodes.get e.source
  let tgt ← g.graph.nodes.get e.target
  some ⟨src.id, tgt.id, e.weight⟩

/-- The edges by identifiers, the newest first. -/
def links (g : MemoryGraph F) : List (Link F) := g.graph.edges.filterMap g.linkOf

/-- The index leads to every node and to nothing else. -/
structure Ok (g : MemoryGraph F) : Prop where
  graph : g.graph.Ok
  index : ∀ id i, g.idIndex.get id = some i ↔ ∃ n, g.graph.nodes.get i = some n ∧ n.id = id

variable {g : MemoryGraph F} {id : String} {n : MemoryNode F}

theorem ok_new : (new : MemoryGraph F).Ok := by
  refine ⟨StableGraph.ok_new, fun id i => ⟨fun h => ?_, fun h => ?_⟩⟩
  · cases h
  · obtain ⟨n, hn, -⟩ := h
    cases hn

theorem Ok.getNode_iff (h : g.Ok) : g.getNode id = some n ↔ ∃ i, g.graph.nodes.get i = some n ∧ n.id = id := by
  unfold getNode
  rw [Option.bind_eq_some_iff]
  constructor
  · rintro ⟨i, hi, hn⟩
    obtain ⟨n', hn', hid⟩ := (h.index id i).1 hi
    rw [hn] at hn'
    cases hn'
    exact ⟨i, hn, hid⟩
  · rintro ⟨i, hn, hid⟩
    exact ⟨i, (h.index id i).2 ⟨n, hn, hid⟩, hn⟩

theorem Ok.getNode_eq_none (h : g.Ok) : g.getNode id = none ↔ g.idIndex.get id = none := by
  constructor
  · intro hnone
    cases hi : g.idIndex.get id with
    | none => rfl
    | some i =>
      obtain ⟨n, hn, -⟩ := (h.index id i).1 hi
      unfold getNode at hnone
      rw [hi] at hnone
      exact absurd (hnone.symm.trans hn) (by simp)
  · intro hi
    unfold getNode
    rw [hi]
    rfl

theorem Ok.id_of_getNode (h : g.Ok) (hn : g.getNode id = some n) : n.id = id := by
  obtain ⟨i, -, hid⟩ := h.getNode_iff.1 hn
  exact hid

theorem Ok.mem_nodes (h : g.Ok) : n ∈ g.nodes ↔ g.getNode n.id = some n := by
  unfold nodes
  rw [List.mem_filterMap, h.getNode_iff]
  constructor
  · rintro ⟨i, -, hn⟩
    exact ⟨i, hn, rfl⟩
  · rintro ⟨i, hn, -⟩
    exact ⟨i, StableGraph.mem_nodeIndices.2 ⟨n, hn⟩, hn⟩

theorem Ok.nodup_nodes (h : g.Ok) : (g.nodes.map (·.id)).Nodup := by
  unfold nodes
  rw [List.Nodup, List.pairwise_map]
  refine List.Pairwise.filterMap _ (fun i j hij a ha b hb hab => hij ?_) h.graph.nodup_nodeIndices
  have hi := (h.index b.id i).2 ⟨a, ha, hab⟩
  have hj := (h.index b.id j).2 ⟨b, hb, rfl⟩
  exact Option.some.inj (hi.symm.trans hj)

/-! ## Adding a node -/

theorem Ok.addNode (h : g.Ok) (n : MemoryNode F) : (g.addNode n).Ok ∧ (g.addNode n).links = g.links ∧
    ∀ id, (g.addNode n).getNode id = if id = n.id ∧ g.getNode id = none then some n else g.getNode id := by
  unfold MemoryGraph.addNode
  cases hid : g.idIndex.get n.id with
  | some i =>
    refine ⟨h, rfl, fun id => ?_⟩
    rw [if_neg]
    rintro ⟨rfl, hnone⟩
    rw [h.getNode_eq_none, hid] at hnone
    cases hnone
  | none =>
    obtain ⟨i, hi, hfree, hnodes, hedges, hok⟩ := h.graph.addNode_spec n
    have hother : ∀ j n', g.graph.nodes.get j = some n' → j ≠ i := by
      rintro j n' hj rfl
      rw [hfree] at hj
      cases hj
    dsimp only
    refine ⟨⟨hok, fun id j => ?_⟩, ?_, fun id => ?_⟩
    · rw [hnodes, hi, Dict.get_set, Dict.get_set]
      by_cases hidn : id = n.id
      · subst hidn
        rw [if_pos rfl]
        by_cases hji : j = i
        · subst hji
          simp
        · rw [if_neg hji]
          refine ⟨fun heq => absurd (Option.some.inj heq).symm hji, fun hex => ?_⟩
          rw [(h.index n.id j).2 hex] at hid
          cases hid
      · rw [if_neg hidn, h.index]
        by_cases hji : j = i
        · subst hji
          rw [if_pos rfl, hfree]
          constructor
          · rintro ⟨n', hn', -⟩
            cases hn'
          · rintro ⟨n', hn', hid'⟩
            cases hn'
            exact absurd hid'.symm hidn
        · rw [if_neg hji]
    · unfold links
      dsimp only
      rw [hedges]
      refine List.filterMap_congr fun e he => ?_
      obtain ⟨hs, ht⟩ := h.graph.ends e he
      obtain ⟨ns, hs⟩ := (Dict.has_eq_true _ _).1 hs
      obtain ⟨nt, ht⟩ := (Dict.has_eq_true _ _).1 ht
      unfold linkOf
      dsimp only
      rw [hnodes, Dict.get_set, Dict.get_set, if_neg (hother _ _ hs), if_neg (hother _ _ ht)]
    · unfold getNode
      dsimp only
      rw [hnodes, hi, Dict.get_set]
      by_cases hidn : id = n.id
      · subst hidn
        rw [if_pos rfl, Option.bind_some, Dict.get_set, if_pos rfl, hid]
        exact (if_pos ⟨rfl, rfl⟩).symm
      · rw [if_neg hidn, if_neg (fun hc => hidn hc.1)]
        cases hj : g.idIndex.get id with
        | none => rfl
        | some j =>
          obtain ⟨n', hn', -⟩ := (h.index id j).1 hj
          rw [Option.bind_some, Option.bind_some, Dict.get_set, if_neg (hother _ _ hn')]

/-! ## Adding an edge -/

theorem Ok.has_of_index (h : g.Ok) {i : Nat} (hi : g.idIndex.get id = some i) : g.graph.nodes.has i = true := by
  obtain ⟨n, hn, -⟩ := (h.index id i).1 hi
  exact (Dict.has_eq_true _ _).2 ⟨n, hn⟩

theorem linkOf_congr {g g' : MemoryGraph F} (h : g'.graph.nodes = g.graph.nodes) : g'.linkOf = g.linkOf := by
  funext e
  unfold linkOf
  rw [h]

section

variable [Field F] [LinearOrder F] {s t : String} {r : Relation} {w : F}

/-- An edge is added where both nodes are there, in front of the others. -/
theorem Ok.tryAddEdge (h : g.Ok) : (g.tryAddEdge s t r w).Ok ∧ (g.tryAddEdge s t r w).getNode = g.getNode ∧
    (g.tryAddEdge s t r w).links =
      if (g.getNode s).isSome ∧ (g.getNode t).isSome then ⟨s, t, r, clamp w⟩ :: g.links else g.links := by
  unfold MemoryGraph.tryAddEdge MemoryGraph.addEdge
  cases hs : g.idIndex.get s with
  | none =>
    refine ⟨h, rfl, ?_⟩
    rw [if_neg]
    rintro ⟨hsome, -⟩
    rw [h.getNode_eq_none.2 hs] at hsome
    cases hsome
  | some i =>
    cases ht : g.idIndex.get t with
    | none =>
      refine ⟨h, rfl, ?_⟩
      rw [if_neg]
      rintro ⟨-, hsome⟩
      rw [h.getNode_eq_none.2 ht] at hsome
      cases hsome
    | some j =>
      obtain ⟨ns, hns, hsid⟩ := (h.index s i).1 hs
      obtain ⟨nt, hnt, htid⟩ := (h.index t j).1 ht
      dsimp only
      have hnodes := StableGraph.addEdge_nodes (g := g.graph) i j (⟨r, clamp w⟩ : MemoryEdge F)
      obtain ⟨k, hedges⟩ := StableGraph.addEdge_edges (g := g.graph) i j (⟨r, clamp w⟩ : MemoryEdge F)
      refine ⟨⟨h.graph.addEdge (h.has_of_index hs) (h.has_of_index ht) _, fun id i => ?_⟩, ?_, ?_⟩
      · dsimp only
        rw [hnodes]
        exact h.index id i
      · funext id
        unfold getNode
        dsimp only
        rw [hnodes]
      · have hnode : g.getNode s = some ns ∧ g.getNode t = some nt := by
          unfold getNode
          rw [hs, ht]
          exact ⟨hns, hnt⟩
        rw [hnode.1, hnode.2, if_pos ⟨rfl, rfl⟩]
        unfold links
        dsimp only
        rw [linkOf_congr (g := g) hnodes, hedges, List.filterMap_cons]
        have hlink : g.linkOf ⟨k, i, j, ⟨r, clamp w⟩⟩ = some ⟨s, t, r, clamp w⟩ := by
          unfold linkOf
          dsimp only
          rw [hns, hnt, ← hsid, ← htid]
          rfl
        rw [hlink]

end

/-! ## Removing a node -/

/-- An edge has two ends. -/
theorem Ok.linkOf_spec (h : g.Ok) {e : Edge (MemoryEdge F)} (he : e ∈ g.graph.edges) : ∃ ns nt,
    g.graph.nodes.get e.source = some ns ∧ g.graph.nodes.get e.target = some nt ∧
      g.linkOf e = some ⟨ns.id, nt.id, e.weight⟩ := by
  obtain ⟨hs, ht⟩ := h.graph.ends e he
  obtain ⟨ns, hs⟩ := (Dict.has_eq_true _ _).1 hs
  obtain ⟨nt, ht⟩ := (Dict.has_eq_true _ _).1 ht
  refine ⟨ns, nt, hs, ht, ?_⟩
  unfold linkOf
  rw [hs, ht]
  rfl

theorem Ok.ends_of_link (h : g.Ok) {l : Link F} (hl : l ∈ g.links) :
    (g.getNode l.source).isSome = true ∧ (g.getNode l.target).isSome = true := by
  obtain ⟨e, he, hlink⟩ := List.mem_filterMap.1 hl
  obtain ⟨ns, nt, hs, ht, heq⟩ := h.linkOf_spec he
  rw [heq] at hlink
  cases hlink
  exact ⟨by rw [h.getNode_iff.2 ⟨_, hs, rfl⟩]; rfl, by rw [h.getNode_iff.2 ⟨_, ht, rfl⟩]; rfl⟩

theorem filterMap_filter_eq {α β : Type} {f f' : α → Option β} {p : α → Bool} {q : β → Bool} {l : List α}
    (h : ∀ a ∈ l, ∃ b, f a = some b ∧ p a = q b ∧ (p a = true → f' a = some b)) :
    (l.filter p).filterMap f' = (l.filterMap f).filter q := by
  induction l with
  | nil => rfl
  | cons a l ih =>
    obtain ⟨b, hb, hpq, hf'⟩ := h a List.mem_cons_self
    have hrest := ih fun x hx => h x (List.mem_cons_of_mem a hx)
    rw [List.filterMap_cons_some hb]
    cases hp : p a with
    | true => rw [List.filter_cons_of_pos hp, List.filter_cons_of_pos (hpq ▸ hp), List.filterMap_cons_some (hf' hp), hrest]
    | false =>
      rw [List.filter_cons_of_neg (by simp [hp]), List.filter_cons_of_neg (by simp [← hpq, hp]), hrest]

theorem Ok.removeNode (h : g.Ok) (id : String) : (g.removeNode id).1.Ok ∧
    (∀ id', (g.removeNode id).1.getNode id' = if id' = id then none else g.getNode id') ∧
    (g.removeNode id).1.links = g.links.filter fun l => l.source ≠ id ∧ l.target ≠ id := by
  unfold MemoryGraph.removeNode
  cases hid : g.idIndex.get id with
  | none =>
    have hnone := h.getNode_eq_none.2 hid
    refine ⟨h, fun id' => ?_, ?_⟩
    · split_ifs with heq
      · rw [heq, hnone]
      · rfl
    · symm
      rw [List.filter_eq_self]
      intro l hl
      obtain ⟨hs, ht⟩ := h.ends_of_link hl
      rw [decide_eq_true_eq]
      constructor
      · rintro rfl
        rw [hnone] at hs
        cases hs
      · rintro rfl
        rw [hnone] at ht
        cases ht
  | some i =>
    obtain ⟨n, hn, hnid⟩ := (h.index id i).1 hid
    have hsame : ∀ j n', g.graph.nodes.get j = some n' → (j = i ↔ n'.id = id) := by
      intro j n' hj
      constructor
      · rintro rfl
        rw [hn] at hj
        cases hj
        exact hnid
      · intro hid'
        have hji := (h.index id j).2 ⟨n', hj, hid'⟩
        rw [hid] at hji
        exact (Option.some.inj hji).symm
    refine ⟨⟨h.graph.removeNode (h.has_of_index hid), fun id' j => ?_⟩, fun id' => ?_, ?_⟩
    · change (g.idIndex.erase id).get id' = some j ↔ ∃ n, (g.graph.nodes.erase i).get j = some n ∧ n.id = id'
      rw [Dict.get_erase, Dict.get_erase]
      constructor
      · intro hj
        split_ifs at hj with heq
        obtain ⟨n', hn', hid'⟩ := (h.index id' j).1 hj
        have hji : j ≠ i := fun hji => heq (hid' ▸ (hsame j n' hn').1 hji)
        exact ⟨n', by rw [if_neg hji]; exact hn', hid'⟩
      · rintro ⟨n', hn', hid'⟩
        split_ifs at hn' with hji
        have hne : id' ≠ id := fun heq => hji ((hsame j n' hn').2 (hid'.trans heq))
        rw [if_neg hne]
        exact (h.index id' j).2 ⟨n', hn', hid'⟩
    · unfold getNode
      change ((g.idIndex.erase id).get id').bind (g.graph.nodes.erase i).get = _
      rw [Dict.get_erase]
      split_ifs with heq
      · rfl
      · cases hj : g.idIndex.get id' with
        | none => rfl
        | some j =>
          obtain ⟨n', hn', hid'⟩ := (h.index id' j).1 hj
          have hji : j ≠ i := fun hji => heq (hid' ▸ (hsame j n' hn').1 hji)
          rw [Option.bind_some, Option.bind_some, Dict.get_erase, if_neg hji]
    · unfold links
      refine filterMap_filter_eq fun e he => ?_
      obtain ⟨ns, nt, hs, ht, hlink⟩ := h.linkOf_spec he
      refine ⟨_, hlink, ?_, fun hp => ?_⟩
      · simp only [ne_eq, hsame _ _ hs, hsame _ _ ht]
      · rw [decide_eq_true_eq] at hp
        unfold linkOf
        change (do
          let src ← (g.graph.nodes.erase i).get e.source
          let tgt ← (g.graph.nodes.erase i).get e.target
          some (⟨src.id, tgt.id, e.weight⟩ : Link F)) = _
        rw [Dict.get_erase, Dict.get_erase, if_neg hp.1, if_neg hp.2, hs, ht]
        rfl

end MemoryGraph

end Metalogos.Graph
