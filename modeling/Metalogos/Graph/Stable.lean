import Mathlib.Data.List.Sort
import Metalogos.Lib.Dict

/-!
# A graph with stable indices

`petgraph`'s `StableDiGraph` as the memory graph uses it: nodes and edges have indices that a removal frees and a
later addition takes again, the last one freed first. The edges at a node are walked from the newest on; `node_indices`
and `edge_indices` go up. The crate is a dependency of the source: the operations stand here as it documents them, and
`StableGraph.Ok` is the law by which the memory graph uses them.
-/
namespace Metalogos.Graph

open Metalogos.Lib

structure Edge (E : Type) where
  index : Nat
  source : Nat
  target : Nat
  weight : E
  deriving DecidableEq

/-- The edges stand with the newest first. -/
structure StableGraph (N E : Type) where
  nodes : Dict Nat N
  edges : List (Edge E)
  freeNodes : List Nat
  nodeBound : Nat
  freeEdges : List Nat
  edgeBound : Nat

namespace StableGraph

variable {N E : Type}

def new : StableGraph N E := ⟨.empty, [], [], 0, [], 0⟩

def addNode (g : StableGraph N E) (weight : N) : StableGraph N E × Nat :=
  match g.freeNodes with
  | i :: rest => ({ g with nodes := g.nodes.set i weight, freeNodes := rest }, i)
  | [] => ({ g with nodes := g.nodes.set g.nodeBound weight, nodeBound := g.nodeBound + 1 }, g.nodeBound)

def addEdge (g : StableGraph N E) (source target : Nat) (weight : E) : StableGraph N E :=
  match g.freeEdges with
  | i :: rest => { g with edges := ⟨i, source, target, weight⟩ :: g.edges, freeEdges := rest }
  | [] => { g with edges := ⟨g.edgeBound, source, target, weight⟩ :: g.edges, edgeBound := g.edgeBound + 1 }

def outgoing (g : StableGraph N E) (i : Nat) : List (Edge E) := g.edges.filter fun e => e.source = i

def incoming (g : StableGraph N E) (i : Nat) : List (Edge E) := g.edges.filter fun e => e.target = i

/-- The edges of a node go with it, the outgoing ones first. -/
def removeNode (g : StableGraph N E) (i : Nat) : StableGraph N E :=
  let freed := g.outgoing i ++ (g.incoming i).filter fun e => e.source ≠ i
  { g with
    nodes := g.nodes.erase i
    edges := g.edges.filter fun e => e.source ≠ i ∧ e.target ≠ i
    freeNodes := i :: g.freeNodes
    freeEdges := freed.reverse.map (·.index) ++ g.freeEdges }

def nodeIndices (g : StableGraph N E) : List Nat := g.nodes.keys.insertionSort (· ≤ ·)

def edgeIndices (g : StableGraph N E) : List (Edge E) := g.edges.insertionSort (·.index ≤ ·.index)

/-- `neighbors` and `neighbors_directed(_, Incoming)`, one after the other. -/
def neighbors (g : StableGraph N E) (i : Nat) : List Nat :=
  (g.outgoing i).map (·.target) ++ (g.incoming i).map (·.source)

/-- The indices that stand for no node, and the ends of the edges. -/
structure Ok (g : StableGraph N E) : Prop where
  free : ∀ i, i ∈ g.freeNodes ∨ g.nodeBound ≤ i → g.nodes.get i = none
  nodup : g.freeNodes.Nodup
  distinct : g.nodes.keys.Nodup
  below : ∀ i ∈ g.freeNodes, i < g.nodeBound
  ends : ∀ e ∈ g.edges, g.nodes.has e.source = true ∧ g.nodes.has e.target = true

variable {g : StableGraph N E}

theorem ok_new : (new : StableGraph N E).Ok := by
  refine ⟨fun i _ => rfl, List.nodup_nil, List.nodup_nil, fun i hi => ?_, fun e he => ?_⟩
  · cases hi
  · cases he

theorem has_set {d : Dict Nat N} {i j : Nat} {w : N} (h : d.has j = true) : (d.set i w).has j = true := by
  unfold Dict.has at h ⊢
  rw [Dict.get_set]
  split_ifs
  · rfl
  · exact h

/-- A new node has an index that was free. -/
theorem Ok.addNode_spec (h : g.Ok) (w : N) : ∃ i, (g.addNode w).2 = i ∧ g.nodes.get i = none ∧
    (g.addNode w).1.nodes = g.nodes.set i w ∧ (g.addNode w).1.edges = g.edges ∧ (g.addNode w).1.Ok := by
  unfold addNode
  cases hf : g.freeNodes with
  | nil =>
    have hfree : g.nodes.get g.nodeBound = none := h.free _ (.inr (Nat.le_refl _))
    refine ⟨g.nodeBound, rfl, hfree, rfl, rfl, fun i hi => ?_, ?_, Dict.nodup_keys_set _ _ _ h.distinct, fun i hi => ?_,
      fun e he => ?_⟩
    · dsimp only at hi ⊢
      rcases hi with hi | hi
      · cases hi
      · rw [Dict.get_set, if_neg (by omega)]
        exact h.free i (.inr (by omega))
    · exact List.nodup_nil
    · cases hi
    · obtain ⟨hs, ht⟩ := h.ends e he
      exact ⟨has_set hs, has_set ht⟩
  | cons i rest =>
    have hfree : g.nodes.get i = none := h.free _ (.inl (by rw [hf]; exact List.mem_cons_self))
    have hnodup := h.nodup
    rw [hf, List.nodup_cons] at hnodup
    refine ⟨i, rfl, hfree, rfl, rfl, fun j hj => ?_, hnodup.2, Dict.nodup_keys_set _ _ _ h.distinct, fun j hj => ?_,
      fun e he => ?_⟩
    · dsimp only at hj ⊢
      have hji : j ≠ i := by
        rintro rfl
        rcases hj with hj | hj
        · exact hnodup.1 hj
        · have hlt := h.below j (by rw [hf]; exact List.mem_cons_self)
          omega
      rw [Dict.get_set, if_neg hji]
      refine h.free j (hj.imp_left fun hj => ?_)
      rw [hf]
      exact List.mem_cons_of_mem _ hj
    · exact h.below j (by rw [hf]; exact List.mem_cons_of_mem _ hj)
    · obtain ⟨hs, ht⟩ := h.ends e he
      exact ⟨has_set hs, has_set ht⟩

theorem addEdge_nodes (s t : Nat) (w : E) : (g.addEdge s t w).nodes = g.nodes := by
  unfold addEdge
  split <;> rfl

theorem addEdge_edges (s t : Nat) (w : E) : ∃ i, (g.addEdge s t w).edges = ⟨i, s, t, w⟩ :: g.edges := by
  unfold addEdge
  split <;> exact ⟨_, rfl⟩

theorem Ok.addEdge (h : g.Ok) {s t : Nat} (hs : g.nodes.has s = true) (ht : g.nodes.has t = true) (w : E) :
    (g.addEdge s t w).Ok := by
  have hfields : (g.addEdge s t w).freeNodes = g.freeNodes ∧ (g.addEdge s t w).nodeBound = g.nodeBound := by
    unfold StableGraph.addEdge
    split <;> exact ⟨rfl, rfl⟩
  obtain ⟨i, hedges⟩ := @addEdge_edges N E g s t w
  constructor
  · rw [hfields.1, hfields.2, addEdge_nodes]
    exact h.free
  · rw [hfields.1]
    exact h.nodup
  · rw [addEdge_nodes]
    exact h.distinct
  · rw [hfields.1, hfields.2]
    exact h.below
  · rw [hedges, addEdge_nodes]
    intro e he
    rcases List.mem_cons.1 he with rfl | he
    · exact ⟨hs, ht⟩
    · exact h.ends e he

theorem Ok.removeNode (h : g.Ok) {i : Nat} (hi : g.nodes.has i = true) : (g.removeNode i).Ok := by
  obtain ⟨w, hw⟩ := (Dict.has_eq_true _ _).1 hi
  have hnotfree : i ∉ g.freeNodes := by
    intro hmem
    rw [h.free i (.inl hmem)] at hw
    cases hw
  have hbelow : i < g.nodeBound := by
    by_contra hge
    rw [h.free i (.inr (by omega))] at hw
    cases hw
  refine ⟨fun j hj => ?_, List.nodup_cons.2 ⟨hnotfree, h.nodup⟩, ?_, fun j hj => ?_, fun e he => ?_⟩
  · change (g.nodes.erase i).get j = none
    rw [Dict.get_erase]
    split_ifs with hji
    · rfl
    · rcases hj with hj | hj
      · rcases List.mem_cons.1 hj with rfl | hj
        · exact absurd rfl hji
        · exact h.free j (.inl hj)
      · exact h.free j (.inr hj)
  · exact h.distinct.sublist (List.filter_sublist.map Prod.fst)
  · rcases List.mem_cons.1 hj with rfl | hj
    · exact hbelow
    · exact h.below j hj
  · obtain ⟨he, hne⟩ := List.mem_filter.1 he
    rw [decide_eq_true_eq] at hne
    obtain ⟨hs, ht⟩ := h.ends e he
    change (g.nodes.erase i).has e.source = true ∧ (g.nodes.erase i).has e.target = true
    unfold Dict.has at hs ht ⊢
    rw [Dict.get_erase, Dict.get_erase, if_neg hne.1, if_neg hne.2]
    exact ⟨hs, ht⟩

theorem mem_nodeIndices {i : Nat} : i ∈ g.nodeIndices ↔ ∃ w, g.nodes.get i = some w := by
  unfold nodeIndices
  rw [List.mem_insertionSort, Dict.mem_keys]

theorem Ok.nodup_nodeIndices (h : g.Ok) : g.nodeIndices.Nodup := (List.perm_insertionSort _ _).nodup_iff.2 h.distinct

theorem perm_edgeIndices : g.edgeIndices.Perm g.edges := List.perm_insertionSort _ _

theorem mem_neighbors {i j : Nat} : j ∈ g.neighbors i ↔
    ∃ e ∈ g.edges, (e.source = i ∧ e.target = j) ∨ (e.source = j ∧ e.target = i) := by
  unfold neighbors outgoing incoming
  simp only [List.mem_append, List.mem_map, List.mem_filter, decide_eq_true_eq]
  constructor
  · rintro (⟨e, ⟨he, hs⟩, ht⟩ | ⟨e, ⟨he, ht⟩, hs⟩)
    · exact ⟨e, he, .inl ⟨hs, ht⟩⟩
    · exact ⟨e, he, .inr ⟨hs, ht⟩⟩
  · rintro ⟨e, he, ⟨hs, ht⟩ | ⟨hs, ht⟩⟩
    · exact .inl ⟨e, ⟨he, hs⟩, ht⟩
    · exact .inr ⟨e, ⟨he, ht⟩, hs⟩

end StableGraph

end Metalogos.Graph
