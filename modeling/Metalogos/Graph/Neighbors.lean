import Metalogos.Graph.Memory
import Metalogos.Lib.Layers

/-!
# Neighbours

`neighbors` of `src/memory_graph.rs` is a breadth-first search over the indices, along the edges in both directions.
`mem_neighbors_iff`: it lists the nodes at a distance between 1 and the depth, with that distance, where the distance
is counted over the identifiers.
-/
namespace Metalogos.Graph

open Metalogos.Lib

namespace MemoryGraph

variable {F : Type}

/-- Every round of the loop takes a node that was not taken before, so there are as many rounds as nodes.
mirrors src/memory_graph.rs:185-220 -/
def neighbors (g : MemoryGraph F) (id : String) (depth : Nat) : List (MemoryNode F × Nat) :=
  match g.idIndex.get id with
  | none => []
  | some start => (layers g.graph.neighbors depth g.graph.nodes.keys.length start).filterMap fun p =>
      if 0 < p.2 ∧ p.2 ≤ depth then (g.graph.nodes.get p.1).map fun node => (node, p.2) else none

/-- Two nodes are joined, in one direction or the other. -/
def Joined (g : MemoryGraph F) (a b : String) : Prop :=
  ∃ l ∈ g.links, (l.source = a ∧ l.target = b) ∨ (l.source = b ∧ l.target = a)

variable {g : MemoryGraph F} {id : String} {n : MemoryNode F} {i k depth : Nat}

theorem Ok.joined_iff (h : g.Ok) {i j : Nat} {ni nj : MemoryNode F} (hi : g.graph.nodes.get i = some ni)
    (hj : g.graph.nodes.get j = some nj) : g.Joined ni.id nj.id ↔ j ∈ g.graph.neighbors i := by
  have hsame : ∀ k nk, g.graph.nodes.get k = some nk → ∀ m nm, g.graph.nodes.get m = some nm →
      nk.id = nm.id → k = m := by
    intro k nk hk m nm hm hid
    have hk' := (h.index nk.id k).2 ⟨nk, hk, rfl⟩
    have hm' := (h.index nk.id m).2 ⟨nm, hm, hid.symm⟩
    exact Option.some.inj (hk'.symm.trans hm')
  rw [StableGraph.mem_neighbors]
  constructor
  · rintro ⟨l, hl, hends⟩
    obtain ⟨e, he, hlink⟩ := List.mem_filterMap.1 hl
    obtain ⟨ns, nt, hs, ht, heq⟩ := h.linkOf_spec he
    rw [heq] at hlink
    cases hlink
    refine ⟨e, he, hends.imp (fun hst => ?_) fun hst => ?_⟩
    · exact ⟨hsame _ _ hs _ _ hi hst.1, hsame _ _ ht _ _ hj hst.2⟩
    · exact ⟨hsame _ _ hs _ _ hj hst.1, hsame _ _ ht _ _ hi hst.2⟩
  · rintro ⟨e, he, hends⟩
    obtain ⟨ns, nt, hs, ht, heq⟩ := h.linkOf_spec he
    refine ⟨_, List.mem_filterMap.2 ⟨e, he, heq⟩, ?_⟩
    rcases hends with ⟨rfl, rfl⟩ | ⟨rfl, rfl⟩
    · rw [hs] at hi
      rw [ht] at hj
      cases hi
      cases hj
      exact .inl ⟨rfl, rfl⟩
    · rw [hs] at hj
      rw [ht] at hi
      cases hi
      cases hj
      exact .inr ⟨rfl, rfl⟩

theorem Ok.node_of_joined (h : g.Ok) {a b : String} (hj : g.Joined a b) : (g.getNode a).isSome ∧ (g.getNode b).isSome := by
  obtain ⟨l, hl, ⟨rfl, rfl⟩ | ⟨rfl, rfl⟩⟩ := hj
  · exact h.ends_of_link hl
  · exact (h.ends_of_link hl).symm

/-- The search over the indices is one over the identifiers. -/
theorem Ok.within_index (h : g.Ok) (hn : g.graph.nodes.get i = some n) (k : Nat) : ∀ {j : Nat},
    Within (Links g.graph.neighbors) i k j →
      ∃ nj, g.graph.nodes.get j = some nj ∧ Within g.Joined n.id k nj.id := by
  induction k with
  | zero =>
    intro j hj
    obtain rfl : j = i := hj
    exact ⟨n, hn, rfl⟩
  | succ k ih =>
    intro j hj
    rcases hj with hj | ⟨u, hu, hadj⟩
    · obtain ⟨nj, hnj, hw⟩ := ih hj
      exact ⟨nj, hnj, .inl hw⟩
    · obtain ⟨nu, hnu, hw⟩ := ih hu
      obtain ⟨e, he, hends⟩ := StableGraph.mem_neighbors.1 hadj
      obtain ⟨ns, nt, hs, ht, -⟩ := h.linkOf_spec he
      have hj : ∃ nj, g.graph.nodes.get j = some nj := by
        rcases hends with ⟨-, rfl⟩ | ⟨rfl, -⟩
        · exact ⟨nt, ht⟩
        · exact ⟨ns, hs⟩
      obtain ⟨nj, hnj⟩ := hj
      exact ⟨nj, hnj, .inr ⟨nu.id, hw, (h.joined_iff hnu hnj).2 hadj⟩⟩

theorem Ok.within_id (h : g.Ok) (hn : g.graph.nodes.get i = some n) (k : Nat) : ∀ {v : String},
    Within g.Joined n.id k v →
      ∃ j nj, g.graph.nodes.get j = some nj ∧ nj.id = v ∧ Within (Links g.graph.neighbors) i k j := by
  induction k with
  | zero =>
    intro v hv
    obtain rfl : v = n.id := hv
    exact ⟨i, n, hn, rfl, rfl⟩
  | succ k ih =>
    intro v hv
    rcases hv with hv | ⟨u, hu, hadj⟩
    · obtain ⟨j, nj, hnj, hid, hw⟩ := ih hv
      exact ⟨j, nj, hnj, hid, .inl hw⟩
    · obtain ⟨ju, nu, hnu, rfl, hw⟩ := ih hu
      obtain ⟨nv, hnv⟩ := Option.isSome_iff_exists.1 (h.node_of_joined hadj).2
      obtain ⟨j, hj, rfl⟩ := h.getNode_iff.1 hnv
      exact ⟨j, nv, hj, rfl, .inr ⟨ju, hw, (h.joined_iff hnu hj).1 hadj⟩⟩

theorem Ok.within_iff (h : g.Ok) (hn : g.graph.nodes.get i = some n) {j : Nat} {nj : MemoryNode F}
    (hj : g.graph.nodes.get j = some nj) (k : Nat) :
    Within (Links g.graph.neighbors) i k j ↔ Within g.Joined n.id k nj.id := by
  constructor
  · intro hw
    obtain ⟨nj', hj', hw'⟩ := h.within_index hn k hw
    rw [hj] at hj'
    cases hj'
    exact hw'
  · intro hw
    obtain ⟨j', nj', hj', hid, hw'⟩ := h.within_id hn k hw
    have hjj : j' = j := by
      have h1 := (h.index nj.id j').2 ⟨nj', hj', hid⟩
      have h2 := (h.index nj.id j).2 ⟨nj, hj, rfl⟩
      exact Option.some.inj (h1.symm.trans h2)
    rw [← hjj]
    exact hw'

theorem Ok.distance_iff (h : g.Ok) (hn : g.graph.nodes.get i = some n) {j : Nat} {nj : MemoryNode F}
    (hj : g.graph.nodes.get j = some nj) (k : Nat) :
    Distance (Links g.graph.neighbors) i k j ↔ Distance g.Joined n.id k nj.id := by
  unfold Distance
  rw [h.within_iff hn hj k]
  refine and_congr_right fun _ => forall₂_congr fun m _ => ?_
  rw [h.within_iff hn hj m]

/-- Nothing is near what is no node. -/
theorem Ok.within_of_none (h : g.Ok) (hid : g.getNode id = none) (k : Nat) {v : String} (hv : Within g.Joined id k v) :
    v = id := by
  induction k generalizing v with
  | zero => exact hv
  | succ k ih =>
    rcases hv with hv | ⟨u, hu, hadj⟩
    · exact ih hv
    · obtain rfl := ih hu
      have hsome := (h.node_of_joined hadj).1
      rw [hid] at hsome
      cases hsome

theorem Ok.layers_nodes (h : g.Ok) (hn : g.graph.nodes.get i = some n) :
    ∀ k j, Within (Links g.graph.neighbors) i k j → j ∈ g.graph.nodes.keys := by
  intro k j hw
  obtain ⟨nj, hj, -⟩ := h.within_index hn k hw
  exact (Dict.mem_keys _ _).2 ⟨nj, hj⟩

theorem Ok.mem_neighbors_iff (h : g.Ok) :
    (n, k) ∈ g.neighbors id depth ↔ 1 ≤ k ∧ k ≤ depth ∧ g.getNode n.id = some n ∧ Distance g.Joined id k n.id := by
  unfold neighbors
  cases hid : g.idIndex.get id with
  | none =>
    constructor
    · intro hmem
      cases hmem
    · rintro ⟨hk, -, -, hdist⟩
      have heq := h.within_of_none (h.getNode_eq_none.2 hid) k hdist.1
      exact absurd heq (hdist.2 0 hk)
  | some i =>
    obtain ⟨n0, hn0, rfl⟩ := (h.index id i).1 hid
    have hlayers : ∀ j m, (j, m) ∈ layers g.graph.neighbors depth g.graph.nodes.keys.length i ↔
        m ≤ depth ∧ Distance (Links g.graph.neighbors) i m j :=
      fun j m => mem_layers (h.layers_nodes hn0) (Nat.le_refl _)
    simp only [List.mem_filterMap]
    constructor
    · rintro ⟨⟨j, m⟩, hmem, heq⟩
      split_ifs at heq with hm
      obtain ⟨nj, hj, hpair⟩ := Option.map_eq_some_iff.1 heq
      cases hpair
      exact ⟨hm.1, hm.2, h.getNode_iff.2 ⟨j, hj, rfl⟩, (h.distance_iff hn0 hj m).1 ((hlayers j m).1 hmem).2⟩
    · rintro ⟨hk, hkd, hnode, hdist⟩
      obtain ⟨j, hj, -⟩ := h.getNode_iff.1 hnode
      refine ⟨(j, k), (hlayers j k).2 ⟨hkd, (h.distance_iff hn0 hj k).2 hdist⟩, ?_⟩
      rw [if_pos ⟨hk, hkd⟩, hj]
      rfl

theorem Ok.nodup_neighbors (h : g.Ok) : ((g.neighbors id depth).map fun p => p.1.id).Nodup := by
  unfold neighbors
  cases hid : g.idIndex.get id with
  | none => exact List.nodup_nil
  | some i =>
    obtain ⟨n0, hn0, rfl⟩ := (h.index id i).1 hid
    have hnodup : ((layers g.graph.neighbors depth g.graph.nodes.keys.length i).map Prod.fst).Nodup :=
      nodup_layers (h.layers_nodes hn0) (Nat.le_refl _)
    rw [List.Nodup, List.pairwise_map] at hnodup ⊢
    refine List.Pairwise.filterMap _ (fun p q hpq a ha b hb hab => hpq ?_) hnodup
    split_ifs at ha hb
    obtain ⟨na, hna, rfl⟩ := Option.map_eq_some_iff.1 ha
    obtain ⟨nb, hnb, rfl⟩ := Option.map_eq_some_iff.1 hb
    have h1 := (h.index nb.id p.1).2 ⟨na, hna, hab⟩
    have h2 := (h.index nb.id q.1).2 ⟨nb, hnb, rfl⟩
    exact Option.some.inj (h1.symm.trans h2)

end MemoryGraph

end Metalogos.Graph
