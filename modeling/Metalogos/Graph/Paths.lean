import Metalogos.Graph.Snapshot
import Metalogos.Lib.Walks

/-!
# Paths and components

`shortest_path` and `stats` of `src/memory_graph.rs`. The scores come from `petgraph`'s `dijkstra`, which is a parameter
here; the walk back over the incoming edges is the source's own.

* `shortest_path_exact`: a path is found exactly when there is one, and no other is shorter;
* `stats_exact`: the components counted are the classes of the nodes under being joined.
-/
namespace Metalogos.Graph

open Metalogos.Lib

namespace MemoryGraph

variable {F : Type}

/-- `self.graph[i].id` -/
def idAt (g : MemoryGraph F) (i : Nat) : Option String := (g.graph.nodes.get i).map (·.id)

/-- `dijkstra start goal` are the scores for unit costs and this goal.
mirrors src/memory_graph.rs:224-259 -/
def shortestPath (g : MemoryGraph F) (dijkstra : Nat → Nat → Dict Nat Nat) (fromId toId : String) :
    Option (List String) := do
  let start ← g.idIndex.get fromId
  let goal ← g.idIndex.get toId
  let score ← (dijkstra start goal).get goal
  let path ← walkBack (fun i => (g.graph.incoming i).map (·.source)) (dijkstra start goal) start score goal [goal]
  some (path.reverse.filterMap g.idAt)

/-- mirrors src/memory_graph.rs:295-329 -/
def weaklyConnectedComponents (g : MemoryGraph F) (rounds : Nat) : Option Nat :=
  if g.graph.nodeIndices.length = 0 then some 0 else countFrom g.graph.neighbors rounds g.graph.nodeIndices [] 0

/-- Nodes, edges and components.
mirrors src/memory_graph.rs:290-293 -/
def stats (g : MemoryGraph F) (rounds : Nat) : Option (Nat × Nat × Nat) :=
  (g.weaklyConnectedComponents rounds).map fun components =>
    (g.graph.nodeIndices.length, g.graph.edges.length, components)

/-- An edge leads from one node to the other. -/
def Leads (g : MemoryGraph F) (a b : String) : Prop := ∃ l ∈ g.links, l.source = a ∧ l.target = b

/-- The same by indices. -/
def Arrow (g : MemoryGraph F) (i j : Nat) : Prop := ∃ e ∈ g.graph.edges, e.source = i ∧ e.target = j

variable {g : MemoryGraph F} {a b : String} {i j : Nat}

theorem idAt_eq_some : g.idAt i = some a ↔ ∃ n, g.graph.nodes.get i = some n ∧ n.id = a := Option.map_eq_some_iff

theorem Ok.index_iff (h : g.Ok) : g.idIndex.get a = some i ↔ g.idAt i = some a := (h.index a i).trans idAt_eq_some.symm

theorem Ok.idAt_inj (h : g.Ok) (hi : g.idAt i = some a) (hj : g.idAt j = some a) : i = j :=
  Option.some.inj ((h.index_iff.2 hi).symm.trans (h.index_iff.2 hj))

theorem Ok.isSome_iff (h : g.Ok) : (g.getNode a).isSome = true ↔ ∃ i, g.idAt i = some a := by
  rw [Option.isSome_iff_exists]
  constructor
  · rintro ⟨n, hn⟩
    obtain ⟨i, hi, hid⟩ := h.getNode_iff.1 hn
    exact ⟨i, idAt_eq_some.2 ⟨n, hi, hid⟩⟩
  · rintro ⟨i, hi⟩
    obtain ⟨n, hn, hid⟩ := idAt_eq_some.1 hi
    exact ⟨n, h.getNode_iff.2 ⟨i, hn, hid⟩⟩

/-- Both ends of an edge have an identifier, and the link has these. -/
theorem Ok.edge_ids (h : g.Ok) {e : Edge (MemoryEdge F)} (he : e ∈ g.graph.edges) : ∃ s t,
    g.idAt e.source = some s ∧ g.idAt e.target = some t ∧ ⟨s, t, e.weight⟩ ∈ g.links := by
  obtain ⟨ns, nt, hs, ht, hlink⟩ := h.linkOf_spec he
  exact ⟨ns.id, nt.id, idAt_eq_some.2 ⟨ns, hs, rfl⟩, idAt_eq_some.2 ⟨nt, ht, rfl⟩, List.mem_filterMap.2 ⟨e, he, hlink⟩⟩

theorem Ok.edge_of_link (h : g.Ok) {l : Link F} (hl : l ∈ g.links) : ∃ e ∈ g.graph.edges,
    g.idAt e.source = some l.source ∧ g.idAt e.target = some l.target := by
  obtain ⟨e, he, hlink⟩ := List.mem_filterMap.1 hl
  obtain ⟨ns, nt, hs, ht, heq⟩ := h.linkOf_spec he
  obtain rfl := Option.some.inj (heq.symm.trans hlink)
  exact ⟨e, he, idAt_eq_some.2 ⟨ns, hs, rfl⟩, idAt_eq_some.2 ⟨nt, ht, rfl⟩⟩

/-! ## Shortest paths -/

theorem Ok.renamed_arrow (h : g.Ok) : Renamed g.idAt g.Arrow g.Leads where
  inj _ _ _ := h.idAt_inj
  forth i j a hi := by
    rintro ⟨e, he, rfl, rfl⟩
    obtain ⟨s, t, hs, ht, hl⟩ := h.edge_ids he
    obtain rfl : s = a := Option.some.inj (hs.symm.trans hi)
    exact ⟨t, ht, _, hl, rfl, rfl⟩
  back i a b hi := by
    rintro ⟨l, hl, rfl, rfl⟩
    obtain ⟨e, he, hs, ht⟩ := h.edge_of_link hl
    exact ⟨e.target, ht, e, he, h.idAt_inj hs hi, rfl⟩

theorem mem_parents : i ∈ (g.graph.incoming j).map (·.source) ↔ g.Arrow i j := by
  unfold StableGraph.incoming Arrow
  simp only [List.mem_map, List.mem_filter, decide_eq_true_eq]
  constructor
  · rintro ⟨e, ⟨he, ht⟩, hs⟩
    exact ⟨e, he, hs, ht⟩
  · rintro ⟨e, he, hs, ht⟩
    exact ⟨e, ⟨he, ht⟩, hs⟩

/-- A way over the indices, read by identifiers. -/
theorem Ok.ids_of_way (h : g.Ok) {way : List Nat} (hchain : way.IsChain g.Arrow) (hhead : way.head? = some i)
    (hi : g.idAt i = some a) : (way.filterMap g.idAt).length = way.length ∧ (way.filterMap g.idAt).head? = some a ∧
      (way.filterMap g.idAt).IsChain g.Leads ∧
        ∀ j b, way.getLast? = some j → g.idAt j = some b → (way.filterMap g.idAt).getLast? = some b := by
  induction way generalizing i a with
  | nil => cases hhead
  | cons k way ih =>
    obtain rfl : k = i := Option.some.inj hhead
    cases way with
    | nil =>
      rw [List.filterMap_cons_some hi]
      refine ⟨rfl, rfl, List.isChain_singleton _, fun j b hj hb => ?_⟩
      obtain rfl : k = j := Option.some.inj hj
      exact hi.symm.trans hb
    | cons j way =>
      obtain ⟨hstep, hchain⟩ := List.isChain_cons_cons.1 hchain
      obtain ⟨b, hb, hleads⟩ := h.renamed_arrow.forth k j a hi hstep
      obtain ⟨hlen, hhead', hways, hlast⟩ := ih hchain rfl hb
      rw [List.filterMap_cons_some hi]
      obtain ⟨rest, hrest⟩ : ∃ rest, (j :: way).filterMap g.idAt = b :: rest := by
        rw [List.filterMap_cons_some hb]
        exact ⟨_, rfl⟩
      rw [hrest] at hlen hways hlast ⊢
      refine ⟨congrArg Nat.succ hlen, rfl, List.isChain_cons_cons.2 ⟨hleads, hways⟩, fun j' b' hj' hb' => ?_⟩
      rw [List.getLast?_cons_cons] at hj' ⊢
      exact hlast j' b' hj' hb'

/-- A path is found exactly between nodes of which the first leads to the other; it is a way from the one to the other,
and its steps are as many as their distance. -/
theorem shortest_path_exact [Field F] [LinearOrder F] (hbuilt : g.Built) {dijkstra : Nat → Nat → Dict Nat Nat}
    (hscores : ∀ start goal, g.idIndex.get a = some start → g.idIndex.get b = some goal →
      Scored g.Arrow start goal (dijkstra start goal)) :
    ((∃ path, g.shortestPath dijkstra a b = some path) ↔
      (g.getNode a).isSome = true ∧ (g.getNode b).isSome = true ∧ Relation.ReflTransGen g.Leads a b) ∧
      ∀ path, g.shortestPath dijkstra a b = some path → path.head? = some a ∧ path.getLast? = some b ∧
        path.IsChain g.Leads ∧ ∃ n, path.length = n + 1 ∧ Distance g.Leads a n b := by
  have h := hbuilt.ok
  have hway : ∀ start goal score, g.idIndex.get a = some start → g.idIndex.get b = some goal →
      (dijkstra start goal).get goal = some score → ∃ path, g.shortestPath dijkstra a b = some path ∧
        path.head? = some a ∧ path.getLast? = some b ∧ path.IsChain g.Leads ∧ path.length = score + 1 ∧
          Distance g.Leads a score b := by
    intro start goal score hstart hgoal hscore
    have hs := hscores start goal hstart hgoal
    have hdist : Distance g.Arrow start score goal := (hs.reached score).1 hscore
    obtain ⟨steps, hwalk, hlen, hchain, hlast⟩ := walkBack_spec (fun u v => mem_parents) hs hscore (Nat.le_refl _) hdist
      [goal]
    have hforward : (goal :: steps).reverse.IsChain g.Arrow := List.isChain_reverse.2 hchain
    have hhead : (goal :: steps).reverse.head? = some start := by rwa [List.head?_reverse]
    have hend : (goal :: steps).reverse.getLast? = some goal := by rw [List.getLast?_reverse, List.head?_cons]
    obtain ⟨hids, hfirst, hways, hfinal⟩ := h.ids_of_way hforward hhead (h.index_iff.1 hstart)
    refine ⟨_, ?_, hfirst, hfinal goal b hend (h.index_iff.1 hgoal), hways, ?_, ?_⟩
    · unfold shortestPath
      rw [hstart, hgoal]
      simp only [Option.bind_eq_bind, Option.bind_some, hscore, hwalk, List.singleton_append]
    · rw [hids, List.length_reverse, List.length_cons, hlen]
    · exact (h.renamed_arrow.distance_iff (h.index_iff.1 hstart) (h.index_iff.1 hgoal) score).1 hdist
  have hfound : ∀ path, g.shortestPath dijkstra a b = some path → ∃ start goal score,
      g.idIndex.get a = some start ∧ g.idIndex.get b = some goal ∧ (dijkstra start goal).get goal = some score := by
    intro path hpath
    unfold shortestPath at hpath
    simp only [Option.bind_eq_bind, Option.bind_eq_some_iff] at hpath
    obtain ⟨start, hstart, goal, hgoal, score, hscore, -⟩ := hpath
    exact ⟨start, goal, score, hstart, hgoal, hscore⟩
  refine ⟨⟨?_, ?_⟩, fun path hpath => ?_⟩
  · rintro ⟨path, hpath⟩
    obtain ⟨start, goal, score, hstart, hgoal, hscore⟩ := hfound path hpath
    obtain ⟨-, -, -, -, -, -, hdist⟩ := hway start goal score hstart hgoal hscore
    exact ⟨h.isSome_iff.2 ⟨start, h.index_iff.1 hstart⟩, h.isSome_iff.2 ⟨goal, h.index_iff.1 hgoal⟩,
      exists_distance.1 ⟨score, hdist⟩⟩
  · rintro ⟨ha, hb, hreach⟩
    obtain ⟨start, hstart⟩ := h.isSome_iff.1 ha
    obtain ⟨goal, hgoal⟩ := h.isSome_iff.1 hb
    obtain ⟨score, hdist⟩ := exists_distance.2 hreach
    have hscore := ((hscores start goal (h.index_iff.2 hstart) (h.index_iff.2 hgoal)).reached score).2
      ((h.renamed_arrow.distance_iff hstart hgoal score).2 hdist)
    obtain ⟨path, hpath, -⟩ := hway start goal score (h.index_iff.2 hstart) (h.index_iff.2 hgoal) hscore
    exact ⟨path, hpath⟩
  · obtain ⟨start, goal, score, hstart, hgoal, hscore⟩ := hfound path hpath
    obtain ⟨path', hpath', hhead, hlast, hchain, hlen, hdist⟩ := hway start goal score hstart hgoal hscore
    obtain rfl := Option.some.inj (hpath.symm.trans hpath')
    exact ⟨hhead, hlast, hchain, score, hlen, hdist⟩

/-- The scores of a search over the pair. -/
def pairScores : Dict Nat Nat := ⟨[(0, 0), (1, 1)]⟩

theorem pairScores_scored : Scored pairGraph.Arrow 0 1 pairScores := by
  have hedge : pairGraph.Arrow 0 1 := by
    have hany : pairGraph.graph.edges.any (fun e => e.source = 0 && e.target = 1) = true := by decide +kernel
    obtain ⟨e, he, hends⟩ := List.any_eq_true.1 hany
    rw [Bool.and_eq_true, decide_eq_true_eq, decide_eq_true_eq] at hends
    exact ⟨e, he, hends⟩
  have hdist : Distance pairGraph.Arrow 0 1 1 := by
    refine ⟨.inr ⟨0, rfl, hedge⟩, fun m hm hwithin => ?_⟩
    obtain rfl : m = 0 := by omega
    exact absurd hwithin Nat.one_ne_zero
  constructor
  · intro n
    constructor
    · intro hn
      obtain rfl : 1 = n := Option.some.inj hn
      exact hdist
    · intro hn
      rw [hn.unique hdist]
      rfl
  · intro d n v hd hn hv
    obtain rfl : 1 = d := Option.some.inj hd
    obtain rfl : n = 0 := by omega
    obtain rfl : v = 0 := hv.1
    rfl
  · intro v n hv
    have hmem : (v, n) ∈ pairScores.pairs := Dict.mem_pairs_of_get hv
    rcases List.mem_cons.1 hmem with heq | hmem
    · obtain ⟨rfl, rfl⟩ := Prod.mk.inj heq
      rfl
    · obtain ⟨rfl, rfl⟩ := Prod.mk.inj (List.mem_singleton.1 hmem)
      exact hdist.1

theorem shortest_path_exact_pair : ∃ path, pairGraph.shortestPath (fun _ _ => pairScores) "a" "b" = some path := by
  have hbuilt : pairGraph.Built := .addEdge _ _ _ _ (.addNode _ (.addNode _ .new))
  refine (shortest_path_exact hbuilt fun start goal hstart hgoal => ?_).1.2 ⟨by decide +kernel, by decide +kernel, ?_⟩
  · have ha : pairGraph.idIndex.get "a" = some 0 := by decide +kernel
    have hb : pairGraph.idIndex.get "b" = some 1 := by decide +kernel
    obtain rfl : 0 = start := Option.some.inj (ha.symm.trans hstart)
    obtain rfl : 1 = goal := Option.some.inj (hb.symm.trans hgoal)
    exact pairScores_scored
  · have hlink : (⟨"a", "b", .relatedTo, 1 / 2⟩ : Link ℚ) ∈ pairGraph.links := by decide +kernel
    exact .single ⟨_, hlink, rfl, rfl⟩

/-! ## Components -/

theorem Ok.renamed_links (h : g.Ok) : Renamed g.idAt (Links g.graph.neighbors) g.Joined where
  inj _ _ _ := h.idAt_inj
  forth i j a hi hij := by
    obtain ⟨e, he, hends⟩ := StableGraph.mem_neighbors.1 hij
    obtain ⟨s, t, hs, ht, hl⟩ := h.edge_ids he
    rcases hends with ⟨rfl, rfl⟩ | ⟨rfl, rfl⟩
    · obtain rfl : s = a := Option.some.inj (hs.symm.trans hi)
      exact ⟨t, ht, _, hl, .inl ⟨rfl, rfl⟩⟩
    · obtain rfl : t = a := Option.some.inj (ht.symm.trans hi)
      exact ⟨s, hs, _, hl, .inr ⟨rfl, rfl⟩⟩
  back i a b hi := by
    rintro ⟨l, hl, hends⟩
    obtain ⟨e, he, hs, ht⟩ := h.edge_of_link hl
    rcases hends with ⟨rfl, rfl⟩ | ⟨rfl, rfl⟩
    · exact ⟨e.target, ht, StableGraph.mem_neighbors.2 ⟨e, he, .inl ⟨h.idAt_inj hs hi, rfl⟩⟩⟩
    · exact ⟨e.source, hs, StableGraph.mem_neighbors.2 ⟨e, he, .inr ⟨rfl, h.idAt_inj ht hi⟩⟩⟩

theorem neighbors_symm (i j : Nat) (hij : j ∈ g.graph.neighbors i) : i ∈ g.graph.neighbors j := by
  obtain ⟨e, he, hends⟩ := StableGraph.mem_neighbors.1 hij
  exact StableGraph.mem_neighbors.2 ⟨e, he, hends.symm⟩

theorem joined_symm (a b : String) (hab : g.Joined a b) : g.Joined b a := by
  obtain ⟨l, hl, hends⟩ := hab
  exact ⟨l, hl, hends.symm⟩

/-- Each element counts for at most one of the keys. -/
theorem sum_filter_length_le {β : Type} (f : β → Nat) (S : Finset Nat) (l : List β) :
    ∑ y ∈ S, (l.filter fun e => f e = y).length ≤ l.length := by
  induction l with
  | nil => simp
  | cons e l ih =>
    have hcons : ∀ y ∈ S, ((e :: l).filter fun e => f e = y).length =
        (if f e = y then 1 else 0) + (l.filter fun e => f e = y).length := by
      intro y _
      rw [List.filter_cons]
      by_cases hy : f e = y
      · simp [hy, Nat.add_comm]
      · simp [hy]
    have hone : ∑ y ∈ S, (if f e = y then 1 else 0) ≤ 1 := by
      rw [Finset.sum_ite_eq]
      split_ifs <;> omega
    rw [Finset.sum_congr rfl hcons, Finset.sum_add_distrib, List.length_cons]
    omega

theorem sum_neighbors_le (S : Finset Nat) : ∑ y ∈ S, (g.graph.neighbors y).length ≤ 2 * g.graph.edges.length := by
  have hout := sum_filter_length_le (fun e : Edge (MemoryEdge F) => e.source) S g.graph.edges
  have hin := sum_filter_length_le (fun e : Edge (MemoryEdge F) => e.target) S g.graph.edges
  have hsplit : ∀ y ∈ S, (g.graph.neighbors y).length =
      (g.graph.edges.filter fun e => e.source = y).length + (g.graph.edges.filter fun e => e.target = y).length := by
    intro y _
    rw [StableGraph.neighbors, List.length_append, List.length_map, List.length_map]
    rfl
  rw [Finset.sum_congr rfl hsplit, Finset.sum_add_distrib]
  omega

theorem Ok.eqvGen_iff (h : g.Ok) (hi : g.idAt i = some a) (hj : g.idAt j = some b) :
    Relation.EqvGen (Links g.graph.neighbors) i j ↔ Relation.EqvGen g.Joined a b := by
  have hjoined : Std.Symm g.Joined := ⟨joined_symm⟩
  rw [eqvGen_links neighbors_symm, Relation.EqvGen.eqvGen_eq_reflTransGen]
  exact h.renamed_links.reach_iff hi hj

theorem Ok.components (h : g.Ok) {rounds : Nat} (hrounds : 1 + 2 * g.graph.edges.length ≤ rounds) :
    g.weaklyConnectedComponents rounds =
      some (Quot.mk g.Joined '' {id | (g.getNode id).isSome = true}).ncard := by
  have hids : ∀ k, k ∈ g.graph.nodeIndices ↔ ∃ a, g.idAt k = some a := by
    intro k
    rw [StableGraph.mem_nodeIndices]
    constructor
    · rintro ⟨n, hn⟩
      exact ⟨n.id, idAt_eq_some.2 ⟨n, hn, rfl⟩⟩
    · rintro ⟨a, ha⟩
      obtain ⟨n, hn, -⟩ := idAt_eq_some.1 ha
      exact ⟨n, hn⟩
  have hnodes : ∀ k ∈ g.graph.nodeIndices, g.graph.neighbors k ⊆ g.graph.nodeIndices := by
    intro k hk m hm
    obtain ⟨a, ha⟩ := (hids k).1 hk
    obtain ⟨b, hb, -⟩ := h.renamed_links.forth k m a ha hm
    exact (hids m).2 ⟨b, hb⟩
  have hbudget : 1 + ∑ y ∈ g.graph.nodeIndices.toFinset, (g.graph.neighbors y).length ≤ rounds := by
    have hle := sum_neighbors_le (g := g) g.graph.nodeIndices.toFinset
    omega
  obtain ⟨visited, roots, hcount, hcounted, -, hall, hroots⟩ := countFrom_spec neighbors_symm hnodes hbudget
    (List.Subset.refl _) (searched_nil g.graph.neighbors)
  rw [List.nil_append] at hroots
  -- the roots by their identifiers
  have hnamed : ∀ r ∈ roots, ∃ a, g.idAt r = some a := fun r hr => (hids r).1 (hroots hr)
  have hlength : (roots.filterMap g.idAt).length = roots.length := by
    rw [List.length_filterMap_eq_countP, List.countP_eq_length]
    intro r hr
    obtain ⟨a, ha⟩ := hnamed r hr
    rw [ha]
    rfl
  have hclasses : (Quot.mk g.Joined '' {id | (g.getNode id).isSome = true}).ncard = (roots.filterMap g.idAt).length := by
    refine ncard_classes (fun a ha => ?_) (fun a ha => ?_) ?_
    · obtain ⟨r, -, hra⟩ := List.mem_filterMap.1 ha
      exact h.isSome_iff.2 ⟨r, hra⟩
    · obtain ⟨k, hk⟩ := h.isSome_iff.1 ha
      obtain ⟨r, hr, hrk⟩ := (hcounted.covered k).1 (hall ((hids k).2 ⟨a, hk⟩))
      obtain ⟨c, hc⟩ := hnamed r hr
      exact ⟨c, List.mem_filterMap.2 ⟨r, hr, hc⟩, (h.eqvGen_iff hc hk).1 hrk⟩
    · refine List.Pairwise.filterMap _ (fun r s hrs a ha b hb hab => hrs ?_) hcounted.apart
      exact (h.eqvGen_iff ha hb).2 hab
  rw [hclasses, hlength, weaklyConnectedComponents]
  split_ifs with hempty
  · have hnil : g.graph.nodeIndices = [] := List.eq_nil_of_length_eq_zero hempty
    rw [hnil] at hroots
    rw [List.eq_nil_of_subset_nil hroots]
    rfl
  · exact hcount

theorem Ok.ncard_ids (h : g.Ok) : {id | (g.getNode id).isSome = true}.ncard = g.graph.nodeIndices.length := by
  classical
  have hlength : (g.nodes.map (·.id)).length = g.graph.nodeIndices.length := by
    rw [List.length_map, nodes, List.length_filterMap_eq_countP, List.countP_eq_length]
    intro k hk
    obtain ⟨n, hn⟩ := StableGraph.mem_nodeIndices.1 hk
    rw [hn]
    rfl
  have hset : {id | (g.getNode id).isSome = true} = ((g.nodes.map (·.id)).toFinset : Set String) := by
    ext id
    rw [Set.mem_ofPred_eq, Finset.mem_coe, List.mem_toFinset, List.mem_map, Option.isSome_iff_exists]
    constructor
    · rintro ⟨n, hn⟩
      obtain rfl := h.id_of_getNode hn
      exact ⟨n, h.mem_nodes.2 hn, rfl⟩
    · rintro ⟨n, hn, rfl⟩
      exact ⟨n, h.mem_nodes.1 hn⟩
  rw [hset, Set.ncard_coe_finset, List.toFinset_card_of_nodup h.nodup_nodes, hlength]

/-- With rounds for the start and both ends of every edge, each search ends; the components are the classes of the nodes
under being joined in one direction or the other. -/
theorem stats_exact [Field F] [LinearOrder F] (hbuilt : g.Built) {rounds : Nat} (hrounds : 1 + 2 * g.graph.edges.length ≤ rounds) :
    g.stats rounds = some ({id | (g.getNode id).isSome = true}.ncard, g.links.length,
      (Quot.mk g.Joined '' {id | (g.getNode id).isSome = true}).ncard) := by
  have h := hbuilt.ok
  have hlinks : g.links.length = g.graph.edges.length := by
    rw [links, List.length_filterMap_eq_countP, List.countP_eq_length]
    intro e he
    obtain ⟨ns, nt, -, -, hlink⟩ := h.linkOf_spec he
    rw [hlink]
    rfl
  rw [stats, h.components hrounds, Option.map_some, h.ncard_ids, hlinks]

theorem stats_exact_pair : pairGraph.stats 3 = some ({id | (pairGraph.getNode id).isSome = true}.ncard,
    pairGraph.links.length, (Quot.mk pairGraph.Joined '' {id | (pairGraph.getNode id).isSome = true}).ncard) :=
  stats_exact (.addEdge _ _ _ _ (.addNode _ (.addNode _ .new))) (by decide +kernel)

end MemoryGraph

end Metalogos.Graph
