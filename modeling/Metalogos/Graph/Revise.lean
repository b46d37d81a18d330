import Mathlib.Algebra.Order.Field.Rat
import Metalogos.Graph.Memory
import Metalogos.Lib.Contest

/-!
# Belief revision

`revise` of `src/memory_graph.rs` gives a node a new score and holds it against the nodes that contradict it: those it
points to, then those that point to it, each as often as there are edges. A rival that is beaten keeps three tenths of
its score; the first one that is not beaten ends the walk.

`revise_order_iff`: the outcome is the same for every order of the edges, with nobody demoted twice, exactly where the
row of contests is steady.
-/
namespace Metalogos.Graph

open Metalogos.Lib

/-- mirrors src/memory_graph.rs:94-102 -/
structure ReviseResult where
  action : String
  supersededId : Option String
  winnerId : String
  deriving DecidableEq

namespace MemoryGraph

variable {F : Type}

/-- A node changed in place. -/
def modify (g : MemoryGraph F) (id : String) (f : MemoryNode F → MemoryNode F) : MemoryGraph F :=
  match g.idIndex.get id with
  | some i => { g with graph := { g.graph with nodes := g.graph.nodes.modify i f } }
  | none => g

/-- The rivals that the node points to. -/
def contradictedIds (g : MemoryGraph F) (idx : Nat) : List String :=
  ((g.graph.outgoing idx).filter fun e => e.weight.relation = .contradicts).filterMap fun e =>
    (g.graph.nodes.get e.target).map (·.id)

/-- The rivals that point to the node. -/
def contradictedBy (g : MemoryGraph F) (idx : Nat) : List String :=
  ((g.graph.incoming idx).filter fun e => e.weight.relation = .contradicts).filterMap fun e =>
    (g.graph.nodes.get e.source).map (·.id)

variable [Field F] [LinearOrder F]

/-- The node keeps three tenths of its score. -/
def demote (n : MemoryNode F) : MemoryNode F := { n with score := n.score * (3 / 10) }

def beatsNode (newScore : F) (now : Int) (other : MemoryNode F) : Bool :=
  other.score < newScore || (newScore = other.score && max other.lastAccessed other.createdAt < now)

/-- mirrors src/memory_graph.rs:469-507 -/
def resolve (id : String) (newScore : F) (now : Int) : MemoryGraph F → List String → Option String →
    ReviseResult × MemoryGraph F
  | g, [], superseded => (⟨if superseded.isSome then "superseded_rival" else "updated", superseded, id⟩, g)
  | g, cid :: rest, superseded =>
    match g.getNode cid with
    | none => resolve id newScore now g rest superseded
    | some other =>
      if beatsNode newScore now other then
        resolve id newScore now ((g.modify cid demote).tryAddEdge id cid .supersedes (9 / 10)) rest (some cid)
      else
        (⟨"demoted", some id, cid⟩, (g.modify id demote).tryAddEdge cid id .supersedes (9 / 10))

/-- What the node is before the contests. -/
def renew (newText : String) (newScore : F) (now : Int) (n : MemoryNode F) : MemoryNode F :=
  { n with
    text := newText
    score := min newScore 1
    lastAccessed := now
    accessCount := min (n.accessCount + 1) (2 ^ 32 - 1) }

/-- mirrors src/memory_graph.rs:424-508 -/
def revise (g : MemoryGraph F) (id newText : String) (newScore : F) (now : Int) :
    Option (ReviseResult × MemoryGraph F) :=
  match g.idIndex.get id with
  | none => none
  | some idx =>
    let g := g.modify id (renew newText newScore now)
    let allContradictions := (g.contradictedIds idx ++ g.contradictedBy idx).filter (· ≠ id)
    if allContradictions = [] then some (⟨"updated", none, id⟩, g)
    else some (resolve id newScore now g allContradictions none)

/-! ## The walk as a row of contests -/

/-- How the contest with a rival ends after it was demoted `k` times. -/
def wins (g : MemoryGraph F) (newScore : F) (now : Int) (c : String) (k : Nat) : Bool :=
  match g.getNode c with
  | some n => beatsNode newScore now { n with score := n.score * (3 / 10) ^ k }
  | none => true

def supersedes (a b : String) : Link F := ⟨a, b, .supersedes, clamp (9 / 10)⟩

/-- How often a node was demoted, for the row and its end. -/
def defeats (id : String) (r : List String × Option String) (x : String) : Nat :=
  if x = id then r.2.toList.length else r.1.count x

/-- The graph after the contests `r`. -/
structure Resolved (g : MemoryGraph F) (id : String) (r : List String × Option String) (g' : MemoryGraph F) : Prop where
  ok : g'.Ok
  node : ∀ x, g'.getNode x = (g.getNode x).map fun n => { n with score := n.score * (3 / 10) ^ defeats id r x }
  links : g'.links = r.2.toList.map (supersedes · id) ++ (r.1.reverse.map (supersedes id) ++ g.links)

variable {g g' : MemoryGraph F} {id c : String} {newScore : F} {now : Int} {down : List String}

omit [Field F] [LinearOrder F] in
theorem Ok.modify (h : g.Ok) {f : MemoryNode F → MemoryNode F} (hf : ∀ n, (f n).id = n.id) (id : String) :
    (g.modify id f).Ok ∧ (g.modify id f).links = g.links ∧ (g.modify id f).graph.edges = g.graph.edges ∧
      ∀ x, (g.modify id f).getNode x = if x = id then (g.getNode x).map f else g.getNode x := by
  unfold MemoryGraph.modify
  cases hid : g.idIndex.get id with
  | none =>
    refine ⟨h, rfl, rfl, fun x => ?_⟩
    split_ifs with hx
    · rw [hx, h.getNode_eq_none.2 hid]
      rfl
    · rfl
  | some i =>
    have hget : ∀ j, (g.graph.nodes.modify i f).get j = if j = i then (g.graph.nodes.get j).map f else g.graph.nodes.get j :=
      fun j => Dict.get_modify _ _ _ _
    have hsome : ∀ j n, g.graph.nodes.get j = some n → ∃ n', (g.graph.nodes.modify i f).get j = some n' ∧ n'.id = n.id := by
      intro j n hn
      rw [hget, hn]
      split_ifs
      · exact ⟨f n, rfl, hf n⟩
      · exact ⟨n, rfl, rfl⟩
    have hback : ∀ j n', (g.graph.nodes.modify i f).get j = some n' → ∃ n, g.graph.nodes.get j = some n ∧ n'.id = n.id := by
      intro j n' hn'
      rw [hget] at hn'
      split_ifs at hn'
      · obtain ⟨n, hn, rfl⟩ := Option.map_eq_some_iff.1 hn'
        exact ⟨n, hn, hf n⟩
      · exact ⟨n', hn', rfl⟩
    refine ⟨⟨⟨fun j hj => ?_, h.graph.nodup, ?_, h.graph.below, fun e he => ?_⟩, fun id' j => ?_⟩, ?_, rfl, fun x => ?_⟩
    · change (g.graph.nodes.modify i f).get j = none
      rw [hget, h.graph.free j hj]
      split_ifs <;> rfl
    · change (g.graph.nodes.modify i f).keys.Nodup
      rw [Dict.keys_modify]
      exact h.graph.distinct
    · obtain ⟨ns, nt, hs, ht, -⟩ := h.linkOf_spec he
      obtain ⟨ns', hs', -⟩ := hsome _ _ hs
      obtain ⟨nt', ht', -⟩ := hsome _ _ ht
      exact ⟨(Dict.has_eq_true _ _).2 ⟨_, hs'⟩, (Dict.has_eq_true _ _).2 ⟨_, ht'⟩⟩
    · change g.idIndex.get id' = some j ↔ ∃ n, (g.graph.nodes.modify i f).get j = some n ∧ n.id = id'
      rw [h.index]
      constructor
      · rintro ⟨n, hn, rfl⟩
        exact hsome j n hn
      · rintro ⟨n', hn', rfl⟩
        obtain ⟨n, hn, hid'⟩ := hback j n' hn'
        exact ⟨n, hn, hid'.symm⟩
    · unfold links
      refine List.filterMap_congr fun e he => ?_
      obtain ⟨ns, nt, hs, ht, hlink⟩ := h.linkOf_spec he
      obtain ⟨ns', hs', hsid⟩ := hsome _ _ hs
      obtain ⟨nt', ht', htid⟩ := hsome _ _ ht
      rw [hlink]
      unfold linkOf
      dsimp only
      rw [hs', ht', ← hsid, ← htid]
      rfl
    · unfold getNode
      dsimp only
      cases hx : g.idIndex.get x with
      | none =>
        split_ifs <;> rfl
      | some j =>
        rw [Option.bind_some, Option.bind_some, hget]
        have hiff : j = i ↔ x = id := by
          constructor
          · rintro rfl
            obtain ⟨n, hn, hn'⟩ := (h.index x j).1 hx
            obtain ⟨m, hm, hm'⟩ := (h.index id j).1 hid
            rw [hn] at hm
            cases hm
            rw [← hn', hm']
          · rintro rfl
            rw [hid] at hx
            exact (Option.some.inj hx).symm
        simp only [hiff]

omit [LinearOrder F] in
theorem score_step (n : MemoryNode F) (k : Nat) :
    demote { n with score := n.score * (3 / 10) ^ k } = { n with score := n.score * (3 / 10) ^ (k + 1) } := by
  unfold demote
  rw [pow_succ, mul_assoc]

theorem Resolved.isSome (h : Resolved g id (down, none) g') (hc : (g.getNode c).isSome = true) :
    (g'.getNode c).isSome = true := by
  rw [h.node, Option.isSome_map]
  exact hc

theorem Resolved.win (h : Resolved g id (down, none) g') (hid : (g.getNode id).isSome = true)
    (hc : (g.getNode c).isSome = true) (hne : c ≠ id) :
    Resolved g id (down ++ [c], none) ((g'.modify c demote).tryAddEdge id c .supersedes (9 / 10)) := by
  have hdemote : ∀ n : MemoryNode F, (demote n).id = n.id := fun _ => rfl
  obtain ⟨hok, hlinks, -, hnode⟩ := h.ok.modify hdemote c
  obtain ⟨hok', hnode', hlinks'⟩ := @Ok.tryAddEdge F (g'.modify c demote) _ _ id c .supersedes (9 / 10) hok
  refine ⟨hok', fun x => ?_, ?_⟩
  · rw [hnode', hnode, h.node]
    unfold defeats
    dsimp only
    by_cases hx : x = c
    · subst hx
      rw [if_pos rfl, if_neg hne, if_neg hne, Option.map_map, List.count_append, List.count_singleton_self]
      exact congrArg (fun f => (g.getNode x).map f) (funext fun n => score_step n _)
    · have hcount : (down ++ [c]).count x = down.count x := by
        rw [List.count_append, List.count_singleton]
        simp [Ne.symm hx]
      rw [if_neg hx, hcount]
  · have hends : ((g'.modify c demote).getNode id).isSome = true ∧ ((g'.modify c demote).getNode c).isSome = true := by
      rw [hnode, hnode, if_neg (Ne.symm hne), if_pos rfl, Option.isSome_map]
      exact ⟨h.isSome hid, h.isSome hc⟩
    rw [hlinks', if_pos hends, hlinks, h.links]
    simp [supersedes]

theorem Resolved.lose (h : Resolved g id (down, none) g') (hid : (g.getNode id).isSome = true)
    (hc : (g.getNode c).isSome = true) (hne : c ≠ id) :
    Resolved g id (down, some c) ((g'.modify id demote).tryAddEdge c id .supersedes (9 / 10)) := by
  have hdemote : ∀ n : MemoryNode F, (demote n).id = n.id := fun _ => rfl
  obtain ⟨hok, hlinks, -, hnode⟩ := h.ok.modify hdemote id
  obtain ⟨hok', hnode', hlinks'⟩ := @Ok.tryAddEdge F (g'.modify id demote) _ _ c id .supersedes (9 / 10) hok
  refine ⟨hok', fun x => ?_, ?_⟩
  · rw [hnode', hnode, h.node]
    unfold defeats
    dsimp only
    by_cases hx : x = id
    · rw [if_pos hx, if_pos hx, if_pos hx, Option.map_map]
      exact congrArg (fun f => (g.getNode x).map f) (funext fun n => score_step n _)
    · rw [if_neg hx, if_neg hx, if_neg hx]
  · have hends : ((g'.modify id demote).getNode c).isSome = true ∧ ((g'.modify id demote).getNode id).isSome = true := by
      rw [hnode, hnode, if_neg hne, if_pos rfl, Option.isSome_map]
      exact ⟨h.isSome hc, h.isSome hid⟩
    rw [hlinks', if_pos hends, hlinks, h.links]
    rfl

theorem resolve_spec (hid : (g.getNode id).isSome = true) (rivals : List String) :
    ∀ down g' superseded, (∀ c ∈ rivals, c ≠ id ∧ (g.getNode c).isSome = true) → Resolved g id (down, none) g' →
      Resolved g id (contest (wins g newScore now) down rivals) (resolve id newScore now g' rivals superseded).2 := by
  induction rivals with
  | nil =>
    intro down g' superseded _ h
    exact h
  | cons c rest ih =>
    intro down g' superseded hrivals h
    obtain ⟨hne, hc⟩ := hrivals c List.mem_cons_self
    have hrest : ∀ c ∈ rest, c ≠ id ∧ (g.getNode c).isSome = true := fun d hd => hrivals d (List.mem_cons_of_mem _ hd)
    obtain ⟨n, hn⟩ := Option.isSome_iff_exists.1 hc
    have hnode := h.node c
    rw [hn, Option.map_some] at hnode
    have hdefeats : defeats id (down, none) c = down.count c := if_neg hne
    have hwins : wins g newScore now c (down.count c) =
        beatsNode newScore now { n with score := n.score * (3 / 10) ^ defeats id (down, none) c } := by
      unfold wins
      rw [hn, hdefeats]
    rw [contest, resolve, hnode]
    dsimp only
    rw [hwins]
    split_ifs
    · exact ih _ _ _ hrest (h.win hid hc hne)
    · exact h.lose hid hc hne

/-! ## The rivals of a node -/

/-- The rivals that a node points to, and those that point to it, in the order of the edges. -/
def outOf (id : String) (ls : List (Link F)) : List String :=
  ((ls.filter fun l => l.source = id ∧ l.edge.relation = .contradicts).map (·.target)).filter (· ≠ id)

def inOf (id : String) (ls : List (Link F)) : List String :=
  ((ls.filter fun l => l.target = id ∧ l.edge.relation = .contradicts).map (·.source)).filter (· ≠ id)

omit [Field F] [LinearOrder F] in
/-- The far ends of the contradictions at a node, over the edges and over the links. -/
theorem side_eq {i : Nat} (hsame : ∀ j m, g.graph.nodes.get j = some m → (j = i ↔ m.id = id))
    {near far : Edge (MemoryEdge F) → Nat} {nearId farId : Link F → String} {edges : List (Edge (MemoryEdge F))}
    (hends : ∀ e ∈ edges, ∃ n m l, g.graph.nodes.get (near e) = some n ∧ g.graph.nodes.get (far e) = some m ∧
      g.linkOf e = some l ∧ nearId l = n.id ∧ farId l = m.id ∧ l.edge = e.weight) :
    ((edges.filter fun e => near e = i).filter fun e => e.weight.relation = .contradicts).filterMap
        (fun e => (g.graph.nodes.get (far e)).map (·.id)) =
      ((edges.filterMap g.linkOf).filter fun l => nearId l = id ∧ l.edge.relation = .contradicts).map farId := by
  induction edges with
  | nil => rfl
  | cons e edges ih =>
    have hrest := ih fun e' he' => hends e' (List.mem_cons_of_mem _ he')
    obtain ⟨n, m, l, hn, hm, hlink, hnear, hfar, hedge⟩ := hends e List.mem_cons_self
    have hiff : near e = i ↔ nearId l = id := by rw [hsame _ _ hn, hnear]
    rw [List.filterMap_cons_some hlink]
    by_cases hcond : near e = i ∧ e.weight.relation = .contradicts
    · have hpos : nearId l = id ∧ l.edge.relation = .contradicts := ⟨hiff.1 hcond.1, hedge ▸ hcond.2⟩
      rw [List.filter_cons_of_pos (by simpa using hcond.1), List.filter_cons_of_pos (by simpa using hcond.2),
        List.filterMap_cons_some (by rw [hm]; rfl), List.filter_cons_of_pos (by simpa using hpos), hrest,
        List.map_cons, hfar]
    · have hneg : ¬(nearId l = id ∧ l.edge.relation = .contradicts) := by rwa [← hiff, hedge]
      rw [List.filter_filter] at hrest ⊢
      rw [List.filter_cons_of_neg (by simpa [and_comm] using hcond), hrest, List.filter_cons_of_neg (by simpa using hneg)]

omit [Field F] [LinearOrder F] in
theorem Ok.rivals_eq (h : g.Ok) {i : Nat} (hi : g.idIndex.get id = some i) :
    (g.contradictedIds i ++ g.contradictedBy i).filter (· ≠ id) = outOf id g.links ++ inOf id g.links := by
  obtain ⟨n, hn, hnid⟩ := (h.index id i).1 hi
  have hsame : ∀ j m, g.graph.nodes.get j = some m → (j = i ↔ m.id = id) := by
    intro j m hj
    constructor
    · rintro rfl
      rw [hn] at hj
      cases hj
      exact hnid
    · intro hmid
      have hj' := (h.index id j).2 ⟨m, hj, hmid⟩
      rw [hi] at hj'
      exact (Option.some.inj hj').symm
  have hout : g.contradictedIds i =
      (g.links.filter fun l => l.source = id ∧ l.edge.relation = .contradicts).map (·.target) := by
    refine side_eq hsame fun e he => ?_
    obtain ⟨ns, nt, hs, ht, hlink⟩ := h.linkOf_spec he
    exact ⟨ns, nt, _, hs, ht, hlink, rfl, rfl, rfl⟩
  have hin : g.contradictedBy i =
      (g.links.filter fun l => l.target = id ∧ l.edge.relation = .contradicts).map (·.source) := by
    refine side_eq hsame fun e he => ?_
    obtain ⟨ns, nt, hs, ht, hlink⟩ := h.linkOf_spec he
    exact ⟨nt, ns, _, ht, hs, hlink, rfl, rfl, rfl⟩
  rw [List.filter_append, hout, hin]
  rfl

/-- The links between a node and one rival. -/
def between (id c : String) (l : Link F) : Bool := (l.source = id ∧ l.target = c) ∨ (l.source = c ∧ l.target = id)

omit [Field F] [LinearOrder F] in
theorem outOf_append (ls ls' : List (Link F)) : outOf id (ls ++ ls') = outOf id ls ++ outOf id ls' := by
  simp [outOf]

omit [Field F] [LinearOrder F] in
theorem inOf_append (ls ls' : List (Link F)) : inOf id (ls ++ ls') = inOf id ls ++ inOf id ls' := by
  simp [inOf]

omit [Field F] [LinearOrder F] in
theorem side_filter {near far : Link F → String} {ls : List (Link F)} {p : Link F → Bool} {q : String → Bool}
    (h : ∀ l ∈ ls, near l = id → far l ≠ id → p l = q (far l)) :
    (((ls.filter p).filter fun l => near l = id ∧ l.edge.relation = .contradicts).map far).filter (· ≠ id) =
      (((ls.filter fun l => near l = id ∧ l.edge.relation = .contradicts).map far).filter (· ≠ id)).filter q := by
  rw [List.filter_map, List.filter_map, List.filter_map, List.filter_filter, List.filter_filter, List.filter_filter,
    List.filter_filter]
  refine congrArg (List.map far) (List.filter_congr fun l hl => ?_)
  by_cases hnear : near l = id
  · by_cases hfar : far l = id
    · simp [hfar]
    · simp [hnear, hfar, h l hl hnear hfar, Bool.and_comm]
  · simp [hnear]

omit [Field F] [LinearOrder F] in
theorem outOf_filter (ls : List (Link F)) {p : Link F → Bool} {q : String → Bool}
    (h : ∀ l ∈ ls, l.source = id → l.target ≠ id → p l = q l.target) :
    outOf id (ls.filter p) = (outOf id ls).filter q := side_filter h

omit [Field F] [LinearOrder F] in
theorem inOf_filter (ls : List (Link F)) {p : Link F → Bool} {q : String → Bool}
    (h : ∀ l ∈ ls, l.target = id → l.source ≠ id → p l = q l.source) :
    inOf id (ls.filter p) = (inOf id ls).filter q := side_filter h

omit [Field F] [LinearOrder F] in
/-- The links to one rival in front, or behind. -/
theorem rivals_front (id c : String) (ls : List (Link F)) :
    outOf id (ls.filter (between id c) ++ ls.filter (fun l => !between id c l)) = front c (outOf id ls) ∧
    inOf id (ls.filter (between id c) ++ ls.filter (fun l => !between id c l)) = front c (inOf id ls) ∧
    outOf id (ls.filter (fun l => !between id c l) ++ ls.filter (between id c)) = back c (outOf id ls) ∧
    inOf id (ls.filter (fun l => !between id c l) ++ ls.filter (between id c)) = back c (inOf id ls) := by
  have hout : ∀ l ∈ ls, l.source = id → l.target ≠ id → between id c l = decide (l.target = c) := by
    intro l _ hs ht
    simp [between, hs, ht]
  have hin : ∀ l ∈ ls, l.target = id → l.source ≠ id → between id c l = decide (l.source = c) := by
    intro l _ ht hs
    simp [between, hs, ht]
  have houtNot : ∀ l ∈ ls, l.source = id → l.target ≠ id → (!between id c l) = decide (l.target ≠ c) := by
    intro l hl hs ht
    rw [hout l hl hs ht, decide_not]
  have hinNot : ∀ l ∈ ls, l.target = id → l.source ≠ id → (!between id c l) = decide (l.source ≠ c) := by
    intro l hl ht hs
    rw [hin l hl ht hs, decide_not]
  have h1 : outOf id (ls.filter (between id c)) = (outOf id ls).filter fun d => decide (d = c) := outOf_filter ls hout
  have h2 : outOf id (ls.filter fun l => !between id c l) = (outOf id ls).filter fun d => decide (d ≠ c) :=
    outOf_filter ls houtNot
  have h3 : inOf id (ls.filter (between id c)) = (inOf id ls).filter fun d => decide (d = c) := inOf_filter ls hin
  have h4 : inOf id (ls.filter fun l => !between id c l) = (inOf id ls).filter fun d => decide (d ≠ c) :=
    inOf_filter ls hinNot
  rw [outOf_append, inOf_append, outOf_append, inOf_append, h1, h2, h3, h4]
  exact ⟨rfl, rfl, rfl, rfl⟩

/-! ## Another order of the edges -/

/-- The same graph with its edges stored in another order. -/
def reorder (g : MemoryGraph F) (edges : List (Edge (MemoryEdge F))) : MemoryGraph F :=
  { g with graph := { g.graph with edges := edges } }

def isSupersedes (l : Link F) : Bool := l.edge.relation = .supersedes

/-- How often a node was said to supersede another. -/
def supersessions (g : MemoryGraph F) (a b : String) : Nat :=
  ((g.links.filter isSupersedes).filter fun l => l.source = a ∧ l.target = b).length

/-- The same scores, and the same Supersedes edges up to their order. -/
def SameBeliefs (g g' : MemoryGraph F) : Prop :=
  (∀ x, (g.getNode x).map (·.score) = (g'.getNode x).map (·.score)) ∧
    (g.links.filter isSupersedes).Perm (g'.links.filter isSupersedes)

/-- Nobody is demoted twice, and every order of the edges leads to the same beliefs. -/
def OrderIndependent (g : MemoryGraph F) (id newText : String) (newScore : F) (now : Int) : Prop :=
  ∀ res g', g.revise id newText newScore now = some (res, g') →
    (∀ c, g'.supersessions id c ≤ g.supersessions id c + 1) ∧
    ∀ edges : List (Edge (MemoryEdge F)), edges.Perm g.graph.edges →
      ∀ res' g'', (g.reorder edges).revise id newText newScore now = some (res', g'') → SameBeliefs g' g''

omit [Field F] [LinearOrder F] in
theorem Ok.reorder (h : g.Ok) {edges : List (Edge (MemoryEdge F))} (hperm : edges.Perm g.graph.edges) :
    (g.reorder edges).Ok ∧ (g.reorder edges).getNode = g.getNode ∧ (g.reorder edges).links = edges.filterMap g.linkOf :=
  ⟨⟨⟨h.graph.free, h.graph.nodup, h.graph.distinct, h.graph.below, fun e he => h.graph.ends e (hperm.mem_iff.1 he)⟩, h.index⟩, rfl, rfl⟩

omit [Field F] [LinearOrder F] in
/-- A rival is another node. -/
theorem Ok.rival_node (h : g.Ok) (hc : c ∈ outOf id g.links ++ inOf id g.links) :
    c ≠ id ∧ (g.getNode c).isSome = true := by
  rcases List.mem_append.1 hc with hc | hc
  · obtain ⟨hc, hne⟩ := List.mem_filter.1 hc
    obtain ⟨l, hl, rfl⟩ := List.mem_map.1 hc
    exact ⟨by simpa using hne, (h.ends_of_link (List.mem_filter.1 hl).1).2⟩
  · obtain ⟨hc, hne⟩ := List.mem_filter.1 hc
    obtain ⟨l, hl, rfl⟩ := List.mem_map.1 hc
    exact ⟨by simpa using hne, (h.ends_of_link (List.mem_filter.1 hl).1).1⟩

/-- What a revision does, over the graph with the node renewed. -/
theorem Ok.revise_spec (h : g.Ok) (hid : (g.getNode id).isSome = true) (newText : String) :
    ∃ res g', g.revise id newText newScore now = some (res, g') ∧
      Resolved (g.modify id (renew newText newScore now)) id
        (contest (wins g newScore now) [] (outOf id g.links ++ inOf id g.links)) g' := by
  obtain ⟨hok, hlinks, -, hnode⟩ := h.modify (f := renew newText newScore now) (fun _ => rfl) id
  cases hi : g.idIndex.get id with
  | none =>
    rw [h.getNode_eq_none.2 hi] at hid
    cases hid
  | some i =>
    have hi' : (g.modify id (renew newText newScore now)).idIndex.get id = some i := by
      unfold MemoryGraph.modify
      rw [hi]
      exact hi
    have hrivals := hok.rivals_eq hi'
    rw [hlinks] at hrivals
    have hstart : Resolved (g.modify id (renew newText newScore now)) id ([], none)
        (g.modify id (renew newText newScore now)) := by
      refine ⟨hok, fun x => ?_, rfl⟩
      have hzero : defeats id (([] : List String), (none : Option String)) x = 0 := by
        unfold defeats
        split_ifs <;> rfl
      rw [hzero]
      simp
    have hall : ∀ c ∈ outOf id g.links ++ inOf id g.links,
        c ≠ id ∧ ((g.modify id (renew newText newScore now)).getNode c).isSome = true := by
      intro c hc
      obtain ⟨hne, hsome⟩ := h.rival_node hc
      rw [hnode, if_neg hne]
      exact ⟨hne, hsome⟩
    have hwins : contest (wins (g.modify id (renew newText newScore now)) newScore now) []
        (outOf id g.links ++ inOf id g.links) =
        contest (wins g newScore now) [] (outOf id g.links ++ inOf id g.links) := by
      refine contest_congr fun c hc => ?_
      funext k
      unfold wins
      rw [hnode, if_neg (hall c hc).1]
    have hself : ((g.modify id (renew newText newScore now)).getNode id).isSome = true := by
      rw [hnode, if_pos rfl, Option.isSome_map]
      exact hid
    have hspec := @resolve_spec F _ _ _ _ newScore now hself _ [] _ none hall hstart
    rw [hwins] at hspec
    unfold MemoryGraph.revise
    rw [hi]
    dsimp only
    rw [hrivals]
    split_ifs with hnil
    · rw [hnil] at hspec ⊢
      exact ⟨_, _, rfl, hspec⟩
    · exact ⟨_, _, rfl, hspec⟩

/-! ## The outcome and the row -/

/-- The Supersedes edges that the contests add. -/
def added (id : String) (r : List String × Option String) : List (Link F) :=
  r.2.toList.map (supersedes · id) ++ r.1.reverse.map (supersedes id)

theorem added_filter (id : String) (r : List String × Option String) :
    (added id r : List (Link F)).filter isSupersedes = added id r := by
  rw [List.filter_eq_self]
  intro l hl
  rcases List.mem_append.1 hl with hl | hl
  · obtain ⟨c, -, rfl⟩ := List.mem_map.1 hl
    rfl
  · obtain ⟨c, -, rfl⟩ := List.mem_map.1 hl
    rfl

theorem Resolved.supersedes_links {r : List String × Option String} (h : Resolved g id r g') :
    g'.links.filter isSupersedes = added id r ++ g.links.filter isSupersedes := by
  rw [h.links, ← List.append_assoc, List.filter_append]
  congr 1
  exact added_filter id r

/-- The row can be read off the edges it adds. -/
theorem added_targets {r : List String × Option String} (hdown : ∀ c ∈ r.1, c ≠ id) :
    ((added id r : List (Link F)).filter fun l => l.target ≠ id).map (·.target) = r.1.reverse := by
  have hfirst : (r.2.toList.map (supersedes (F := F) · id)).filter (fun l => l.target ≠ id) = [] := by
    rw [List.filter_eq_nil_iff]
    intro l hl
    obtain ⟨c, -, rfl⟩ := List.mem_map.1 hl
    simp [supersedes]
  have hsecond : (r.1.reverse.map (supersedes (F := F) id)).filter (fun l => l.target ≠ id) =
      r.1.reverse.map (supersedes id) := by
    rw [List.filter_eq_self]
    intro l hl
    obtain ⟨c, hc, rfl⟩ := List.mem_map.1 hl
    exact decide_eq_true (hdown c (List.mem_reverse.1 hc))
  unfold added
  rw [List.filter_append, hfirst, hsecond, List.nil_append, List.map_map]
  exact List.map_id _

theorem added_sources {r : List String × Option String} (hdown : ∀ c ∈ r.1, c ≠ id) :
    ((added id r : List (Link F)).filter fun l => l.target = id).map (·.source) = r.2.toList := by
  have hfirst : (r.2.toList.map (supersedes (F := F) · id)).filter (fun l => l.target = id) =
      r.2.toList.map (supersedes · id) := by
    rw [List.filter_eq_self]
    intro l hl
    obtain ⟨c, -, rfl⟩ := List.mem_map.1 hl
    simp [supersedes]
  have hsecond : (r.1.reverse.map (supersedes (F := F) id)).filter (fun l => l.target = id) = [] := by
    rw [List.filter_eq_nil_iff]
    intro l hl
    obtain ⟨c, hc, rfl⟩ := List.mem_map.1 hl
    exact fun heq => hdown c (List.mem_reverse.1 hc) (of_decide_eq_true heq)
  unfold added
  rw [List.filter_append, hfirst, hsecond, List.append_nil, List.map_map]
  exact List.map_id _

theorem added_perm_iff {r r' : List String × Option String} (hdown : ∀ c ∈ r.1, c ≠ id) (hdown' : ∀ c ∈ r'.1, c ≠ id) :
    (added id r : List (Link F)).Perm (added id r') ↔ SameOutcome r r' := by
  constructor
  · intro h
    have htargets := (h.filter fun l => l.target ≠ id).map (·.target)
    have hsources := (h.filter fun l => l.target = id).map (·.source)
    rw [added_targets hdown, added_targets hdown'] at htargets
    rw [added_sources hdown, added_sources hdown'] at hsources
    refine ⟨(List.reverse_perm _).symm.trans (htargets.trans (List.reverse_perm _)), ?_⟩
    cases h1 : r.2 <;> cases h2 : r'.2 <;> simp_all
  · rintro ⟨hperm, hloser⟩
    unfold added
    rw [hloser]
    exact ((List.reverse_perm _).trans (hperm.trans (List.reverse_perm _).symm)).map _ |>.append_left _

theorem Resolved.supersessions {r : List String × Option String} (h : Resolved g id r g')
    (hloser : ∀ c ∈ r.2, c ≠ id) (c : String) : g'.supersessions id c = r.1.count c + g.supersessions id c := by
  unfold MemoryGraph.supersessions
  rw [h.supersedes_links, List.filter_append, List.length_append]
  congr 1
  have hfirst : (r.2.toList.map (supersedes (F := F) · id)).filter (fun l => l.source = id ∧ l.target = c) = [] := by
    rw [List.filter_eq_nil_iff]
    intro l hl
    obtain ⟨d, hd, rfl⟩ := List.mem_map.1 hl
    simp [supersedes, hloser d (by simpa using hd)]
  unfold added
  rw [List.filter_append, hfirst, List.nil_append, List.filter_map, List.length_map, ← List.countP_eq_length_filter,
    ← List.count_reverse, List.count]
  congr 1
  funext d
  by_cases hd : d = c <;> simp [supersedes, hd]

/-- Two revisions from the same nodes and edges lead to the same beliefs where their rows have the same outcome. -/
theorem Resolved.same_iff {h₁ h₂ : MemoryGraph F} {r r' : List String × Option String} (h : Resolved g id r h₁)
    {gr : MemoryGraph F} (h' : Resolved gr id r' h₂) (hnodes : gr.getNode = g.getNode) (hlinks : gr.links.Perm g.links)
    (hdown : ∀ c ∈ r.1, c ≠ id) (hdown' : ∀ c ∈ r'.1, c ≠ id) : SameBeliefs h₁ h₂ ↔ SameOutcome r r' := by
  unfold SameBeliefs
  rw [h.supersedes_links, h'.supersedes_links, ← added_perm_iff (F := F) hdown hdown']
  constructor
  · rintro ⟨-, hperm⟩
    exact (List.perm_append_right_iff _).1 (hperm.trans ((hlinks.filter _).append_left _))
  · intro hperm
    refine ⟨fun x => ?_, hperm.append (hlinks.symm.filter _)⟩
    have hsame := (added_perm_iff hdown hdown').1 hperm
    have hdefeats : defeats id r x = defeats id r' x := by
      unfold defeats
      rw [hsame.2, hsame.1.count_eq]
    rw [h.node, h'.node, hnodes, hdefeats]

omit [Field F] [LinearOrder F] in
theorem Ok.row_ne (h : g.Ok) {beats : String → Nat → Bool} :
    (∀ c ∈ (contest beats [] (outOf id g.links ++ inOf id g.links)).1, c ≠ id) ∧
      ∀ c ∈ (contest beats [] (outOf id g.links ++ inOf id g.links)).2, c ≠ id := by
  obtain ⟨hdown, hloser⟩ := @contest_mem _ _ beats [] (outOf id g.links ++ inOf id g.links)
  refine ⟨fun c hc => ?_, fun c hc => (h.rival_node (hloser c hc)).1⟩
  rcases hdown c hc with hc | hc
  · cases hc
  · exact (h.rival_node hc).1

omit [Field F] [LinearOrder F] in
/-- The edges can be stored with the links of a kind in front. -/
theorem Ok.exists_order (h : g.Ok) (q : Link F → Bool) : ∃ edges : List (Edge (MemoryEdge F)),
    edges.Perm g.graph.edges ∧ edges.filterMap g.linkOf = g.links.filter q ++ g.links.filter fun l => !q l := by
  have hpart : ∀ q : Link F → Bool, (g.graph.edges.filter fun e => (g.linkOf e).any q).filterMap g.linkOf =
      g.links.filter q := by
    intro q
    refine filterMap_filter_eq fun e he => ?_
    obtain ⟨ns, nt, -, -, hlink⟩ := h.linkOf_spec he
    exact ⟨_, hlink, by rw [hlink]; rfl, fun _ => hlink⟩
  have hnot : (g.graph.edges.filter fun e => !(g.linkOf e).any q) =
      g.graph.edges.filter fun e => (g.linkOf e).any fun l => !q l := by
    refine List.filter_congr fun e he => ?_
    obtain ⟨ns, nt, -, -, hlink⟩ := h.linkOf_spec he
    rw [hlink]
    rfl
  refine ⟨_, List.filter_append_perm (fun e => (g.linkOf e).any q) g.graph.edges, ?_⟩
  rw [List.filterMap_append, hpart, hnot, hpart]

omit [Field F] [LinearOrder F] in
theorem rivals_perm {ls ls' : List (Link F)} (h : ls.Perm ls') :
    (outOf id ls).Perm (outOf id ls') ∧ (inOf id ls).Perm (inOf id ls') :=
  ⟨((h.filter _).map _).filter _, ((h.filter _).map _).filter _⟩

/-- A revision of the graph with its edges in another order, over the same renewed node. -/
theorem Ok.revise_reordered (h : g.Ok) (hid : (g.getNode id).isSome = true) (newText : String)
    {edges : List (Edge (MemoryEdge F))} (hperm : edges.Perm g.graph.edges) :
    ∃ res g', (g.reorder edges).revise id newText newScore now = some (res, g') ∧
      Resolved ((g.reorder edges).modify id (renew newText newScore now)) id
        (contest (wins g newScore now) [] (outOf id (edges.filterMap g.linkOf) ++ inOf id (edges.filterMap g.linkOf))) g' := by
  obtain ⟨hok, hnode, hlinks⟩ := h.reorder hperm
  have hself : ((g.reorder edges).getNode id).isSome = true := by rw [hnode]; exact hid
  obtain ⟨res, g', hrev, hres⟩ := @Ok.revise_spec F _ _ _ id newScore now hok hself newText
  refine ⟨res, g', hrev, ?_⟩
  have hwins : wins (g.reorder edges) newScore now = wins g newScore now := by
    funext c k
    unfold wins
    rw [hnode]
  rw [← hlinks, ← hwins]
  exact hres

end MemoryGraph

open MemoryGraph in
/-- When a revision does not depend on the order of the edges and demotes nobody twice. -/
theorem revise_order_iff {F : Type} [Field F] [LinearOrder F] {g : MemoryGraph F} (h : g.Ok) {id : String}
    (hid : (g.getNode id).isSome = true) (newText : String) (newScore : F) (now : Int) :
    OrderIndependent g id newText newScore now ↔
      Steady (wins g newScore now) (outOf id g.links) (inOf id g.links) := by
  obtain ⟨res, g', hrev, hres⟩ := @Ok.revise_spec F _ _ _ id newScore now h hid newText
  obtain ⟨hdown, hloser⟩ := @Ok.row_ne F g id h (wins g newScore now)
  obtain ⟨hokm, hlinksm, -, hnodem⟩ := @Ok.modify F g h (renew newText newScore now) (fun _ => rfl) id
  have hcount : ∀ c, g'.supersessions id c =
      (contest (wins g newScore now) [] (outOf id g.links ++ inOf id g.links)).1.count c + g.supersessions id c := by
    intro c
    have hsum := hres.supersessions hloser c
    unfold supersessions at hsum ⊢
    rw [hlinksm] at hsum
    exact hsum
  -- what another order of the edges comes to
  have hother : ∀ edges : List (Edge (MemoryEdge F)), edges.Perm g.graph.edges → ∃ res' g'',
      (g.reorder edges).revise id newText newScore now = some (res', g'') ∧
      (SameBeliefs g' g'' ↔ SameOutcome (contest (wins g newScore now) [] (outOf id g.links ++ inOf id g.links))
        (contest (wins g newScore now) []
          (outOf id (edges.filterMap g.linkOf) ++ inOf id (edges.filterMap g.linkOf)))) := by
    intro edges hperm
    obtain ⟨res', g'', hrev', hres'⟩ := @Ok.revise_reordered F _ _ g id newScore now h hid newText _ hperm
    obtain ⟨hokr, hnoder, hlinksr⟩ := h.reorder hperm
    obtain ⟨-, hlinksr', -, hnoder'⟩ := @Ok.modify F _ hokr (renew newText newScore now) (fun _ => rfl) id
    refine ⟨res', g'', hrev', hres.same_iff hres' ?_ ?_ hdown ?_⟩
    · funext x
      rw [hnoder', hnodem, hnoder]
    · rw [hlinksr', hlinksm, hlinksr]
      exact hperm.filterMap _
    · have hne := (@Ok.row_ne F _ id hokr (wins g newScore now)).1
      rw [hlinksr] at hne
      exact hne
  constructor
  · intro hfree
    obtain ⟨htwice, hsame⟩ := hfree res g' hrev
    refine steady_of_fair (fun c => ?_) fun c => ?_
    · have hc := htwice c
      rw [hcount] at hc
      omega
    · obtain ⟨hfrontOut, hfrontIn, hbackOut, hbackIn⟩ := rivals_front id c g.links
      obtain ⟨edges₁, hperm₁, hlinks₁⟩ := h.exists_order (between id c)
      obtain ⟨edges₂, hperm₂, hlinks₂⟩ := h.exists_order fun l => !between id c l
      obtain ⟨res₁, g₁, hrev₁, hiff₁⟩ := hother edges₁ hperm₁
      obtain ⟨res₂, g₂, hrev₂, hiff₂⟩ := hother edges₂ hperm₂
      have hfirst := hiff₁.1 (hsame edges₁ hperm₁ res₁ g₁ hrev₁)
      have hsecond := hiff₂.1 (hsame edges₂ hperm₂ res₂ g₂ hrev₂)
      simp only [Bool.not_not] at hlinks₂
      rw [hlinks₁, hfrontOut, hfrontIn] at hfirst
      rw [hlinks₂, hbackOut, hbackIn] at hsecond
      exact ⟨hfirst.1.symm.trans hsecond.1, hfirst.2.symm.trans hsecond.2⟩
  · intro hsteady res₁ g₁ hrev₁
    rw [hrev] at hrev₁
    cases hrev₁
    obtain ⟨r, htwice, hfair⟩ := fair_of_steady hsteady
    have hown := hfair _ _ (.refl _) (.refl _)
    refine ⟨fun c => ?_, fun edges hperm res' g'' hrev' => ?_⟩
    · rw [hcount, hown.1.count_eq]
      have hc := htwice c
      omega
    · obtain ⟨res₂, g₂, hrev₂, hiff⟩ := hother edges hperm
      rw [hrev'] at hrev₂
      cases hrev₂
      obtain ⟨hout, hin⟩ := @rivals_perm _ id _ _ (hperm.filterMap g.linkOf)
      have hord := hfair _ _ hout hin
      exact hiff.2 ⟨hown.1.trans hord.1.symm, hown.2.trans hord.2.symm⟩

def belief (id : String) (score : ℚ) : MemoryNode ℚ := ⟨id, id, "L0", score, 0, "user", [], 0, 0⟩

/-- One node, contradicted by two. -/
def disputed (a b : ℚ) : MemoryGraph ℚ :=
  ((((MemoryGraph.new.addNode (belief "x" 0)).addNode (belief "a" a)).addNode (belief "b" b)).tryAddEdge
    "a" "x" .contradicts 1).tryAddEdge "b" "x" .contradicts 1

theorem disputed_ok (a b : ℚ) : (disputed a b).Ok := by
  have h := ((MemoryGraph.ok_new.addNode (belief "x" 0)).1.addNode (belief "a" a)).1.addNode (belief "b" b)
  exact h.1.tryAddEdge.1.tryAddEdge.1

theorem revise_order_weak : MemoryGraph.OrderIndependent (disputed (1 / 5) (3 / 10)) "x" "x" (1 / 2) 7 := by
  refine (revise_order_iff (disputed_ok _ _) (by decide +kernel) "x" (1 / 2) 7).2 (.inl ⟨?_, ?_⟩)
  · decide +kernel
  · decide +kernel

/-- One rival is weaker and one stronger: which of them is met first decides. -/
theorem revise_order_matters : ¬ ∀ (g : MemoryGraph ℚ) (id newText : String) (newScore : ℚ) (now : Int), g.Ok →
    (g.getNode id).isSome = true → MemoryGraph.OrderIndependent g id newText newScore now := by
  intro hall
  have hstored : ((disputed (1 / 5) (4 / 5)).revise "x" "x" (1 / 2) 7).map (fun p => (p.2.getNode "a").map (·.score)) =
      some (some (1 / 5)) := by decide +kernel
  have hreversed : (((disputed (1 / 5) (4 / 5)).reorder (disputed (1 / 5) (4 / 5)).graph.edges.reverse).revise
      "x" "x" (1 / 2) 7).map (fun p => (p.2.getNode "a").map (·.score)) = some (some (3 / 50)) := by decide +kernel
  obtain ⟨⟨res, g'⟩, hrev, hscore⟩ := Option.map_eq_some_iff.1 hstored
  obtain ⟨⟨res', g''⟩, hrev', hscore'⟩ := Option.map_eq_some_iff.1 hreversed
  have hsame := ((hall _ "x" "x" (1 / 2) 7 (disputed_ok _ _) (by decide +kernel) res g' hrev).2 _
    (List.reverse_perm _) res' g'' hrev').1 "a"
  dsimp only at hscore hscore'
  rw [hscore, hscore'] at hsame
  revert hsame
  decide +kernel

end Metalogos.Graph
