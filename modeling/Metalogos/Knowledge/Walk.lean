import Mathlib.Data.List.Nodup
import Metalogos.Lib.Expanded

/-!
# Walking the knowledge graph

`walk` of the two graph stores (`src/memory_store.rs:311-355,1088-1233`): from a value along edges in both
directions, to a depth. Both are depth-first with one set of visited values. The store in memory marks a
neighbour when it comes to its edge and goes on from it at once; the store in SQLite marks all neighbours of a
value and goes on from them afterwards.

A value that is first met at the depth bound is not gone on from, also if it is nearer to the start on another
path that is looked at later. So a walk may miss values, and the two stores may miss different ones
(`walk_exact_iff`). Where the graph has no such detours, both are exact in every order of the edges
(`walk_exact_of_noDetour`).
-/
namespace Metalogos.Knowledge

open Metalogos.Lib

/-- A row of the edge list; `F` is `f64`, which is only handed on.
mirrors src/memory_store.rs:273-275 -/
structure Edge (F : Type) where
  source : String
  target : String
  relation : String
  weight : F

/-- What the walk returns for a value; `depth` is that of the call that found it, which nothing reads. -/
structure Hit (F : Type) where
  relation : String
  value : String
  weight : F
  depth : Nat

/-- The variables of a walk. -/
structure Walk (F : Type) where
  visited : List String
  result : List (Hit F)

variable {F : Type}

def Walk.meet (w : Walk F) (h : Hit F) : Walk F := ⟨h.value :: w.visited, w.result ++ [h]⟩

/-- The other end of an edge at a value.
mirrors src/memory_store.rs:337-343 -/
def Edge.neighbor (e : Edge F) (current : String) : Option String :=
  if e.source = current then some e.target
  else if e.target = current then some e.source
  else none

/-- The store in memory; `left` is `max_depth - depth`.
mirrors src/memory_store.rs:325-355 -/
def walkMemory (edges : List (Edge F)) (maxDepth : Nat) : Nat → String → Walk F → Walk F
  | 0, _, w => w
  | left + 1, current, w => edges.foldl (fun w e =>
      match e.neighbor current with
      | none => w
      | some neighbor =>
        if neighbor ∈ w.visited then w
        else walkMemory edges maxDepth left neighbor
          (w.meet ⟨e.relation, neighbor, e.weight, maxDepth - left⟩)) w

/-- Marks the neighbours that are new; what comes back second is gone on from.
mirrors src/memory_store.rs:1216-1224 -/
def collect (depth : Nat) : List (String × String × F) → Walk F → Walk F × List String
  | [], w => (w, [])
  | (relation, value, weight) :: rows, w =>
    if value ∈ w.visited then collect depth rows w
    else
      let (w', toVisit) := collect depth rows (w.meet ⟨relation, value, weight, depth⟩)
      (w', value :: toVisit)

/-- The store in SQLite; `rows` answers the two queries of a value.
mirrors src/memory_store.rs:1139-1233 -/
def walkSqlite (rows : String → List (String × String × F)) (maxDepth : Nat) : Nat → String → Walk F → Walk F
  | 0, _, w => w
  | left + 1, current, w =>
    let (w', toVisit) := collect (maxDepth - left) (rows current) w
    toVisit.foldl (fun w value => walkSqlite rows maxDepth left value w) w'

def Walk.start (value : String) : Walk F := ⟨[value], []⟩

/-- mirrors src/memory_store.rs:311-317 -/
def InMemoryKg.walk (edges : List (Edge F)) (value : String) (maxDepth : Nat) : List (Hit F) :=
  (walkMemory edges maxDepth maxDepth value (.start value)).result

/-- The rows of the outgoing query, then those of the incoming one; SQL leaves the order inside each open.
mirrors src/memory_store.rs:1158-1213 -/
structure Rows (edges : List (Edge F)) where
  outgoing : String → List (String × String × F)
  incoming : String → List (String × String × F)
  outgoing_perm (v : String) : (outgoing v).Perm
    ((edges.filter (·.source = v)).map fun e => (e.relation, e.target, e.weight))
  incoming_perm (v : String) : (incoming v).Perm
    ((edges.filter (·.target = v)).map fun e => (e.relation, e.source, e.weight))

def Rows.all {edges : List (Edge F)} (rows : Rows edges) (v : String) : List (String × String × F) :=
  rows.outgoing v ++ rows.incoming v

/-- mirrors src/memory_store.rs:1088-1094 -/
def SqliteKg.walk {edges : List (Edge F)} (rows : Rows edges) (value : String) (maxDepth : Nat) : List (Hit F) :=
  (walkSqlite rows.all maxDepth maxDepth value (.start value)).result

/-! ## What one call does -/

/-- An edge between two values, in either direction. -/
def Adjacent (edges : List (Edge F)) (u v : String) : Prop :=
  ∃ e ∈ edges, e.source = u ∧ e.target = v ∨ e.target = u ∧ e.source = v

/-- The set and the list agree, and no value is met twice. -/
structure Walk.Ok (start : String) (w : Walk F) : Prop where
  visited : ∀ v, v ∈ w.visited ↔ v = start ∨ v ∈ w.result.map (·.value)
  nodup : (start :: w.result.map (·.value)).Nodup

/-- The result of a call that goes on from `current` at depth `maxDepth - left`. -/
structure Walk.Extends (adj : String → String → Prop) (start : String) (maxDepth left : Nat) (current : String)
    (w w' : Walk F) : Prop where
  ok : w'.Ok start
  subset : w.result ⊆ w'.result
  parent : ∀ h ∈ w'.result, h ∈ w.result ∨ ∃ u m, h.depth = m + 1 ∧ m < maxDepth ∧ adj u h.value ∧
    (u = current ∧ m = maxDepth - left ∨ ∃ h' ∈ w'.result, h'.value = u ∧ h'.depth = m)
  closed : ∀ h ∈ w'.result, h ∈ w.result ∨ (h.depth < maxDepth → ∀ v, adj h.value v → v ∈ w'.visited)

namespace Walk

variable {adj : String → String → Prop} {start current : String} {maxDepth left : Nat} {w w' w'' : Walk F}

theorem Ok.mem_of_subset (hw : w.Ok start) (hw' : w'.Ok start) (hsub : w.result ⊆ w'.result) {v : String}
    (hv : v ∈ w.visited) : v ∈ w'.visited := by
  rcases (hw.visited v).1 hv with h | h
  · exact (hw'.visited v).2 (.inl h)
  · obtain ⟨x, hx, rfl⟩ := List.mem_map.1 h
    exact (hw'.visited _).2 (.inr (List.mem_map_of_mem (hsub hx)))

theorem Ok.meet (hw : w.Ok start) {h : Hit F} (hnew : h.value ∉ w.visited) : (w.meet h).Ok start := by
  constructor
  · intro v
    have := hw.visited v
    simp only [Walk.meet, List.mem_cons, List.map_append, List.map_cons, List.map_nil, List.mem_append, List.not_mem_nil,
      or_false]
    tauto
  · have hout : h.value ∉ start :: w.result.map (·.value) := fun hin =>
      hnew ((hw.visited h.value).2 (List.mem_cons.1 hin))
    have hnd := hw.nodup
    simp only [Walk.meet, List.map_append, List.map_cons, List.map_nil, ← List.cons_append]
    exact List.nodup_append.2 ⟨hnd, by simp, fun a ha b hb => by
      obtain rfl : b = h.value := by simpa using hb
      exact fun heq => hout (heq ▸ ha)⟩

theorem Extends.refl (hw : w.Ok start) : Extends adj start maxDepth left current w w where
  ok := hw
  subset := List.Subset.refl _
  parent _ hh := .inl hh
  closed _ hh := .inl hh

theorem Extends.visited (hw : w.Ok start) (h : Extends adj start maxDepth left current w w') {v : String}
    (hv : v ∈ w.visited) : v ∈ w'.visited := hw.mem_of_subset h.ok h.subset hv

/-- Two parts of one call. -/
theorem Extends.trans (h : Extends adj start maxDepth left current w w')
    (h' : Extends adj start maxDepth left current w' w'') : Extends adj start maxDepth left current w w'' where
  ok := h'.ok
  subset := List.Subset.trans h.subset h'.subset
  parent x hx := by
    rcases h'.parent x hx with hx' | hnew
    · rcases h.parent x hx' with hx | ⟨u, m, hd, hm, hadj, ⟨rfl, rfl⟩ | ⟨y, hy, hyu⟩⟩
      · exact .inl hx
      · exact .inr ⟨_, _, hd, hm, hadj, .inl ⟨rfl, rfl⟩⟩
      · exact .inr ⟨u, m, hd, hm, hadj, .inr ⟨y, h'.subset hy, hyu⟩⟩
    · exact .inr hnew
  closed x hx := by
    rcases h'.closed x hx with hx' | hnew
    · rcases h.closed x hx' with hx | hcl
      · exact .inl hx
      · exact .inr fun hd v hadj => h'.visited h.ok (hcl hd v hadj)
    · exact .inr hnew

/-- A new neighbour of `current`, and the call that goes on from it. -/
theorem Extends.below (hleft : left < maxDepth) {x : Hit F} (hdepth : x.depth = maxDepth - left) (hadj : adj current x.value)
    (h : Extends adj start maxDepth left x.value (w.meet x) w')
    (hself : 0 < left → ∀ v, adj x.value v → v ∈ w'.visited) :
    Extends adj start maxDepth (left + 1) current w w' := by
  have hxmem : x ∈ w'.result := h.subset (by simp [Walk.meet])
  refine ⟨h.ok, fun y hy => h.subset (by simp [Walk.meet, hy]), fun y hy => ?_, fun y hy => ?_⟩
  · have hx : x.depth = maxDepth - (left + 1) + 1 := by omega
    rcases h.parent y hy with hy' | ⟨u, m, hd, hm, hadj', ⟨rfl, rfl⟩ | hp⟩
    · rcases List.mem_append.1 hy' with hy' | hy'
      · exact .inl hy'
      · obtain rfl : y = x := by simpa using hy'
        exact .inr ⟨current, _, hx, by omega, hadj, .inl ⟨rfl, rfl⟩⟩
    · exact .inr ⟨_, _, hd, hm, hadj', .inr ⟨x, hxmem, rfl, hdepth⟩⟩
    · exact .inr ⟨u, m, hd, hm, hadj', .inr hp⟩
  · rcases h.closed y hy with hy' | hcl
    · rcases List.mem_append.1 hy' with hy' | hy'
      · exact .inl hy'
      · obtain rfl : y = x := by simpa using hy'
        exact .inr fun hd => hself (by omega)
    · exact .inr hcl

end Walk

open Walk

variable {edges : List (Edge F)} {start : String} {maxDepth : Nat}

theorem Edge.adjacent_of_neighbor {e : Edge F} (he : e ∈ edges) {u v : String} (h : e.neighbor u = some v) :
    Adjacent edges u v := by
  unfold Edge.neighbor at h
  split_ifs at h with hs ht
  · exact ⟨e, he, .inl ⟨hs, Option.some.inj h⟩⟩
  · exact ⟨e, he, .inr ⟨ht, Option.some.inj h⟩⟩

/-- A neighbour is on some edge of the list; of a self edge the start is its own neighbour. -/
theorem Adjacent.neighbor {u v : String} (h : Adjacent edges u v) : ∃ e ∈ edges, e.neighbor u = some v := by
  obtain ⟨e, he, ⟨rfl, rfl⟩ | ⟨rfl, rfl⟩⟩ := h
  · exact ⟨e, he, if_pos rfl⟩
  · refine ⟨e, he, ?_⟩
    unfold Edge.neighbor
    by_cases hs : e.source = e.target
    · rw [if_pos hs, hs]
    · rw [if_neg hs, if_pos rfl]

theorem walkMemory_extends {left : Nat} : ∀ {current : String} {w : Walk F}, left ≤ maxDepth → w.Ok start →
    current ∈ w.visited →
    Extends (Adjacent edges) start maxDepth left current w (walkMemory edges maxDepth left current w) ∧
      (0 < left → ∀ v, Adjacent edges current v → v ∈ (walkMemory edges maxDepth left current w).visited) := by
  induction left with
  | zero =>
    intro current w _ hw _
    exact ⟨.refl hw, fun h => absurd h (Nat.lt_irrefl 0)⟩
  | succ left ih =>
    intro current w hle hw hcur
    rw [walkMemory]
    -- over the edges that are still to come
    have hfold : ∀ (es : List (Edge F)), es ⊆ edges → ∀ {w : Walk F}, w.Ok start →
        Extends (Adjacent edges) start maxDepth (left + 1) current w
          (es.foldl (fun w e => match e.neighbor current with
            | none => w
            | some neighbor => if neighbor ∈ w.visited then w else walkMemory edges maxDepth left neighbor
                (w.meet ⟨e.relation, neighbor, e.weight, maxDepth - left⟩)) w) ∧
        ∀ e ∈ es, ∀ v ∈ e.neighbor current, v ∈ (es.foldl (fun w e => match e.neighbor current with
            | none => w
            | some neighbor => if neighbor ∈ w.visited then w else walkMemory edges maxDepth left neighbor
                (w.meet ⟨e.relation, neighbor, e.weight, maxDepth - left⟩)) w).visited := by
      intro es
      induction es with
      | nil =>
        intro _ w hw
        exact ⟨.refl hw, by simp⟩
      | cons e es ihes =>
        intro hsub w hw
        obtain ⟨he, hes⟩ := List.cons_subset.1 hsub
        rw [List.foldl_cons]
        -- one edge
        have hone : ∃ w₁, (match e.neighbor current with
            | none => w
            | some neighbor => if neighbor ∈ w.visited then w else walkMemory edges maxDepth left neighbor
                (w.meet ⟨e.relation, neighbor, e.weight, maxDepth - left⟩)) = w₁ ∧
            Extends (Adjacent edges) start maxDepth (left + 1) current w w₁ ∧
            ∀ v ∈ e.neighbor current, v ∈ w₁.visited := by
          cases hn : e.neighbor current with
          | none => exact ⟨w, rfl, .refl hw, by simp⟩
          | some neighbor =>
            by_cases hv : neighbor ∈ w.visited
            · refine ⟨w, if_pos hv, .refl hw, fun v hvn => ?_⟩
              obtain rfl := Option.some.inj hvn
              exact hv
            · have hmeet : (w.meet ⟨e.relation, neighbor, e.weight, maxDepth - left⟩).Ok start := hw.meet hv
              have hcur : neighbor ∈ (w.meet ⟨e.relation, neighbor, e.weight, maxDepth - left⟩).visited := by
                simp [Walk.meet]
              obtain ⟨hext, hself⟩ := ih (by omega) hmeet hcur
              refine ⟨_, if_neg hv, Extends.below (x := ⟨e.relation, neighbor, e.weight, maxDepth - left⟩) (by omega) rfl
                (Edge.adjacent_of_neighbor he hn) hext hself, fun v hvn => ?_⟩
              obtain rfl := Option.some.inj hvn
              exact hext.visited hmeet (by simp [Walk.meet])
        obtain ⟨w₁, heq, hext₁, hvis₁⟩ := hone
        rw [heq]
        obtain ⟨hext₂, hvis₂⟩ := ihes hes hext₁.ok
        refine ⟨hext₁.trans hext₂, List.forall_mem_cons.2 ⟨fun v hv => ?_, hvis₂⟩⟩
        exact hext₂.visited hext₁.ok (hvis₁ v hv)
    obtain ⟨hext, hvis⟩ := hfold edges (List.Subset.refl _) hw
    refine ⟨hext, fun _ v hadj => ?_⟩
    obtain ⟨e, he, hn⟩ := hadj.neighbor
    exact hvis e he v hn

/-- The values marked in one round: each is a new neighbour at the depth of the round, and none is left out. -/
theorem collect_spec {adj : String → String → Prop} (current : String) (depth : Nat)
    {rows : List (String × String × F)} (hrows : ∀ r ∈ rows, adj current r.2.1) : ∀ {w : Walk F}, w.Ok start →
    (collect depth rows w).1.Ok start ∧ w.result ⊆ (collect depth rows w).1.result ∧
      (∀ r ∈ rows, r.2.1 ∈ (collect depth rows w).1.visited) ∧
      (∀ h ∈ (collect depth rows w).1.result, h ∈ w.result ∨
        h.depth = depth ∧ adj current h.value ∧ h.value ∈ (collect depth rows w).2) ∧
      ∀ v ∈ (collect depth rows w).2, ∃ h ∈ (collect depth rows w).1.result, h.value = v ∧ h.depth = depth := by
  induction rows with
  | nil =>
    intro w hw
    exact ⟨hw, List.Subset.refl _, by simp, fun h hh => .inl hh, by simp [collect]⟩
  | cons r rows ih =>
    intro w hw
    obtain ⟨hr, hrest⟩ := List.forall_mem_cons.1 hrows
    unfold collect
    by_cases hv : r.2.1 ∈ w.visited
    · rw [if_pos hv]
      obtain ⟨hok, hsub, hvis, hnew, hto⟩ := ih hrest hw
      exact ⟨hok, hsub, List.forall_mem_cons.2 ⟨hw.mem_of_subset hok hsub hv, hvis⟩, hnew, hto⟩
    · rw [if_neg hv]
      have hmeet : (w.meet ⟨r.1, r.2.1, r.2.2, depth⟩).Ok start := hw.meet hv
      obtain ⟨hok, hsub, hvis, hnew, hto⟩ := ih hrest hmeet
      have hin : (⟨r.1, r.2.1, r.2.2, depth⟩ : Hit F) ∈
          (collect depth rows (w.meet ⟨r.1, r.2.1, r.2.2, depth⟩)).1.result := hsub (by simp [Walk.meet])
      have hvisited : r.2.1 ∈ (collect depth rows (w.meet ⟨r.1, r.2.1, r.2.2, depth⟩)).1.visited :=
        hmeet.mem_of_subset hok hsub (by simp [Walk.meet])
      refine ⟨hok, fun x hx => hsub (by simp [Walk.meet, hx]), List.forall_mem_cons.2 ⟨hvisited, hvis⟩, fun h hh => ?_,
        List.forall_mem_cons.2 ⟨⟨_, hin, rfl, rfl⟩, hto⟩⟩
      rcases hnew h hh with hh | ⟨hd, hadj, hmem⟩
      · rcases List.mem_append.1 hh with hh | hh
        · exact .inl hh
        · obtain rfl : h = ⟨r.1, r.2.1, r.2.2, depth⟩ := by simpa using hh
          exact .inr ⟨rfl, hr, List.mem_cons_self⟩
      · exact .inr ⟨hd, hadj, List.mem_cons_of_mem _ hmem⟩

theorem walkSqlite_extends {adj : String → String → Prop} {rows : String → List (String × String × F)}
    (hrows : ∀ u v, adj u v ↔ ∃ r ∈ rows u, r.2.1 = v) {left : Nat} : ∀ {current : String} {w : Walk F},
    left ≤ maxDepth → w.Ok start → current ∈ w.visited →
    Extends adj start maxDepth left current w (walkSqlite rows maxDepth left current w) ∧
      (0 < left → ∀ v, adj current v → v ∈ (walkSqlite rows maxDepth left current w).visited) := by
  induction left with
  | zero =>
    intro current w _ hw _
    exact ⟨.refl hw, fun h => absurd h (Nat.lt_irrefl 0)⟩
  | succ left ih =>
    intro current w hle hw hcur
    rw [walkSqlite]
    obtain ⟨hok, hsub, hvis, hnew, hto⟩ := collect_spec current (maxDepth - left)
      (fun r hr => (hrows current r.2.1).2 ⟨r, hr, rfl⟩) hw
    generalize collect (maxDepth - left) (rows current) w = c at hok hsub hvis hnew hto
    obtain ⟨w₀, toVisit⟩ := c
    dsimp only at hok hsub hvis hnew hto ⊢
    -- the calls that go on from what was marked
    have hfold : ∀ (vs : List String) {w₁ : Walk F}, w₁.Ok start → (∀ v ∈ vs, v ∈ w₁.visited) →
        (vs.foldl (fun w value => walkSqlite rows maxDepth left value w) w₁).Ok start ∧
        w₁.result ⊆ (vs.foldl (fun w value => walkSqlite rows maxDepth left value w) w₁).result ∧
        (∀ h ∈ (vs.foldl (fun w value => walkSqlite rows maxDepth left value w) w₁).result, h ∈ w₁.result ∨
          (∃ u m, h.depth = m + 1 ∧ m < maxDepth ∧ adj u h.value ∧ (u ∈ vs ∧ m = maxDepth - left ∨
            ∃ h' ∈ (vs.foldl (fun w value => walkSqlite rows maxDepth left value w) w₁).result,
              h'.value = u ∧ h'.depth = m)) ∧
          (h.depth < maxDepth → ∀ v, adj h.value v →
            v ∈ (vs.foldl (fun w value => walkSqlite rows maxDepth left value w) w₁).visited)) ∧
        (0 < left → ∀ u ∈ vs, ∀ v, adj u v →
          v ∈ (vs.foldl (fun w value => walkSqlite rows maxDepth left value w) w₁).visited) := by
      intro vs
      induction vs with
      | nil =>
        intro w₁ h₁ _
        exact ⟨h₁, List.Subset.refl _, fun h hh => .inl hh, by simp⟩
      | cons u vs ihvs =>
        intro w₁ h₁ hin
        obtain ⟨hu, hvs⟩ := List.forall_mem_cons.1 hin
        obtain ⟨hext, hself⟩ := ih (by omega) h₁ hu
        rw [List.foldl_cons]
        obtain ⟨hok₂, hsub₂, hhits, hclosed⟩ := ihvs hext.ok fun v hv => hext.visited h₁ (hvs v hv)
        refine ⟨hok₂, List.Subset.trans hext.subset hsub₂, fun h hh => ?_, fun hl => List.forall_mem_cons.2 ⟨?_, hclosed hl⟩⟩
        · rcases hhits h hh with hh' | ⟨⟨u', m, hd, hm, hadj, ⟨hu', rfl⟩ | hp⟩, hcl⟩
          · rcases hext.parent h hh' with hold | ⟨u', m, hd, hm, hadj, hp⟩
            · exact .inl hold
            · rcases hext.closed h hh' with hold | hcl
              · exact .inl hold
              · refine .inr ⟨⟨u', m, hd, hm, hadj, ?_⟩, fun hlt v hv => ?_⟩
                · rcases hp with ⟨rfl, rfl⟩ | ⟨h', hh₂, heq⟩
                  · exact .inl ⟨List.mem_cons_self, rfl⟩
                  · exact .inr ⟨h', hsub₂ hh₂, heq⟩
                · exact hext.ok.mem_of_subset hok₂ hsub₂ (hcl hlt v hv)
          · exact .inr ⟨⟨u', _, hd, hm, hadj, .inl ⟨List.mem_cons_of_mem u hu', rfl⟩⟩, hcl⟩
          · exact .inr ⟨⟨u', m, hd, hm, hadj, .inr hp⟩, hcl⟩
        · exact fun v hv => hext.ok.mem_of_subset hok₂ hsub₂ (hself hl v hv)
    have hto_visited : ∀ v ∈ toVisit, v ∈ w₀.visited := by
      intro v hv
      obtain ⟨h, hh, rfl, -⟩ := hto v hv
      exact (hok.visited _).2 (.inr (List.mem_map_of_mem hh))
    obtain ⟨hok', hsub', hhits, hself⟩ := hfold toVisit hok hto_visited
    have hdepth : maxDepth - left = maxDepth - (left + 1) + 1 := by omega
    refine ⟨⟨hok', List.Subset.trans hsub hsub', fun h hh => ?_, fun h hh => ?_⟩, fun _ v hadj => ?_⟩
    · rcases hhits h hh with hh' | ⟨⟨u, m, hd, hm, hadj, ⟨hu, rfl⟩ | hp⟩, -⟩
      · rcases hnew h hh' with hold | ⟨hd, hadj, -⟩
        · exact .inl hold
        · exact .inr ⟨current, _, hd.trans hdepth, by omega, hadj, .inl ⟨rfl, rfl⟩⟩
      · obtain ⟨h', hh', rfl, hd'⟩ := hto u hu
        exact .inr ⟨_, _, hd, hm, hadj, .inr ⟨h', hsub' hh', rfl, hd'⟩⟩
      · exact .inr ⟨u, m, hd, hm, hadj, .inr hp⟩
    · rcases hhits h hh with hh' | ⟨-, hcl⟩
      · rcases hnew h hh' with hold | ⟨hd, -, hmem⟩
        · exact .inl hold
        · exact .inr fun hlt => hself (by omega) h.value hmem
      · exact .inr hcl
    · obtain ⟨r, hr, rfl⟩ := (hrows current v).1 hadj
      exact hok.mem_of_subset hok' hsub' (hvis r hr)

/-! ## The walks -/

theorem ok_start (start : String) : (Walk.start start : Walk F).Ok start where
  visited v := by simp [Walk.start]
  nodup := by simp [Walk.start]

/-- A hit, or the start at depth 0. -/
def Met (start : String) (hits : List (Hit F)) (v : String) (n : Nat) : Prop :=
  v = start ∧ n = 0 ∨ ∃ h ∈ hits, h.value = v ∧ h.depth = n

/-- What a whole walk met, from what its first call did. -/
theorem Walk.Extends.expanded {adj : String → String → Prop} {w : Walk F}
    (h : Extends adj start maxDepth maxDepth start (.start start) w)
    (hself : 0 < maxDepth → ∀ v, adj start v → v ∈ w.visited) : Expanded adj start maxDepth (Met start w.result) where
  origin := .inl ⟨rfl, rfl⟩
  parent v n hv := by
    rcases hv with hv | ⟨x, hx, rfl, rfl⟩
    · exact .inl hv
    · rcases h.parent x hx with hold | ⟨u, m, hd, hm, hadj, ⟨rfl, rfl⟩ | hp⟩
      · cases hold
      · exact .inr ⟨u, 0, by omega, by omega, .inl ⟨rfl, rfl⟩, hadj⟩
      · exact .inr ⟨u, m, hd, hm, .inr hp, hadj⟩
  closed u n v hu hn hadj := by
    have hvis : v ∈ w.visited := by
      rcases hu with ⟨rfl, rfl⟩ | ⟨x, hx, rfl, rfl⟩
      · exact hself hn v hadj
      · rcases h.closed x hx with hold | hcl
        · cases hold
        · exact hcl hn v hadj
    rcases (h.ok.visited v).1 hvis with rfl | hv
    · exact ⟨0, .inl ⟨rfl, rfl⟩⟩
    · obtain ⟨x, hx, rfl⟩ := List.mem_map.1 hv
      exact ⟨x.depth, .inr ⟨x, hx, rfl, rfl⟩⟩

/-- Each value within the depth, other than the start, once, and nothing else. -/
def Exact (edges : List (Edge F)) (start : String) (maxDepth : Nat) (hits : List (Hit F)) : Prop :=
  (hits.map (·.value)).Nodup ∧
    ∀ v, v ∈ hits.map (·.value) ↔ v ≠ start ∧ Within (Adjacent edges) start maxDepth v

/-- No value within the depth has only neighbours that are cut off: met at the depth bound, or not at all. -/
def NoneCutOff (edges : List (Edge F)) (start : String) (maxDepth : Nat) (hits : List (Hit F)) : Prop :=
  ∀ v, Within (Adjacent edges) start maxDepth v → v ≠ start →
    ∃ u n, Adjacent edges u v ∧ Met start hits u n ∧ n < maxDepth

/-- A value is met once, so at one depth. -/
theorem Met.depth_unique {w : Walk F} (hok : w.Ok start) {v : String} {m n : Nat} (hm : Met start w.result v m)
    (hn : Met start w.result v n) : m = n := by
  obtain ⟨hstart, hnodup⟩ := List.nodup_cons.1 hok.nodup
  rcases hm with ⟨rfl, rfl⟩ | ⟨x, hx, rfl, rfl⟩ <;> rcases hn with ⟨hv, rfl⟩ | ⟨y, hy, hv, rfl⟩
  · rfl
  · exact absurd (hv ▸ List.mem_map_of_mem hy) hstart
  · exact absurd (hv ▸ List.mem_map_of_mem hx) hstart
  · rw [List.inj_on_of_nodup_map hnodup hy hx hv]

theorem exact_iff {w : Walk F} (hok : w.Ok start)
    (h : Expanded (Adjacent edges) start maxDepth (Met start w.result)) :
    Exact edges start maxDepth w.result ↔ NoneCutOff edges start maxDepth w.result := by
  obtain ⟨hstart, hnodup⟩ := List.nodup_cons.1 hok.nodup
  unfold NoneCutOff
  rw [← h.metAll_iff]
  constructor
  · rintro ⟨-, hall⟩ v hv
    by_cases hs : v = start
    · exact ⟨0, .inl ⟨hs, rfl⟩⟩
    · obtain ⟨x, hx, hxv⟩ := List.mem_map.1 ((hall v).2 ⟨hs, hv⟩)
      exact ⟨x.depth, .inr ⟨x, hx, hxv, rfl⟩⟩
  · intro hall
    refine ⟨hnodup, fun v => ⟨fun hv => ?_, fun ⟨hs, hv⟩ => ?_⟩⟩
    · have hne : v ≠ start := by
        rintro rfl
        exact hstart hv
      obtain ⟨x, hx, hxv⟩ := List.mem_map.1 hv
      have hmet : Met start w.result v x.depth := .inr ⟨x, hx, hxv, rfl⟩
      exact ⟨hne, (h.within hmet).mono (h.le_bound hmet)⟩
    · obtain ⟨n, ⟨heq, -⟩ | ⟨x, hx, rfl, -⟩⟩ := hall v hv
      · exact absurd heq hs
      · exact List.mem_map_of_mem hx

theorem mem_rows {rows : Rows edges} {u v : String} : Adjacent edges u v ↔ ∃ r ∈ rows.all u, r.2.1 = v := by
  unfold Rows.all Adjacent
  constructor
  · rintro ⟨e, he, ⟨rfl, rfl⟩ | ⟨rfl, rfl⟩⟩
    · refine ⟨(e.relation, e.target, e.weight), List.mem_append_left _ ((rows.outgoing_perm _).mem_iff.2 ?_), rfl⟩
      exact List.mem_map_of_mem (f := fun e : Edge F => (e.relation, e.target, e.weight)) (by simpa using he)
    · refine ⟨(e.relation, e.source, e.weight), List.mem_append_right _ ((rows.incoming_perm _).mem_iff.2 ?_), rfl⟩
      exact List.mem_map_of_mem (f := fun e : Edge F => (e.relation, e.source, e.weight)) (by simpa using he)
  · rintro ⟨r, hr, rfl⟩
    rcases List.mem_append.1 hr with hr | hr
    · obtain ⟨e, he, rfl⟩ := List.mem_map.1 ((rows.outgoing_perm u).mem_iff.1 hr)
      obtain ⟨he, hu⟩ := List.mem_filter.1 he
      exact ⟨e, he, .inl ⟨by simpa using hu, rfl⟩⟩
    · obtain ⟨e, he, rfl⟩ := List.mem_map.1 ((rows.incoming_perm u).mem_iff.1 hr)
      obtain ⟨he, hu⟩ := List.mem_filter.1 he
      exact ⟨e, he, .inr ⟨by simpa using hu, rfl⟩⟩

theorem walkMemory_expanded (edges : List (Edge F)) (start : String) (maxDepth : Nat) :
    (walkMemory edges maxDepth maxDepth start (.start start)).Ok start ∧
      Expanded (Adjacent edges) start maxDepth (Met start (InMemoryKg.walk edges start maxDepth)) := by
  have hin : start ∈ (Walk.start start : Walk F).visited := by simp [Walk.start]
  obtain ⟨hext, hself⟩ := @walkMemory_extends F edges start maxDepth maxDepth start _ (Nat.le_refl _) (ok_start start) hin
  exact ⟨hext.ok, hext.expanded hself⟩

theorem walkSqlite_expanded (rows : Rows edges) (start : String) (maxDepth : Nat) :
    (walkSqlite rows.all maxDepth maxDepth start (.start start)).Ok start ∧
      Expanded (Adjacent edges) start maxDepth (Met start (SqliteKg.walk rows start maxDepth)) := by
  have hin : start ∈ (Walk.start start : Walk F).visited := by simp [Walk.start]
  have hrows : ∀ u v, Adjacent edges u v ↔ ∃ r ∈ rows.all u, r.2.1 = v := fun u v => mem_rows
  obtain ⟨hext, hself⟩ := walkSqlite_extends hrows (Nat.le_refl maxDepth) (ok_start start) hin
  exact ⟨hext.ok, hext.expanded hself⟩

/-- Both walks are exact, and find the same values, exactly when neither cuts off a value within the depth. -/
theorem walk_exact_iff (edges : List (Edge F)) (rows : Rows edges) (start : String) (maxDepth : Nat) :
    (Exact edges start maxDepth (InMemoryKg.walk edges start maxDepth) ∧
        Exact edges start maxDepth (SqliteKg.walk rows start maxDepth) ∧
        ∀ v, v ∈ (InMemoryKg.walk edges start maxDepth).map (·.value) ↔
          v ∈ (SqliteKg.walk rows start maxDepth).map (·.value)) ↔
      NoneCutOff edges start maxDepth (InMemoryKg.walk edges start maxDepth) ∧
        NoneCutOff edges start maxDepth (SqliteKg.walk rows start maxDepth) := by
  obtain ⟨hmem, hmemx⟩ := walkMemory_expanded edges start maxDepth
  obtain ⟨hsql, hsqlx⟩ := walkSqlite_expanded rows start maxDepth
  have hm := exact_iff hmem hmemx
  have hs := exact_iff hsql hsqlx
  constructor
  · rintro ⟨h₁, h₂, -⟩
    exact ⟨hm.1 h₁, hs.1 h₂⟩
  · rintro ⟨h₁, h₂⟩
    have e₁ := hm.2 h₁
    have e₂ := hs.2 h₂
    exact ⟨e₁, e₂, fun v => (e₁.2 v).trans (e₂.2 v).symm⟩

theorem noneCutOff_of_noDetour {w : Walk F} (hok : w.Ok start)
    (h : Expanded (Adjacent edges) start maxDepth (Met start w.result))
    (hnear : NoDetour (Adjacent edges) start maxDepth) : NoneCutOff edges start maxDepth w.result :=
  h.metAll_iff.1 fun _ hv => h.metAll_of_noDetour (fun _ _ _ => Met.depth_unique hok) hnear (Nat.le_refl _) hv

/-- A graph without detours is walked exactly, whatever the order of its edges and of the rows. -/
theorem walk_exact_of_noDetour (edges : List (Edge F)) (rows : Rows edges) (start : String) (maxDepth : Nat)
    (h : NoDetour (Adjacent edges) start maxDepth) :
    Exact edges start maxDepth (InMemoryKg.walk edges start maxDepth) ∧
      Exact edges start maxDepth (SqliteKg.walk rows start maxDepth) ∧
      ∀ v, v ∈ (InMemoryKg.walk edges start maxDepth).map (·.value) ↔
        v ∈ (SqliteKg.walk rows start maxDepth).map (·.value) := by
  obtain ⟨hmem, hmemx⟩ := walkMemory_expanded edges start maxDepth
  obtain ⟨hsql, hsqlx⟩ := walkSqlite_expanded rows start maxDepth
  exact (walk_exact_iff edges rows start maxDepth).2
    ⟨noneCutOff_of_noDetour hmem hmemx h, noneCutOff_of_noDetour hsql hsqlx h⟩

/-- What holds of both walks always: distinct values, none of them the start, each within the depth. -/
theorem walk_sound (edges : List (Edge F)) (rows : Rows edges) (start : String) (maxDepth : Nat) :
    ∀ hits ∈ [InMemoryKg.walk edges start maxDepth, SqliteKg.walk rows start maxDepth],
      (start :: hits.map (·.value)).Nodup ∧ ∀ h ∈ hits, Within (Adjacent edges) start maxDepth h.value := by
  have hone {w : Walk F} (hok : w.Ok start) (hx : Expanded (Adjacent edges) start maxDepth (Met start w.result)) :
      (start :: w.result.map (·.value)).Nodup ∧ ∀ h ∈ w.result, Within (Adjacent edges) start maxDepth h.value := by
    refine ⟨hok.nodup, fun h hh => ?_⟩
    have hmet : Met start w.result h.value h.depth := .inr ⟨h, hh, rfl, rfl⟩
    exact (hx.within hmet).mono (hx.le_bound hmet)
  intro hits hhits
  rcases List.mem_pair.1 hhits with rfl | rfl
  · exact hone (walkMemory_expanded edges start maxDepth).1 (walkMemory_expanded edges start maxDepth).2
  · exact hone (walkSqlite_expanded rows start maxDepth).1 (walkSqlite_expanded rows start maxDepth).2

/-- The queries answer in the order of the edges. -/
def Rows.inOrder (edges : List (Edge F)) : Rows edges where
  outgoing v := (edges.filter (·.source = v)).map fun e => (e.relation, e.target, e.weight)
  incoming v := (edges.filter (·.target = v)).map fun e => (e.relation, e.source, e.weight)
  outgoing_perm _ := List.Perm.refl _
  incoming_perm _ := List.Perm.refl _

/-- A square with a double side and a self edge. -/
def Sample.square : List (Edge Unit) :=
  [⟨"s", "a", "knows", ()⟩, ⟨"a", "b", "knows", ()⟩, ⟨"b", "c", "knows", ()⟩, ⟨"c", "s", "knows", ()⟩,
    ⟨"a", "s", "likes", ()⟩, ⟨"c", "c", "knows", ()⟩]

theorem Sample.square_adjacent {u v : String} (h : Adjacent square u v) : (u, v) ∈
    [("s", "a"), ("a", "s"), ("a", "b"), ("b", "a"), ("b", "c"), ("c", "b"), ("c", "s"), ("s", "c"), ("c", "c")] := by
  obtain ⟨e, he, h⟩ := h
  simp only [square, List.mem_cons, List.not_mem_nil, or_false] at he
  rcases he with rfl | rfl | rfl | rfl | rfl | rfl <;> rcases h with ⟨rfl, rfl⟩ | ⟨rfl, rfl⟩ <;> decide

/-- The only path of two steps to `a` comes through `b`. -/
theorem Sample.square_noDetour : NoDetour (Adjacent square) "s" 2 := by
  have hsa : Adjacent square "s" "a" := ⟨⟨"s", "a", "knows", ()⟩, by simp [square], .inl ⟨rfl, rfl⟩⟩
  have hsc : Adjacent square "s" "c" := ⟨⟨"c", "s", "knows", ()⟩, by simp [square], .inr ⟨rfl, rfl⟩⟩
  have hab : Adjacent square "a" "b" := ⟨⟨"a", "b", "knows", ()⟩, by simp [square], .inl ⟨rfl, rfl⟩⟩
  have hstart (v : String) : ∀ p, SimplePath (Adjacent square) "s" "s" p → p.length = 2 → v ∈ p := by
    intro p hp hlen
    rw [hp.eq_nil] at hlen
    cases hlen
  intro v hv hne
  obtain ⟨u, huv⟩ : ∃ u, Adjacent square u v := by
    rcases hv with (hv | ⟨u, -, huv⟩) | ⟨u, -, huv⟩
    · exact absurd hv hne
    · exact ⟨u, huv⟩
    · exact ⟨u, huv⟩
  have hcorner : v = "a" ∨ v = "b" ∨ v = "c" := by
    have hmem := square_adjacent huv
    simp only [List.mem_cons, Prod.mk.injEq, List.not_mem_nil, or_false] at hmem
    tauto
  rcases hcorner with rfl | rfl | rfl
  · exact ⟨"s", 0, rfl, hne, hsa, hstart _⟩
  · refine ⟨"a", 1, .inr ⟨"s", rfl, hsa⟩, ?_, hab, fun p hp hlen => ?_⟩
    · rintro (hv | ⟨u, rfl, hadj⟩)
      · exact hne hv
      · exact absurd (square_adjacent hadj) (by decide)
    · generalize hx : "a" = x at hp
      cases hp with
      | origin => exact absurd hx (by decide)
      | @step u _ p hu hadj _ =>
        subst hx
        have hmem := square_adjacent hadj
        simp only [List.mem_cons, Prod.mk.injEq, List.not_mem_nil, or_false] at hmem
        have hside : u = "s" ∨ u = "b" := by tauto
        rcases hside with rfl | rfl
        · rw [hu.eq_nil] at hlen
          cases hlen
        · exact List.mem_cons_self
  · exact ⟨"s", 0, rfl, hne, hsc, hstart _⟩

/-- Both walks go round the square from both sides, and meet each corner once. -/
theorem walk_exact_square : NoDetour (Adjacent Sample.square) "s" 2 ∧
    Exact Sample.square "s" 2 (InMemoryKg.walk Sample.square "s" 2) ∧
    Exact Sample.square "s" 2 (SqliteKg.walk (Rows.inOrder Sample.square) "s" 2) ∧
    ∀ v, v ∈ (InMemoryKg.walk Sample.square "s" 2).map (·.value) ↔
      v ∈ (SqliteKg.walk (Rows.inOrder Sample.square) "s" 2).map (·.value) :=
  ⟨Sample.square_noDetour, walk_exact_of_noDetour _ _ _ _ Sample.square_noDetour⟩

/-- `b` is first met behind `a`, at depth 2; `c` is behind `b`, two steps from the start. -/
def Sample.detour : List (Edge Unit) :=
  [⟨"s", "a", "knows", ()⟩, ⟨"a", "b", "knows", ()⟩, ⟨"s", "b", "knows", ()⟩, ⟨"b", "c", "knows", ()⟩]

open Sample in
/-- The store in memory misses `c`, and the one in SQLite finds it. -/
theorem walk_misses :
    (¬ ∀ (edges : List (Edge Unit)) (start : String) (maxDepth : Nat),
      Exact edges start maxDepth (InMemoryKg.walk edges start maxDepth)) ∧
    ¬ ∀ (edges : List (Edge Unit)) (rows : Rows edges) (start : String) (maxDepth : Nat) (v : String),
      v ∈ (InMemoryKg.walk edges start maxDepth).map (·.value) ↔
        v ∈ (SqliteKg.walk rows start maxDepth).map (·.value) := by
  have hmem : (InMemoryKg.walk detour "s" 2).map (·.value) = ["a", "b"] := by decide
  have hsql : (SqliteKg.walk (Rows.inOrder detour) "s" 2).map (·.value) = ["a", "b", "c"] := by decide
  constructor
  · intro h
    have hb : Within (Adjacent detour) "s" 1 "b" :=
      .inr ⟨"s", rfl, ⟨"s", "b", "knows", ()⟩, by simp [detour], .inl ⟨rfl, rfl⟩⟩
    have hc : Within (Adjacent detour) "s" 2 "c" :=
      .inr ⟨"b", hb, ⟨"b", "c", "knows", ()⟩, by simp [detour], .inl ⟨rfl, rfl⟩⟩
    have hin := ((h detour "s" 2).2 "c").2 ⟨by decide, hc⟩
    rw [hmem] at hin
    exact absurd hin (by decide)
  · intro h
    have hin := (h detour (Rows.inOrder detour) "s" 2 "c").2 (by rw [hsql]; decide)
    rw [hmem] at hin
    exact absurd hin (by decide)

end Metalogos.Knowledge
