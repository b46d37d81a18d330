import Metalogos.Lib.Dict
import Metalogos.Lib.Fallible
import Metalogos.Lib.Json
import Metalogos.Lib.Kahn
import Metalogos.Lib.TopK

/-!
# Plans as graphs

`dag_phases` and `topo_sort` of `src/builtins/office/graph.rs`. A node names the nodes it depends on; the first builtin
puts the nodes into phases that can run one after the other, the second into one list. Both count the open dependencies
of a node down, and neither counts a dependency that is listed twice down twice, so such a node is reported as a cycle.

* `dag_phases_exact`: a graph is accepted exactly when its identifiers are distinct, its dependencies known and listed
  once and nothing depends on itself; and a node stands in the phase of its longest chain of dependencies;
* `topo_sort_exact`: with distinct identifiers the same graphs are sorted, each node behind all it depends on, whatever
  the order of the hash maps.
-/
namespace Metalogos.Dag

open Metalogos.Lib Relation

/-- What the first loop fills. -/
structure Tables where
  ids : List String
  deps : Dict String (List String)
  inDegree : Dict String Nat

def Tables.empty : Tables := ⟨[], .empty, .empty⟩

/-- mirrors src/builtins/office/graph.rs:29-36 -/
def nodeId (node : Json) : String := ((node.get "id").bind Json.asStr).getD ""

/-- mirrors src/builtins/office/graph.rs:38-46 -/
def nodeDeps (node : Json) : List String :=
  match node.get "depends_on" with
  | some (.arr items) => items.filterMap Json.asStr
  | _ => []

/-- mirrors src/builtins/office/graph.rs:27-51 and :133-157 -/
def readNodes (fnName : String) : List Json → Tables → Except String Tables
  | [], t => .ok t
  | node :: nodes, t =>
    if nodeId node = "" then .error (fnName ++ ": each node must have an 'id' field (String)")
    else
      readNodes fnName nodes ⟨t.ids ++ [nodeId node], t.deps.set (nodeId node) (nodeDeps node),
        t.inDegree.set (nodeId node) (nodeDeps node).length⟩

/-- mirrors src/builtins/office/graph.rs:53-64 and :159-170 -/
def checkDeps (fnName : String) (o : Listing (String × List String)) (t : Tables) : Except String Unit :=
  match ((o.list t.deps.pairs).flatMap fun e => e.2.map fun dep => (e.1, dep)).find? fun x => x.2 ∉ t.ids with
  | some (node, dep) => .error (fnName ++ ": node '" ++ node ++ "' depends on unknown node '" ++ dep ++ "'")
  | none => .ok ()

/-- mirrors src/builtins/office/graph.rs:97-103 -/
def release (entries : List (String × List String)) (remaining : Dict String Nat) (id : String) : Dict String Nat :=
  entries.foldl (fun r e => if id ∈ e.2 then r.modify e.1 (· - 1) else r) remaining

/-- `HashSet::insert` -/
def insertNew (processed : List String) (id : String) : List String :=
  if id ∈ processed then processed else processed ++ [id]

/-- The phases, and what is processed in the end. A phase processes an identifier that was not, so there are no more
of them than identifiers.
mirrors src/builtins/office/graph.rs:66-105 -/
def phaseLoop (o : Listing (String × List String)) (t : Tables) :
    Nat → Dict String Nat → List String → List (List String) × List String
  | 0, _, processed => ([], processed)
  | n + 1, remaining, processed =>
    let phase := t.ids.filter fun id => id ∉ processed ∧ (remaining.get id).getD 0 = 0
    if phase = [] then ([], processed)
    else
      let rest := phaseLoop o t n (phase.foldl (release (o.list t.deps.pairs)) remaining) (phase.foldl insertNew processed)
      (phase :: rest.1, rest.2)

/-- mirrors src/builtins/office/graph.rs:16-119 -/
def dagPhases (o : Listing (String × List String)) (nodes : List Json) : Except String (List (List String)) :=
  if nodes = [] then .ok []
  else do
    let t ← readNodes "dag_phases" nodes .empty
    checkDeps "dag_phases" o t
    let out := phaseLoop o t t.ids.length t.inDegree []
    if out.2.length ≠ t.ids.length then
      .error ("dag_phases: cycle detected among nodes: " ++ ", ".intercalate (t.ids.filter fun id => id ∉ out.2))
    else .ok out.1

/-- mirrors src/builtins/office/graph.rs:183-193 -/
def pushReady (id : String) (s : Dict String Nat × List String) (e : String × List String) :
    Dict String Nat × List String :=
  if id ∈ e.2 then
    match s.1.get e.1 with
    | some deg => (s.1.modify e.1 (· - 1), if deg - 1 = 0 then s.2 ++ [e.1] else s.2)
    | none => s
  else s

/-- `none`: the queue is not empty after so many rounds.
mirrors src/builtins/office/graph.rs:181-194 -/
def topoLoop (entries : List (String × List String)) :
    Nat → Dict String Nat × List String → List String → Option (List String)
  | _, (_, []), result => some result
  | 0, (_, _ :: _), _ => none
  | n + 1, (remaining, id :: queue), result =>
    topoLoop entries n (entries.foldl (pushReady id) (remaining, queue)) (result ++ [id])

/-- mirrors src/builtins/office/graph.rs:125-202 -/
def topoSort (o : Listing (String × List String)) (rounds : Nat) (nodes : List Json) :
    Option (Except String (List String)) :=
  if nodes = [] then some (.ok [])
  else
    match readNodes "topo_sort" nodes .empty with
    | .error e => some (.error e)
    | .ok t =>
      match checkDeps "topo_sort" o t with
      | .error e => some (.error e)
      | .ok _ =>
        let queue := t.ids.filter fun id => (t.inDegree.get id).getD 0 = 0
        (topoLoop (o.list t.deps.pairs) rounds (t.inDegree, queue) []).map fun result =>
          if result.length ≠ t.ids.length then .error "topo_sort: cycle detected in DAG" else .ok result

/-! ## The tables -/

/-- The dependencies of a node. -/
def Tables.needs (t : Tables) (id : String) : List String := (t.deps.get id).getD []

structure Filled (t : Tables) : Prop where
  nodup : t.deps.keys.Nodup
  listed : ∀ id, (∃ ds, t.deps.get id = some ds) ↔ id ∈ t.ids
  degrees : ∀ id, t.inDegree.get id = (t.deps.get id).map List.length

theorem filled_empty : Filled .empty := ⟨List.nodup_nil, by simp [Tables.empty], fun _ => rfl⟩

theorem filled_readNodes {fnName : String} {nodes : List Json} {t t' : Tables} (ht : Filled t)
    (h : readNodes fnName nodes t = .ok t') : Filled t' := by
  induction nodes generalizing t with
  | nil => exact Except.ok.inj h ▸ ht
  | cons node nodes ih =>
    rw [readNodes] at h
    split_ifs at h with hid
    refine ih ⟨t.deps.nodup_keys_set _ _ ht.nodup, fun id => ?_, fun id => ?_⟩ h
    · rw [Dict.get_set, List.mem_append, List.mem_singleton, ← ht.listed id]
      by_cases heq : id = nodeId node
      · simp [heq]
      · simp [heq]
    · rw [Dict.get_set, Dict.get_set, ht.degrees id]
      by_cases heq : id = nodeId node
      · simp [heq]
      · simp [heq]

section

variable {t : Tables} {o : Listing (String × List String)} {fnName : String}

theorem Filled.entry (h : Filled t) {id : String} {ds : List String} :
    (id, ds) ∈ o.list t.deps.pairs ↔ t.deps.get id = some ds :=
  o.mem_list.trans ⟨Dict.get_of_mem_pairs h.nodup, Dict.mem_pairs_of_get⟩

/-- The check passes exactly when every dependency is a node. -/
theorem Filled.checkDeps_ok (h : Filled t) :
    checkDeps fnName o t = .ok () ↔ ∀ id ∈ t.ids, t.needs id ⊆ t.ids := by
  have hnone : checkDeps fnName o t = .ok () ↔
      ((o.list t.deps.pairs).flatMap fun e => e.2.map fun dep => (e.1, dep)).find? (fun x => x.2 ∉ t.ids) = none := by
    unfold checkDeps
    split
    · next node dep hfound =>
      rw [hfound]
      exact ⟨fun hok => (by cases hok), fun hno => (by cases hno)⟩
    · next hfound => exact iff_of_true rfl hfound
  rw [hnone, List.find?_eq_none]
  constructor
  · intro hall id hid dep hdep
    obtain ⟨ds, hds⟩ := (h.listed id).2 hid
    rw [Tables.needs, hds, Option.getD_some] at hdep
    have hin := hall (id, dep) (List.mem_flatMap.2 ⟨(id, ds), h.entry.2 hds, List.mem_map.2 ⟨dep, hdep, rfl⟩⟩)
    simpa using hin
  · rintro hall ⟨id, dep⟩ hin
    obtain ⟨⟨node, ds⟩, he, hx⟩ := List.mem_flatMap.1 hin
    obtain ⟨dep', hdep, heq⟩ := List.mem_map.1 hx
    obtain ⟨rfl, rfl⟩ := Prod.mk.inj heq
    have hds := h.entry.1 he
    have hneeds : dep' ∈ t.needs node := by rwa [Tables.needs, hds]
    simpa using hall node ((h.listed node).1 ⟨ds, hds⟩) hneeds

/-- The counts of open dependencies, after `done`. -/
def Counts (t : Tables) (remaining : Dict String Nat) (done : List String) : Prop :=
  ∀ id ∈ t.ids, remaining.get id = some (missing t.needs done id)

theorem Filled.counts (h : Filled t) : Counts t t.inDegree [] := by
  intro id hid
  obtain ⟨ds, hds⟩ := (h.listed id).2 hid
  rw [h.degrees, missing, Tables.needs, hds]
  rfl

/-! ## Counting down -/

/-- The node of an entry lists `id`. -/
def Frees (entries : List (String × List String)) (id y : String) : Prop := ∃ ds, (y, ds) ∈ entries ∧ id ∈ ds

open Classical in
/-- A pass over the entries takes one from every node that lists `id`, in whatever it keeps the counts. -/
theorem foldl_frees {σ : Type} (get : σ → String → Option Nat) {f : σ → String × List String → σ} {id : String}
    (hf : ∀ s e y, get (f s e) y = if id ∈ e.2 ∧ y = e.1 then (get s y).map (· - 1) else get s y)
    {entries : List (String × List String)} (hnodup : (entries.map (·.1)).Nodup) (s : σ) (y : String) :
    get (entries.foldl f s) y = if Frees entries id y then (get s y).map (· - 1) else get s y := by
  induction entries generalizing s with
  | nil => simp [Frees]
  | cons e es ih =>
    rw [List.map_cons, List.nodup_cons] at hnodup
    rw [List.foldl_cons, ih hnodup.2, hf]
    by_cases hy : y = e.1
    · have hrest : ¬Frees es id y := by
        rintro ⟨ds, hds, -⟩
        exact hnodup.1 (hy ▸ List.mem_map_of_mem (f := Prod.fst) hds)
      have hall : Frees (e :: es) id y ↔ id ∈ e.2 := by
        constructor
        · rintro ⟨ds, hds, hid⟩
          rcases List.mem_cons.1 hds with rfl | hds
          · exact hid
          · exact absurd ⟨ds, hds, hid⟩ hrest
        · exact fun hid => ⟨e.2, by rw [hy]; exact List.mem_cons_self, hid⟩
      rw [if_neg hrest, if_congr hall rfl rfl, if_congr (and_iff_left hy) rfl rfl]
    · have hall : Frees (e :: es) id y ↔ Frees es id y := by
        constructor
        · rintro ⟨ds, hds, hid⟩
          rcases List.mem_cons.1 hds with rfl | hds
          · exact absurd rfl hy
          · exact ⟨ds, hds, hid⟩
        · rintro ⟨ds, hds, hid⟩
          exact ⟨ds, List.mem_cons_of_mem _ hds, hid⟩
      have hskip : ¬(id ∈ e.2 ∧ y = e.1) := fun hboth => hy hboth.2
      rw [if_neg hskip, if_congr hall rfl rfl]

theorem release_get (remaining : Dict String Nat) (id : String) (e : String × List String) (y : String) :
    (if id ∈ e.2 then remaining.modify e.1 (· - 1) else remaining).get y =
      if id ∈ e.2 ∧ y = e.1 then (remaining.get y).map (· - 1) else remaining.get y := by
  by_cases hid : id ∈ e.2
  · rw [if_pos hid, Dict.get_modify]
    simp [hid]
  · rw [if_neg hid]
    simp [hid]

theorem pushReady_get (s : Dict String Nat × List String) (id : String) (e : String × List String) (y : String) :
    (pushReady id s e).1.get y =
      if id ∈ e.2 ∧ y = e.1 then (s.1.get y).map (· - 1) else s.1.get y := by
  rw [← release_get, pushReady]
  by_cases hid : id ∈ e.2
  · rw [if_pos hid, if_pos hid]
    cases hdeg : s.1.get e.1 with
    | some deg => rfl
    | none =>
      rw [Dict.get_modify]
      split_ifs with hy
      · rw [hy, hdeg]
        rfl
      · rfl
  · rw [if_neg hid, if_neg hid]

theorem Filled.frees (h : Filled t) {id y : String} : Frees (o.list t.deps.pairs) id y ↔ id ∈ t.needs y := by
  constructor
  · rintro ⟨ds, hds, hid⟩
    rwa [Tables.needs, h.entry.1 hds]
  · intro hid
    cases hds : t.deps.get y with
    | none =>
      rw [Tables.needs, hds] at hid
      cases hid
    | some ds =>
      rw [Tables.needs, hds] at hid
      exact ⟨ds, h.entry.2 hds, hid⟩

theorem Filled.entries_nodup (h : Filled t) : ((o.list t.deps.pairs).map (·.1)).Nodup :=
  ((o.perm _).map _).nodup_iff.2 h.nodup

/-- After a pass for `id` the counts are those after `id` is done. -/
theorem Filled.counts_concat (h : Filled t) {remaining remaining' : Dict String Nat} {done : List String} {id : String}
    (hc : Counts t remaining done) (hget : ∀ y, (Frees (o.list t.deps.pairs) id y →
      remaining'.get y = (remaining.get y).map (· - 1)) ∧
      (¬Frees (o.list t.deps.pairs) id y → remaining'.get y = remaining.get y)) :
    Counts t remaining' (done ++ [id]) := by
  intro y hy
  rw [missing_concat]
  by_cases hid : id ∈ t.needs y
  · rw [(hget y).1 (h.frees.2 hid), hc y hy, if_pos hid]
    rfl
  · rw [(hget y).2 fun hfree => hid (h.frees.1 hfree), hc y hy, if_neg hid]
    rfl

theorem Filled.counts_release (h : Filled t) {remaining : Dict String Nat} {done : List String}
    (hc : Counts t remaining done) (id : String) :
    Counts t (release (o.list t.deps.pairs) remaining id) (done ++ [id]) := by
  refine h.counts_concat (o := o) hc fun y => ?_
  have hpass := foldl_frees Dict.get (fun r e y => release_get r id e y) (h.entries_nodup (o := o)) remaining y
  exact ⟨fun hfree => hpass.trans (if_pos hfree), fun hfree => hpass.trans (if_neg hfree)⟩

theorem Filled.counts_phase (h : Filled t) {phase : List String} {remaining : Dict String Nat} {done : List String}
    (hc : Counts t remaining done) :
    Counts t (phase.foldl (release (o.list t.deps.pairs)) remaining) (done ++ phase) := by
  induction phase generalizing remaining done with
  | nil => rwa [List.append_nil]
  | cons id phase ih =>
    rw [List.append_cons]
    exact ih (h.counts_release hc id)

/-! ## Phases -/

theorem foldl_insertNew {phase processed : List String} (hnodup : phase.Nodup) (hnew : ∀ id ∈ phase, id ∉ processed) :
    phase.foldl insertNew processed = processed ++ phase := by
  induction phase generalizing processed with
  | nil => exact (List.append_nil _).symm
  | cons id phase ih =>
    rw [List.nodup_cons] at hnodup
    rw [List.foldl_cons, insertNew, if_neg (hnew id List.mem_cons_self), ih hnodup.2, List.append_assoc]
    · rfl
    · intro y hy hin
      rcases List.mem_append.1 hin with hin | hin
      · exact hnew y (List.mem_cons_of_mem _ hy) hin
      · exact hnodup.1 (List.mem_singleton.1 hin ▸ hy)

/-- With distinct identifiers the phases are the rounds of Kahn's algorithm. -/
theorem Filled.phaseLoop_eq (h : Filled t) (hids : t.ids.Nodup) (n : Nat) {remaining : Dict String Nat}
    {done : List String} (hc : Counts t remaining done) : phaseLoop o t n remaining done =
      (kahnRounds t.needs t.ids n done, done ++ (kahnRounds t.needs t.ids n done).flatten) := by
  induction n generalizing remaining done with
  | zero => rw [phaseLoop, kahnRounds, List.flatten_nil, List.append_nil]
  | succ n ih =>
    have hphase : (t.ids.filter fun id => id ∉ done ∧ (remaining.get id).getD 0 = 0) = ready t.needs t.ids done := by
      refine List.filter_congr fun id hid => ?_
      rw [hc id hid]
      rfl
    rw [phaseLoop, kahnRounds, hphase]
    split_ifs with hnone
    · rw [List.flatten_nil, List.append_nil]
    · have hnew : ∀ id ∈ ready t.needs t.ids done, id ∉ done := fun id hid => (mem_ready.1 hid).2.1
      have hnodup : (ready t.needs t.ids done).Nodup := hids.filter _
      simp only
      rw [foldl_insertNew hnodup hnew, ih (h.counts_phase hc), List.flatten_cons, List.append_assoc]

theorem foldl_insertNew_keeps {phase processed : List String} (hnodup : processed.Nodup) (hknown : processed ⊆ t.ids)
    (hphase : phase ⊆ t.ids) :
    (phase.foldl insertNew processed).Nodup ∧ phase.foldl insertNew processed ⊆ t.ids := by
  induction phase generalizing processed with
  | nil => exact ⟨hnodup, hknown⟩
  | cons id phase ih =>
    rw [List.cons_subset] at hphase
    rw [List.foldl_cons, insertNew]
    split_ifs with hin
    · exact ih hnodup hknown hphase.2
    · refine ih (List.concat_eq_append ▸ hnodup.concat hin) ?_ hphase.2
      exact List.append_subset.2 ⟨hknown, by simpa using hphase.1⟩

theorem phaseLoop_processed (n : Nat) (remaining : Dict String Nat) {processed : List String}
    (hnodup : processed.Nodup) (hknown : processed ⊆ t.ids) :
    (phaseLoop o t n remaining processed).2.Nodup ∧ (phaseLoop o t n remaining processed).2 ⊆ t.ids := by
  induction n generalizing remaining processed with
  | zero => exact ⟨hnodup, hknown⟩
  | succ n ih =>
    rw [phaseLoop]
    split_ifs
    · exact ⟨hnodup, hknown⟩
    · obtain ⟨hnodup', hknown'⟩ := foldl_insertNew_keeps hnodup hknown List.filter_sublist.subset
      exact ih _ hnodup' hknown'

/-- What a graph needs to be one: distinct nodes, dependencies that are nodes and are listed once, and no cycle. -/
structure Acyclic (t : Tables) : Prop where
  ids : t.ids.Nodup
  known : ∀ id ∈ t.ids, t.needs id ⊆ t.ids
  plain : ∀ id ∈ t.ids, (t.needs id).Nodup
  acyclic : ∀ id ∈ t.ids, ¬TransGen (Needs t.needs) id id

end

variable {o : Listing (String × List String)} {nodes : List Json} {t : Tables}

theorem dagPhases_ok (hread : readNodes "dag_phases" nodes .empty = .ok t) {phases : List (List String)} :
    dagPhases o nodes = .ok phases ↔ (∀ id ∈ t.ids, t.needs id ⊆ t.ids) ∧
      (phaseLoop o t t.ids.length t.inDegree []).2.length = t.ids.length ∧
      (phaseLoop o t t.ids.length t.inDegree []).1 = phases := by
  have hfilled := filled_readNodes filled_empty hread
  unfold dagPhases
  split_ifs with hnil
  · subst hnil
    obtain rfl := Except.ok.inj hread
    constructor
    · intro h
      exact ⟨fun id hid => (by cases hid), rfl, Except.ok.inj h⟩
    · rintro ⟨-, -, rfl⟩
      rfl
  · rw [hread]
    change (checkDeps "dag_phases" o t >>= fun _ => _) = _ ↔ _
    rw [bind_ok]
    constructor
    · rintro ⟨_, hcheck, h⟩
      split_ifs at h with hlen
      exact ⟨hfilled.checkDeps_ok.1 hcheck, not_not.1 hlen, Except.ok.inj h⟩
    · rintro ⟨hknown, hlen, rfl⟩
      exact ⟨(), hfilled.checkDeps_ok.2 hknown, if_neg (not_not.2 hlen)⟩

/-- A graph is put into phases exactly when its nodes are distinct, its dependencies known and listed once and nothing
depends on itself; then every node stands in one phase, in the order it was given, and that phase is the number of the
longest chain of dependencies below it. -/
theorem dag_phases_exact (hread : readNodes "dag_phases" nodes .empty = .ok t) :
    ((∃ phases, dagPhases o nodes = .ok phases) ↔ Acyclic t) ∧
      ∀ phases, dagPhases o nodes = .ok phases → phases.flatten.Perm t.ids ∧
        ∀ k phase, phases[k]? = some phase → phase.Sublist t.ids ∧
          ∀ id, id ∈ phase ↔ id ∈ t.ids ∧ HasChain t.needs k id ∧ ¬HasChain t.needs (k + 1) id := by
  have hfilled := filled_readNodes filled_empty hread
  have hdistinct : (phaseLoop o t t.ids.length t.inDegree []).2.length = t.ids.length → t.ids.Nodup := by
    intro hlen
    obtain ⟨hnodup, hknown⟩ := phaseLoop_processed (o := o) t.ids.length t.inDegree List.nodup_nil
      (List.nil_subset t.ids)
    have hperm := (List.subperm_of_subset hnodup hknown).perm_of_length_le (Nat.le_of_eq hlen.symm)
    exact hperm.nodup_iff.1 hnodup
  have hdone (hids : t.ids.Nodup) : Done t.needs t.ids (kahnRounds t.needs t.ids t.ids.length []).flatten := by
    simpa using done_rounds hids t.ids.length (done_nil t.needs t.ids)
  have hcomplete (hids : t.ids.Nodup) (hknown : ∀ id ∈ t.ids, t.needs id ⊆ t.ids) :
      (phaseLoop o t t.ids.length t.inDegree []).2.length = t.ids.length ↔
        (∀ id ∈ t.ids, (t.needs id).Nodup) ∧ ∀ id ∈ t.ids, ¬TransGen (Needs t.needs) id id := by
    rw [hfilled.phaseLoop_eq hids _ hfilled.counts, List.nil_append]
    refine (hdone hids).covers_iff hids hknown ?_
    simpa using rounds_stop hids (n := t.ids.length) (done_nil t.needs t.ids) (by simp)
  refine ⟨⟨?_, fun h => ?_⟩, fun phases h => ?_⟩
  · rintro ⟨phases, h⟩
    obtain ⟨hknown, hlen, -⟩ := (dagPhases_ok hread).1 h
    obtain ⟨hplain, hacyclic⟩ := (hcomplete (hdistinct hlen) hknown).1 hlen
    exact ⟨hdistinct hlen, hknown, hplain, hacyclic⟩
  · exact ⟨_, (dagPhases_ok hread).2 ⟨h.known, (hcomplete h.ids h.known).2 ⟨h.plain, h.acyclic⟩, rfl⟩⟩
  · obtain ⟨hknown, hlen, rfl⟩ := (dagPhases_ok hread).1 h
    have hids := hdistinct hlen
    obtain ⟨hplain, -⟩ := (hcomplete hids hknown).1 hlen
    rw [hfilled.phaseLoop_eq hids _ hfilled.counts] at hlen ⊢
    rw [List.nil_append] at hlen
    refine ⟨?_, fun k phase hk => ?_⟩
    · exact (List.subperm_of_subset (hdone hids).nodup (hdone hids).known).perm_of_length_le (Nat.le_of_eq hlen.symm)
    · have hround := mem_rounds hids hknown hplain (k := 0) (done_nil _ _) (fun id _ => by simp [HasChain]) hk
      rwa [Nat.zero_add] at hround

/-! ## One list -/

/-- What the queue loop keeps: the result is done one after the other, and what is done or queued is what lacks
nothing. -/
structure Sorting (t : Tables) (remaining : Dict String Nat) (queue result : List String) : Prop where
  done : Done t.needs t.ids result
  counts : Counts t remaining result
  nodup : (result ++ queue).Nodup
  queued : ∀ id, id ∈ result ++ queue ↔ id ∈ t.ids ∧ missing t.needs result id = 0

/-- The nodes a pass puts on the queue. -/
def freed (entries : List (String × List String)) (remaining : Dict String Nat) (id : String) : List String :=
  (entries.filter fun e => id ∈ e.2 ∧ (remaining.get e.1).map (· - 1) = some 0).map (·.1)

theorem foldl_pushReady_queue {entries : List (String × List String)} (hnodup : (entries.map (·.1)).Nodup)
    (s : Dict String Nat × List String) (id : String) :
    (entries.foldl (pushReady id) s).2 = s.2 ++ freed entries s.1 id := by
  induction entries generalizing s with
  | nil => exact (List.append_nil _).symm
  | cons e es ih =>
    rw [List.map_cons, List.nodup_cons] at hnodup
    have hrest : freed es (pushReady id s e).1 id = freed es s.1 id := by
      refine congrArg (List.map Prod.fst) (List.filter_congr fun e' he' => ?_)
      have hne : e'.1 ≠ e.1 := fun heq => hnodup.1 (heq ▸ List.mem_map_of_mem he')
      rw [pushReady_get, if_neg fun h => hne h.2]
    rw [List.foldl_cons, ih hnodup.2, hrest, freed, freed, List.filter_cons, pushReady]
    by_cases hid : id ∈ e.2
    · rw [if_pos hid]
      cases hdeg : s.1.get e.1 with
      | none => simp
      | some deg =>
        by_cases hzero : deg - 1 = 0
        · simp [hid, hzero]
        · simp [hzero]
    · simp [hid]

section

variable {remaining : Dict String Nat} {queue result : List String} {id : String}

theorem Sorting.pop (hfilled : Filled t) (h : Sorting t remaining (id :: queue) result) :
    Sorting t ((o.list t.deps.pairs).foldl (pushReady id) (remaining, queue)).1
      ((o.list t.deps.pairs).foldl (pushReady id) (remaining, queue)).2 (result ++ [id]) := by
  have hentries := hfilled.entries_nodup (o := o)
  have hpass (y : String) := foldl_frees (fun s y => s.1.get y) (fun s e y => pushReady_get s id e y) hentries
    (remaining, queue) y
  have hnew : id ∉ result := fun hin =>
    (List.nodup_append.1 h.nodup).2.2 id hin id List.mem_cons_self rfl
  obtain ⟨hid, hready⟩ := (h.queued id).1 (List.mem_append_right _ List.mem_cons_self)
  have hfreed : ∀ y, y ∈ freed (o.list t.deps.pairs) remaining id ↔
      y ∈ t.ids ∧ missing t.needs result y ≠ 0 ∧ missing t.needs (result ++ [id]) y = 0 := by
    intro y
    rw [missing_concat]
    constructor
    · intro hy
      obtain ⟨⟨y, ds⟩, he, rfl⟩ := List.mem_map.1 hy
      obtain ⟨he, htest⟩ := List.mem_filter.1 he
      obtain ⟨hmem, hzero⟩ := of_decide_eq_true htest
      have hy : y ∈ t.ids := (hfilled.listed y).1 ⟨ds, hfilled.entry.1 he⟩
      have hneeds : id ∈ t.needs y := hfilled.frees.1 ⟨ds, he, hmem⟩
      rw [h.counts y hy, Option.map_some, Option.some.injEq] at hzero
      rw [if_pos hneeds]
      refine ⟨hy, fun hnone => ?_, hzero⟩
      exact hnew (((missing_eq_zero h.done.nodup).1 hnone).2 hneeds)
    · rintro ⟨hy, hsome, hnone⟩
      have hneeds : id ∈ t.needs y := by
        by_contra hno
        rw [if_neg hno] at hnone
        exact hsome hnone
      rw [if_pos hneeds] at hnone
      obtain ⟨ds, he, hmem⟩ := (hfilled.frees (o := o)).2 hneeds
      refine List.mem_map.2 ⟨(y, ds), List.mem_filter.2 ⟨he, decide_eq_true ⟨hmem, ?_⟩⟩, rfl⟩
      rw [h.counts y hy, Option.map_some, hnone]
  rw [foldl_pushReady_queue hentries]
  refine ⟨h.done.concat hid hnew hready, ?_, ?_, fun y => ?_⟩
  · exact hfilled.counts_concat (o := o) h.counts fun y =>
      ⟨fun hfree => (hpass y).trans (if_pos hfree), fun hfree => (hpass y).trans (if_neg hfree)⟩
  · rw [List.append_assoc, List.singleton_append, ← List.cons_append, ← List.append_assoc]
    refine List.nodup_append.2 ⟨h.nodup, ?_, fun y hy z hz hyz => ?_⟩
    · exact hentries.sublist (List.filter_sublist.map _)
    · subst hyz
      exact ((hfreed y).1 hz).2.1 ((h.queued y).1 hy).2
  · rw [List.append_assoc, List.singleton_append, ← List.cons_append, ← List.append_assoc, List.mem_append, h.queued,
      hfreed]
    constructor
    · rintro (⟨hy, hnone⟩ | ⟨hy, -, hnone⟩)
      · exact ⟨hy, by rw [missing_concat, hnone, Nat.zero_sub]⟩
      · exact ⟨hy, hnone⟩
    · rintro ⟨hy, hnone⟩
      by_cases hbefore : missing t.needs result y = 0
      · exact .inl ⟨hy, hbefore⟩
      · exact .inr ⟨hy, hbefore, hnone⟩

/-- The loop ends after as many rounds as there are nodes. -/
theorem Sorting.run (hfilled : Filled t) (h : Sorting t remaining queue result) {n : Nat}
    (hn : t.ids.length ≤ n + result.length) : ∃ result' remaining',
      topoLoop (o.list t.deps.pairs) n (remaining, queue) result = some result' ∧ Sorting t remaining' [] result' := by
  have hle : (result ++ queue).length ≤ t.ids.length :=
    (List.subperm_of_subset h.nodup fun y hy => ((h.queued y).1 hy).1).length_le
  induction n generalizing remaining queue result with
  | zero =>
    cases queue with
    | nil => exact ⟨result, remaining, rfl, h⟩
    | cons id queue =>
      rw [List.length_append, List.length_cons] at hle
      omega
  | succ n ih =>
    cases queue with
    | nil => exact ⟨result, remaining, rfl, h⟩
    | cons id queue =>
      have hpop := h.pop hfilled (o := o)
      refine ih hpop ?_ ?_
      · rw [List.length_append, List.length_singleton]
        omega
      · exact (List.subperm_of_subset hpop.nodup fun y hy => ((hpop.queued y).1 hy).1).length_le

end

theorem Filled.sorting (h : Filled t) (hids : t.ids.Nodup) :
    Sorting t t.inDegree (t.ids.filter fun id => (t.inDegree.get id).getD 0 = 0) [] where
  done := done_nil _ _
  counts := h.counts
  nodup := hids.filter _
  queued id := by
    rw [List.nil_append, List.mem_filter, decide_eq_true_eq]
    refine and_congr_right fun hid => ?_
    rw [h.counts id hid]
    rfl

/-- With distinct identifiers, and in any order of the hash map, the sort ends after as many rounds as there are nodes;
it accepts the graphs that can be put into phases, and every node comes behind all it depends on. -/
theorem topo_sort_exact (hread : readNodes "topo_sort" nodes .empty = .ok t) (hids : t.ids.Nodup) {n : Nat}
    (hn : t.ids.length ≤ n) :
    ∃ r, topoSort o n nodes = some r ∧ ((∃ result, r = .ok result) ↔ Acyclic t) ∧
      ∀ result, r = .ok result → result.Perm t.ids ∧
        ∀ before id after, result = before ++ id :: after → t.needs id ⊆ before := by
  have hfilled := filled_readNodes filled_empty hread
  unfold topoSort
  split_ifs with hnil
  · subst hnil
    obtain rfl := Except.ok.inj hread
    refine ⟨_, rfl, ⟨fun _ => ?_, fun _ => ⟨[], rfl⟩⟩, fun result h => ?_⟩
    · exact ⟨List.nodup_nil, by simp [Tables.empty], by simp [Tables.empty], by simp [Tables.empty]⟩
    · obtain rfl := Except.ok.inj h
      exact ⟨.refl _, by simp⟩
  · rw [hread]
    cases hcheck : checkDeps "topo_sort" o t with
    | error e =>
      refine ⟨.error e, by simp only [hcheck], ⟨?_, fun h => ?_⟩, ?_⟩
      · rintro ⟨_, h⟩
        cases h
      · rw [hfilled.checkDeps_ok.2 h.known] at hcheck
        cases hcheck
      · rintro _ h
        cases h
    | ok u =>
      have hknown := hfilled.checkDeps_ok.1 hcheck
      obtain ⟨result, remaining, hrun, hsorted⟩ := (hfilled.sorting hids).run hfilled (o := o) (n := n) (by simpa using hn)
      have hstop : ∀ id ∈ t.ids, missing t.needs result id = 0 → id ∈ result := fun id hid hready => by
        simpa using (hsorted.queued id).2 ⟨hid, hready⟩
      have hcomplete := hsorted.done.covers_iff hids hknown hstop
      refine ⟨if result.length ≠ t.ids.length then .error "topo_sort: cycle detected in DAG" else .ok result,
        by simp only [hcheck, hrun, Option.map_some], ?_, ?_⟩
      · by_cases hlen : result.length = t.ids.length
        · rw [if_neg (not_not.2 hlen)]
          obtain ⟨hplain, hacyclic⟩ := hcomplete.1 hlen
          exact ⟨fun _ => ⟨hids, hknown, hplain, hacyclic⟩, fun _ => ⟨_, rfl⟩⟩
        · rw [if_pos hlen]
          refine ⟨?_, fun h => absurd (hcomplete.2 ⟨h.plain, h.acyclic⟩) hlen⟩
          rintro ⟨_, h⟩
          cases h
      · intro result' h
        split_ifs at h with hlen
        obtain rfl := Except.ok.inj h
        have hperm := (List.subperm_of_subset hsorted.done.nodup hsorted.done.known).perm_of_length_le
          (Nat.le_of_eq (not_not.1 hlen).symm)
        exact ⟨hperm, fun before id after heq => hsorted.done.before heq⟩

/-! ## A small plan -/

def Sample.node (id : String) (deps : List String) : Json :=
  .obj [("id", .str id), ("depends_on", .arr (deps.map .str))]

/-- `c` needs `a` and `b`, and `b` needs `a`. -/
def Sample.plan : List Json := [Sample.node "c" ["a", "b"], Sample.node "b" ["a"], Sample.node "a" []]

def Sample.planTables : Tables :=
  ⟨["c", "b", "a"], ⟨[("c", ["a", "b"]), ("b", ["a"]), ("a", [])]⟩, ⟨[("c", 2), ("b", 1), ("a", 0)]⟩⟩

theorem Sample.read_plan (fnName : String) : readNodes fnName Sample.plan .empty = .ok Sample.planTables := rfl

theorem dag_phases_exact_plan :
    (∃ phases, dagPhases .asGiven Sample.plan = .ok phases) ↔ Acyclic Sample.planTables :=
  (dag_phases_exact (Sample.read_plan _)).1

theorem topo_sort_exact_plan : ∃ r, topoSort .asGiven 3 Sample.plan = some r ∧
    ((∃ result, r = .ok result) ↔ Acyclic Sample.planTables) := by
  obtain ⟨r, hr, haccepts, -⟩ := topo_sort_exact (o := .asGiven) (Sample.read_plan "topo_sort") (by decide) (n := 3)
    (by decide)
  exact ⟨r, hr, haccepts⟩

end Metalogos.Dag
