import Mathlib.Algebra.Order.Field.Rat
import Metalogos.Graph.Tree

/-!
# One summary for each node

What `mtree_store`, `mtree_forget` and `mtree_summarize` keep. `OneSummary` and `OneGlobal` are said of the levels of
the nodes and of the DerivedFrom edges alone, so that a graph with fewer of both keeps them; a batch of a summary adds
edges to nodes that had none.
-/
namespace Metalogos.Graph

open Metalogos.Lib MemoryGraph

variable {F : Type}

/-- A node of the level. -/
def At (g : MemoryGraph F) (level x : String) : Prop := ∃ n, g.getNode x = some n ∧ n.level = level

def Derives (g : MemoryGraph F) (a x : String) : Prop :=
  ∃ l ∈ g.links, l.source = a ∧ l.target = x ∧ l.edge.relation = .derivedFrom

/-- `x` has a summary in the L1 node `a`. -/
def Summarizes (g : MemoryGraph F) (a x : String) : Prop := Derives g a x ∧ At g "L1" a

def OneSummary (g : MemoryGraph F) : Prop :=
  ∀ x, At g "L0" x → ∀ a b, Summarizes g a x → Summarizes g b x → a = b

def OneGlobal (g : MemoryGraph F) : Prop := ∀ x y, At g "L2" x → At g "L2" y → x = y

/-- Fewer nodes and fewer edges. -/
structure Below (g' g : MemoryGraph F) : Prop where
  nodes : ∀ level x, At g' level x → At g level x
  edges : ∀ a x, Derives g' a x → Derives g a x

section

variable {g g' : MemoryGraph F} {a x s level : String}

theorem Below.summarizes (h : Below g' g) (hs : Summarizes g' a x) : Summarizes g a x :=
  ⟨h.edges a x hs.1, h.nodes _ a hs.2⟩

theorem Below.oneSummary (h : Below g' g) (hone : OneSummary g) : OneSummary g' :=
  fun x hx a b ha hb => hone x (h.nodes _ x hx) a b (h.summarizes ha) (h.summarizes hb)

theorem Below.oneGlobal (h : Below g' g) (hone : OneGlobal g) : OneGlobal g' :=
  fun x y hx hy => hone x y (h.nodes _ x hx) (h.nodes _ y hy)

theorem At.unique {level' : String} (h : At g level x) (h' : At g level' x) : level = level' := by
  obtain ⟨n, hn, rfl⟩ := h
  obtain ⟨m, hm, rfl⟩ := h'
  rw [hn] at hm
  cases hm
  rfl

theorem Derives.node (h : g.Ok) (hd : Derives g a x) : (g.getNode a).isSome = true ∧ (g.getNode x).isSome = true := by
  obtain ⟨l, hl, rfl, rfl, -⟩ := hd
  exact h.ends_of_link hl

/-! ## The operations -/

theorem below_removeNode (h : g.Ok) (id : String) : Below (g.removeNode id).1 g := by
  obtain ⟨-, hnode, hlinks⟩ := h.removeNode id
  constructor
  · rintro level x ⟨n, hn, hlevel⟩
    rw [hnode] at hn
    split_ifs at hn
    exact ⟨n, hn, hlevel⟩
  · rintro a x ⟨l, hl, hends⟩
    rw [hlinks] at hl
    exact ⟨l, (List.mem_filter.1 hl).1, hends⟩

theorem foldl_removeNode (ids : List String) : ∀ {g : MemoryGraph F}, g.Ok →
    (ids.foldl (fun g id => (g.removeNode id).1) g).Ok ∧ Below (ids.foldl (fun g id => (g.removeNode id).1) g) g ∧
    ∀ x, (ids.foldl (fun g id => (g.removeNode id).1) g).getNode x = if x ∈ ids then none else g.getNode x := by
  induction ids with
  | nil =>
    intro g h
    exact ⟨h, ⟨fun _ _ => id, fun _ _ => id⟩, fun x => by simp⟩
  | cons id ids ih =>
    intro g h
    obtain ⟨hok, hnode, -⟩ := h.removeNode id
    have hbelow := below_removeNode h id
    obtain ⟨hok', hbelow', hnode'⟩ := ih hok
    refine ⟨hok', ⟨fun level x hx => hbelow.nodes level x (hbelow'.nodes level x hx),
      fun a x hd => hbelow.edges a x (hbelow'.edges a x hd)⟩, fun x => ?_⟩
    rw [List.foldl_cons, hnode', hnode]
    by_cases hx : x = id
    · simp [hx]
    · simp [hx]

/-- A node that is added, where its identifier is new. -/
theorem at_addNode (h : g.Ok) {n : MemoryNode F} : At (g.addNode n) level x ↔
    At g level x ∨ (x = n.id ∧ g.getNode x = none ∧ n.level = level) := by
  obtain ⟨-, -, hnode⟩ := h.addNode n
  unfold At
  rw [hnode]
  by_cases hnew : x = n.id ∧ g.getNode x = none
  · rw [if_pos hnew, hnew.2]
    constructor
    · rintro ⟨m, hm, hlevel⟩
      cases hm
      exact .inr ⟨hnew.1, rfl, hlevel⟩
    · rintro (⟨m, hm, -⟩ | ⟨-, -, hlevel⟩)
      · cases hm
      · exact ⟨n, rfl, hlevel⟩
  · rw [if_neg hnew]
    constructor
    · exact .inl
    · rintro (hat | ⟨hx, hnone, -⟩)
      · exact hat
      · exact absurd ⟨hx, hnone⟩ hnew

theorem derives_addNode (h : g.Ok) {n : MemoryNode F} : Derives (g.addNode n) a x ↔ Derives g a x := by
  unfold Derives
  rw [(h.addNode n).2.1]

variable [Field F] [LinearOrder F]

theorem deriveFrom_spec (w : F) (ids : List String) : ∀ {g : MemoryGraph F}, g.Ok → (deriveFrom s w g ids).Ok ∧
    (deriveFrom s w g ids).getNode = g.getNode ∧
    ∀ a x, Derives (deriveFrom s w g ids) a x → Derives g a x ∨ (a = s ∧ x ∈ ids) := by
  induction ids with
  | nil =>
    intro g h
    exact ⟨h, rfl, fun a x hd => .inl hd⟩
  | cons id ids ih =>
    intro g h
    obtain ⟨hok, hnode, hlinks⟩ := @Ok.tryAddEdge F g _ _ s id .derivedFrom w h
    obtain ⟨hok', hnode', hedges'⟩ := ih hok
    refine ⟨hok', hnode'.trans hnode, fun a x hd => ?_⟩
    rcases hedges' a x hd with ⟨l, hl, hsource, htarget, hrel⟩ | ⟨hs, hx⟩
    · rw [hlinks] at hl
      split_ifs at hl
      · rcases List.mem_cons.1 hl with rfl | hl
        · exact .inr ⟨hsource.symm, by rw [← htarget]; exact List.mem_cons_self⟩
        · exact .inl ⟨l, hl, hsource, htarget, hrel⟩
      · exact .inl ⟨l, hl, hsource, htarget, hrel⟩
    · exact .inr ⟨hs, List.mem_cons_of_mem _ hx⟩

theorem at_deriveFrom (h : g.Ok) {w : F} {ids : List String} : At (deriveFrom s w g ids) level x ↔ At g level x := by
  unfold At
  rw [(deriveFrom_spec w ids h).2.1]

/-- Reading the graph back changes neither. -/
theorem below_reload {w : Wire F} (h : g.Ok) (hread : g.Readable w) : Below (g.reload w) g ∧ Below g (g.reload w) := by
  obtain ⟨-, hnode, hlinks⟩ := h.reload_spec hread
  refine ⟨⟨fun level x hx => ?_, fun a x hd => ?_⟩, ⟨fun level x hx => ?_, fun a x hd => ?_⟩⟩
  · obtain ⟨n, hn, hlevel⟩ := hx
    rw [hnode] at hn
    obtain ⟨n', hn', rfl⟩ := Option.map_eq_some_iff.1 hn
    exact ⟨n', hn', hlevel⟩
  · obtain ⟨l, hl, hends⟩ := hd
    obtain ⟨l', hl', rfl⟩ := List.mem_map.1 (hlinks.mem_iff.1 hl)
    exact ⟨l', hl', hends⟩
  · obtain ⟨n, hn, hlevel⟩ := hx
    refine ⟨w.node n, ?_, hlevel⟩
    rw [hnode, hn]
    rfl
  · obtain ⟨l, hl, hends⟩ := hd
    exact ⟨rereadLink w l, hlinks.mem_iff.2 (List.mem_map_of_mem hl), hends⟩

omit [Field F] [LinearOrder F] in
theorem mem_atLevel (h : g.Ok) : x ∈ (atLevel level g).map (·.id) ↔ At g level x := by
  unfold atLevel At
  simp only [List.mem_map, List.mem_filter, decide_eq_true_eq]
  constructor
  · rintro ⟨n, ⟨hn, hlevel⟩, rfl⟩
    exact ⟨n, h.mem_nodes.1 hn, hlevel⟩
  · rintro ⟨n, hn, hlevel⟩
    have hid := h.id_of_getNode hn
    exact ⟨n, ⟨h.mem_nodes.2 (by rw [hid]; exact hn), hlevel⟩, hid⟩

/-! ## A batch -/

/-- A batch adds one node at most, in L1, and the edges from it to the nodes of the batch. -/
theorem promote_spec (stamps : Stamps) (h : g.Ok) (batch : Nat × List (MemoryNode F)) :
    (promote stamps g batch).Ok ∧
    (∀ level x, At (promote stamps g batch) level x → At g level x ∨ (level = "L1" ∧ g.getNode x = none)) ∧
    ∀ a x, Summarizes (promote stamps g batch) a x →
      Summarizes g a x ∨ (a = "mt_l1_" ++ stamps.suffix batch.1 ∧ x ∈ batch.2.map (·.id)) := by
  unfold promote
  dsimp only
  generalize hl1 : (⟨"mt_l1_" ++ stamps.suffix batch.1, _, "L1", _, _, _, [], 0, 0⟩ : MemoryNode F) = l1
  obtain ⟨hok, -, -⟩ := h.addNode l1
  obtain ⟨hok', -, hedges⟩ := @deriveFrom_spec F ("mt_l1_" ++ stamps.suffix batch.1) _ _ (4 / 5) (batch.2.map (·.id)) _ hok
  have hlevel : l1.level = "L1" := by rw [← hl1]
  have hat : ∀ level x, At (deriveFrom ("mt_l1_" ++ stamps.suffix batch.1) (4 / 5) (g.addNode l1) (batch.2.map (·.id))) level x →
      At g level x ∨ (level = "L1" ∧ g.getNode x = none) := by
    intro level x hx
    rw [at_deriveFrom hok, at_addNode h] at hx
    rcases hx with hx | ⟨-, hnone, hl⟩
    · exact .inl hx
    · exact .inr ⟨hl.symm.trans hlevel, hnone⟩
  refine ⟨hok', hat, ?_⟩
  rintro a x ⟨hd, ha⟩
  rcases hedges a x hd with hd | hnew
  · rw [derives_addNode h] at hd
    rcases hat _ _ ha with ha | ⟨-, hnone⟩
    · exact .inl ⟨hd, ha⟩
    · have hsome := (Derives.node h hd).1
      rw [hnone] at hsome
      cases hsome
  · exact .inr hnew

/-- What the batches keep: the nodes to come have no summary. -/
structure Promoting (g : MemoryGraph F) (todo : List String) : Prop where
  ok : g.Ok
  one : OneSummary g
  fresh : ∀ x ∈ todo, ∀ a, ¬ Summarizes g a x

theorem Promoting.step (stamps : Stamps) {batch : Nat × List (MemoryNode F)} {todo : List String}
    (h : Promoting g (batch.2.map (·.id) ++ todo)) (hnodup : (batch.2.map (·.id) ++ todo).Nodup) :
    Promoting (promote stamps g batch) todo := by
  obtain ⟨hok, hat, hsum⟩ := promote_spec stamps h.ok batch
  refine ⟨hok, fun x hx a b ha hb => ?_, fun x hx a ha => ?_⟩
  · rcases hat _ _ hx with hx | ⟨hl, -⟩
    · rcases hsum a x ha with ha | ⟨rfl, hin⟩
      · rcases hsum b x hb with hb | ⟨rfl, hin⟩
        · exact h.one x hx a b ha hb
        · exact absurd ha (h.fresh x (List.mem_append_left _ hin) a)
      · rcases hsum b x hb with hb | ⟨rfl, -⟩
        · exact absurd hb (h.fresh x (List.mem_append_left _ hin) b)
        · rfl
    · exact absurd hl (by decide)
  · rcases hsum a x ha with ha | ⟨-, hin⟩
    · exact h.fresh x (List.mem_append_right _ hx) a ha
    · exact (List.nodup_append.1 hnodup).2.2 x hin x hx rfl

/-- Whatever is no L1 node was there before. -/
theorem foldl_promote (stamps : Stamps) (batches : List (Nat × List (MemoryNode F))) : ∀ {g : MemoryGraph F},
    Promoting g (batches.flatMap fun b => b.2.map (·.id)) → (batches.flatMap fun b => b.2.map (·.id)).Nodup →
    Promoting (batches.foldl (promote stamps) g) [] ∧
      ∀ level x, level ≠ "L1" → At (batches.foldl (promote stamps) g) level x → At g level x := by
  induction batches with
  | nil =>
    intro g h _
    exact ⟨h, fun _ _ _ hx => hx⟩
  | cons batch batches ih =>
    intro g h hnodup
    rw [List.flatMap_cons] at h hnodup
    obtain ⟨hend, hat⟩ := ih (h.step stamps hnodup) (List.nodup_append.1 hnodup).2.1
    refine ⟨hend, fun level x hl hx => ?_⟩
    rcases (promote_spec stamps h.ok batch).2.1 level x (hat level x hl hx) with hx | ⟨heq, -⟩
    · exact hx
    · exact absurd heq hl

end

theorem chunksOf_sublist {α : Type} (size n : Nat) (l : List α) : (chunksOf size n l).flatten.Sublist l := by
  induction n generalizing l with
  | zero => exact List.nil_sublist l
  | succ n ih =>
    cases l with
    | nil => exact List.nil_sublist []
    | cons x l =>
      have hrest := (List.Sublist.refl ((x :: l).take size)).append (ih ((x :: l).drop size))
      rwa [List.take_append_drop] at hrest

section

variable [Field F] [LinearOrder F] {g : MemoryGraph F} {x t suffix : String} {time : Int}

/-! ## The global summary -/

/-- An L1 node with its text. -/
def TextAt (g : MemoryGraph F) (x t : String) : Prop := ∃ n, g.getNode x = some n ∧ n.level = "L1" ∧ n.text = t

theorem globalSummary_spec (h : g.Ok) (hone : OneSummary g) (hglobal : OneGlobal g) :
    (globalSummary suffix time g).Ok ∧ OneSummary (globalSummary suffix time g) ∧
    OneGlobal (globalSummary suffix time g) ∧ ∀ x t, TextAt (globalSummary suffix time g) x t ↔ TextAt g x t := by
  unfold globalSummary
  dsimp only
  split_ifs with hthree
  · obtain ⟨hok, hbelow, hnode⟩ := foldl_removeNode ((atLevel "L2" g).map (·.id)) h
    have hkept : ∀ x n, n.level ≠ "L2" → (g.getNode x = some n ↔
        (((atLevel "L2" g).map (·.id)).foldl (fun g id => (g.removeNode id).1) g).getNode x = some n) := by
      intro x n hl
      rw [hnode]
      constructor
      · intro hn
        rw [if_neg]
        · exact hn
        · intro hin
          obtain ⟨m, hm, hml⟩ := (mem_atLevel h).1 hin
          rw [hn] at hm
          cases hm
          exact hl hml
      · intro hn
        split_ifs at hn
        exact hn
    have hcleared : ∀ x, ¬ At (((atLevel "L2" g).map (·.id)).foldl (fun g id => (g.removeNode id).1) g) "L2" x := by
      intro x hx
      have hin := (mem_atLevel h).2 (hbelow.nodes _ _ hx)
      obtain ⟨n, hn, -⟩ := hx
      rw [hnode, if_pos hin] at hn
      cases hn
    have hcone := hbelow.oneSummary hone
    generalize ((atLevel "L2" g).map (·.id)).foldl (fun g id => (g.removeNode id).1) g = cleared at *
    generalize hl2 : (⟨"mt_l2_" ++ suffix, _, "L2", _, _, _, [], 0, 0⟩ : MemoryNode F) = l2
    obtain ⟨hok₂, -, hnode₂⟩ := hok.addNode l2
    obtain ⟨hok₃, hnode₃, hedges₃⟩ := @deriveFrom_spec F ("mt_l2_" ++ suffix) _ _ (9 / 10)
      ((atLevel "L1" g).map (·.id)) _ hok₂
    have hlevel : l2.level = "L2" := by rw [← hl2]
    have hid : l2.id = "mt_l2_" ++ suffix := by rw [← hl2]
    have hat : ∀ level x, At (deriveFrom ("mt_l2_" ++ suffix) (9 / 10) (cleared.addNode l2)
        ((atLevel "L1" g).map (·.id))) level x → At cleared level x ∨ (level = "L2" ∧ x = "mt_l2_" ++ suffix) := by
      intro level x hx
      rw [at_deriveFrom hok₂, at_addNode hok] at hx
      rcases hx with hx | ⟨hxid, -, hl⟩
      · exact .inl hx
      · exact .inr ⟨hl.symm.trans hlevel, hxid.trans hid⟩
    refine ⟨hok₃, fun x hx a b ha hb => ?_, fun x y hx hy => ?_, fun x t => ?_⟩
    · have hold : ∀ a, Summarizes (deriveFrom ("mt_l2_" ++ suffix) (9 / 10) (cleared.addNode l2)
          ((atLevel "L1" g).map (·.id))) a x → At cleared "L0" x → Summarizes cleared a x := by
        rintro a ⟨hd, ha⟩ hx
        rcases hat _ _ ha with ha | ⟨hl, -⟩
        · rcases hedges₃ a x hd with hd | ⟨-, hin⟩
          · exact ⟨(derives_addNode hok).1 hd, ha⟩
          · exact absurd (((mem_atLevel h).1 hin).unique (hbelow.nodes _ _ hx)) (by decide)
        · exact absurd hl (by decide)
      rcases hat _ _ hx with hx | ⟨hl, -⟩
      · exact hcone x hx a b (hold a ha hx) (hold b hb hx)
      · exact absurd hl (by decide)
    · have hx' := (hat _ _ hx).resolve_left (hcleared x)
      have hy' := (hat _ _ hy).resolve_left (hcleared y)
      exact hx'.2.trans hy'.2.symm
    · unfold TextAt
      rw [hnode₃, hnode₂]
      constructor
      · rintro ⟨n, hn, hl, ht⟩
        split_ifs at hn with hnew
        · cases hn
          rw [hlevel] at hl
          exact absurd hl (by decide)
        · exact ⟨n, (hkept x n (by rw [hl]; decide)).2 hn, hl, ht⟩
      · rintro ⟨n, hn, hl, ht⟩
        have hn' := (hkept x n (by rw [hl]; decide)).1 hn
        refine ⟨n, ?_, hl, ht⟩
        rw [if_neg]
        · exact hn'
        · rintro ⟨-, hnone⟩
          rw [hnone] at hn'
          cases hn'
  · exact ⟨h, hone, hglobal, fun _ _ => Iff.rfl⟩

/-! ## A whole summary -/

theorem summarize_spec (stamps : Stamps) (h : g.Ok) (hone : OneSummary g) (hglobal : OneGlobal g)
    (hnew : ∀ x, At g "L0" x → ∀ a, ¬ Summarizes g a x) : (mtreeSummarize stamps g).Ok ∧
    OneSummary (mtreeSummarize stamps g) ∧ OneGlobal (mtreeSummarize stamps g) := by
  unfold mtreeSummarize
  dsimp only
  generalize hbatches : chunksOf 10 (atLevel "L0" g).length (atLevel "L0" g) = batches
  have hids : ((batches.zipIdx.map Prod.swap).flatMap fun b => b.2.map (·.id)) = batches.flatten.map (·.id) := by
    have hsnd : (batches.zipIdx.map Prod.swap).map Prod.snd = batches := by
      rw [List.map_map]
      exact List.zipIdx_map_fst 0 batches
    have hmap : ((batches.zipIdx.map Prod.swap).map Prod.snd).flatMap (fun c => c.map (·.id)) =
        (batches.zipIdx.map Prod.swap).flatMap fun b => b.2.map (·.id) := List.flatMap_map _ _ _
    rw [← hmap, hsnd, List.flatMap_def, List.map_flatten]
  have hsub : batches.flatten.Sublist (atLevel "L0" g) := by
    rw [← hbatches]
    exact chunksOf_sublist 10 _ _
  have hstart : Promoting g ((batches.zipIdx.map Prod.swap).flatMap fun b => b.2.map (·.id)) := by
    refine ⟨h, hone, fun x hx => hnew x ?_⟩
    rw [hids] at hx
    exact (mem_atLevel h).1 ((hsub.map _).subset hx)
  have hnodup : ((batches.zipIdx.map Prod.swap).flatMap fun b => b.2.map (·.id)).Nodup := by
    rw [hids]
    exact h.nodup_nodes.sublist ((hsub.trans List.filter_sublist).map _)
  obtain ⟨hend, hat⟩ := foldl_promote stamps _ hstart hnodup
  have hglobal' : OneGlobal ((batches.zipIdx.map Prod.swap).foldl (promote stamps) g) := fun x y hx hy =>
    hglobal x y (hat _ _ (by decide) hx) (hat _ _ (by decide) hy)
  obtain ⟨hok, hone', hglobal'', -⟩ := globalSummary_spec hend.ok hend.one hglobal'
  exact ⟨hok, hone', hglobal''⟩

/-- With no L0 node there is nothing to promote, and the L1 nodes stay. -/
theorem summarize_none (stamps : Stamps) (h : g.Ok) (hone : OneSummary g) (hglobal : OneGlobal g)
    (hnone : ∀ x, ¬ At g "L0" x) : ∀ x t, TextAt (mtreeSummarize stamps g) x t ↔ TextAt g x t := by
  have hempty : atLevel "L0" g = [] := by
    rw [List.eq_nil_iff_forall_not_mem]
    intro n hn
    exact hnone n.id ((mem_atLevel h).1 (List.mem_map_of_mem hn))
  unfold mtreeSummarize
  dsimp only
  rw [hempty]
  exact (globalSummary_spec h hone hglobal).2.2.2

end

/-! ## Runs -/

section

variable [Field F] [LinearOrder F] {isUppercase : Char → Bool} {w : Wire F} {s : MTree F}

/-- A summary is asked for only where no L0 node has one, and with nothing stored since the last one, only where there
is no L0 node. -/
def Ready (s : MTree F) : Op → Prop
  | .summarize _ => (∀ x, At s.graph "L0" x → ∀ a, ¬ Summarizes s.graph a x) ∧
      (s.stored = false → ∀ x, ¬ At s.graph "L0" x)
  | _ => True

def ReadyRun (isUppercase : Char → Bool) (w : Wire F) : MTree F → List Op → Prop
  | _, [] => True
  | s, op :: ops => Ready s op ∧ ReadyRun isUppercase w (step isUppercase w s op) ops

/-- What holds in every state. -/
structure Tidy (g : MemoryGraph F) : Prop where
  ok : g.Ok
  one : OneSummary g
  global : OneGlobal g

/-- A second summary leaves the L1 nodes and their texts. -/
def Settled (isUppercase : Char → Bool) (w : Wire F) (s : MTree F) : Op → Prop
  | .summarize stamps => s.stored = false →
      ∀ x t, TextAt (step isUppercase w s (.summarize stamps)).graph x t ↔ TextAt s.graph x t
  | _ => True

theorem textAt_reload {g : MemoryGraph F} (h : g.Ok) (hread : g.Readable w) (x t : String) :
    TextAt (g.reload w) x t ↔ TextAt g x t := by
  obtain ⟨-, hnode, -⟩ := h.reload_spec hread
  unfold TextAt
  rw [hnode]
  constructor
  · rintro ⟨n, hn, hl, ht⟩
    obtain ⟨n', hn', rfl⟩ := Option.map_eq_some_iff.1 hn
    exact ⟨n', hn', hl, ht⟩
  · rintro ⟨n, hn, hl, ht⟩
    exact ⟨w.node n, by rw [hn]; rfl, hl, ht⟩

theorem tidy_step (hw : ∀ x, (w.reread x).isSome = true) (h : Tidy s.graph) {op : Op} (hready : Ready s op) :
    Tidy (step isUppercase w s op).graph ∧ Settled isUppercase w s op := by
  have hread : s.graph.Readable w := ⟨fun _ _ _ => hw _, fun _ _ => hw _⟩
  obtain ⟨hbelow, habove⟩ := below_reload h.ok hread
  have hok := (h.ok.reload_spec hread).1
  have hone := hbelow.oneSummary h.one
  have hglobal := hbelow.oneGlobal h.global
  cases op with
  | store text source suffix time =>
    refine ⟨?_, trivial⟩
    unfold step mtreeStore
    dsimp only
    split_ifs
    · generalize hn : (⟨"mt_" ++ suffix, text, "L0", _, time, source, [], 0, 0⟩ : MemoryNode F) = n
      obtain ⟨hok', -, -⟩ := hok.addNode n
      have hlevel : n.level = "L0" := by rw [← hn]
      have hat : ∀ level x, level ≠ "L0" → At ((s.graph.reload w).addNode n) level x → At (s.graph.reload w) level x := by
        intro level x hne hx
        rcases (at_addNode hok).1 hx with hx | ⟨-, -, hl⟩
        · exact hx
        · exact absurd (hl.symm.trans hlevel) hne
      have hold : ∀ a x, Summarizes ((s.graph.reload w).addNode n) a x → Summarizes (s.graph.reload w) a x :=
        fun a x hs => ⟨(derives_addNode hok).1 hs.1, hat _ _ (by decide) hs.2⟩
      refine ⟨hok', fun x hx a b ha hb => ?_, fun x y hx hy => ?_⟩
      · rcases (at_addNode hok).1 hx with hx | ⟨-, hnone, -⟩
        · exact hone x hx a b (hold a x ha) (hold b x hb)
        · have hsome := (Derives.node hok (hold a x ha).1).2
          rw [hnone] at hsome
          cases hsome
      · exact hglobal x y (hat _ _ (by decide) hx) (hat _ _ (by decide) hy)
    · exact h
  | forget id =>
    refine ⟨?_, trivial⟩
    unfold step
    dsimp only
    split_ifs
    · have hless := below_removeNode hok id
      exact ⟨(hok.removeNode id).1, hless.oneSummary hone, hless.oneGlobal hglobal⟩
    · exact h
  | summarize stamps =>
    obtain ⟨hnew, hnothing⟩ := hready
    obtain ⟨hok', hone', hglobal'⟩ := summarize_spec stamps hok hone hglobal fun x hx a ha =>
      hnew x (hbelow.nodes _ x hx) a (hbelow.summarizes ha)
    have hstep : (step isUppercase w s (.summarize stamps)).graph = mtreeSummarize stamps (s.graph.reload w) := by
      rw [step]
    constructor
    · rw [hstep]
      exact ⟨hok', hone', hglobal'⟩
    · change s.stored = false →
        ∀ x t, TextAt (step isUppercase w s (.summarize stamps)).graph x t ↔ TextAt s.graph x t
      intro hstored x t
      have hnone : ∀ x, ¬ At (s.graph.reload w) "L0" x := fun x hx => hnothing hstored x (hbelow.nodes _ x hx)
      rw [hstep, summarize_none stamps hok hone hglobal hnone x t]
      exact textAt_reload h.ok hread x t

theorem tidy_run (hw : ∀ x, (w.reread x).isSome = true) (ops : List Op) : ∀ {s : MTree F}, Tidy s.graph →
    ReadyRun isUppercase w s ops → Tidy (ops.foldl (step isUppercase w) s).graph ∧
      ∀ before op after, ops = before ++ op :: after →
        Settled isUppercase w (before.foldl (step isUppercase w) s) op := by
  induction ops with
  | nil =>
    intro s h _
    exact ⟨h, fun before op after heq => by simp at heq⟩
  | cons op ops ih =>
    intro s h hrun
    obtain ⟨htidy, hsettled⟩ := tidy_step hw h hrun.1
    obtain ⟨hend, hall⟩ := ih htidy hrun.2
    refine ⟨hend, fun before op' after heq => ?_⟩
    cases before with
    | nil =>
      obtain ⟨rfl, -⟩ := List.cons.inj heq
      exact hsettled
    | cons first before =>
      obtain ⟨rfl, hrest⟩ := List.cons.inj heq
      exact hall before op' after hrest

end

/-- A run from the empty graph whose summaries are all ready. -/
theorem mtree_run [Field F] [LinearOrder F] (isUppercase : Char → Bool) {w : Wire F}
    (hw : ∀ x, (w.reread x).isSome = true) {ops : List Op} (h : ReadyRun isUppercase w ⟨.new, true⟩ ops) :
    OneSummary (ops.foldl (step isUppercase w) ⟨.new, true⟩).graph ∧
    OneGlobal (ops.foldl (step isUppercase w) ⟨.new, true⟩).graph ∧
    ∀ before op after, ops = before ++ op :: after →
      Settled isUppercase w (before.foldl (step isUppercase w) ⟨.new, true⟩) op := by
  have hnone : ∀ level x, ¬ At (new : MemoryGraph F) level x := by
    rintro level x ⟨n, hn, -⟩
    cases hn
  have hstart : Tidy (new : MemoryGraph F) :=
    ⟨ok_new, fun x hx => absurd hx (hnone _ x), fun x _ hx => absurd hx (hnone _ x)⟩
  obtain ⟨htidy, hsettled⟩ := tidy_run hw ops hstart h
  exact ⟨htidy.one, htidy.global, hsettled⟩

/-! ## Instances -/

def teaStore : Op := .store "Aa Bb Cc Dd" "user" "1" 0

def teaState (ops : List Op) : MTree ℚ := ops.foldl (step Char.isUpper exactWire) ⟨.new, true⟩

def stampsOf (suffix : String) : Stamps := ⟨fun _ => suffix, fun _ => 0⟩

theorem mtree_run_tea : OneSummary (teaState [teaStore, .summarize (stampsOf "2")]).graph := by
  have hlinks : (teaState [teaStore]).graph.links = [] := by decide +kernel
  have hstored : (teaState [teaStore]).stored = true := by decide +kernel
  have hready : Ready (teaState [teaStore]) (.summarize (stampsOf "2")) := by
    refine ⟨?_, fun hnot => absurd (hstored.symm.trans hnot) (by decide)⟩
    rintro x - a ⟨⟨l, hl, -⟩, -⟩
    rw [hlinks] at hl
    cases hl
  have hrun : ReadyRun Char.isUpper exactWire ⟨.new, true⟩ [teaStore, .summarize (stampsOf "2")] :=
    ⟨trivial, hready, trivial⟩
  exact (mtree_run Char.isUpper (fun _ => rfl) hrun).1

/-- Two calls, and the one node has two summaries. -/
theorem mtree_doubles : ¬ ∀ ops : List Op, OneSummary (teaState ops).graph := by
  intro hall
  have hnode : ∀ x level, ((teaState [teaStore, .summarize (stampsOf "2"), .summarize (stampsOf "3")]).graph.getNode x).map
      (·.level) = some level → At (teaState [teaStore, .summarize (stampsOf "2"), .summarize (stampsOf "3")]).graph level x := by
    intro x level h
    obtain ⟨n, hn, hl⟩ := Option.map_eq_some_iff.1 h
    exact ⟨n, hn, hl⟩
  have hlink : ∀ a, (⟨a, "mt_1", .derivedFrom, 4 / 5⟩ : Link ℚ) ∈
      (teaState [teaStore, .summarize (stampsOf "2"), .summarize (stampsOf "3")]).graph.links →
      Derives (teaState [teaStore, .summarize (stampsOf "2"), .summarize (stampsOf "3")]).graph a "mt_1" :=
    fun a h => ⟨_, h, rfl, rfl, rfl⟩
  have hsame := hall _ "mt_1" (hnode "mt_1" "L0" (by decide +kernel)) "mt_l1_2" "mt_l1_3"
    ⟨hlink _ (by decide +kernel), hnode _ _ (by decide +kernel)⟩
    ⟨hlink _ (by decide +kernel), hnode _ _ (by decide +kernel)⟩
  revert hsame
  decide

end Metalogos.Graph
