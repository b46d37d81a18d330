import Metalogos.Flow.Run

/-!
# Checkpoint and resume

`resume_transparent`: a run that is stopped behind any step of its pipeline and resumed from a
checkpoint it passed does what the rest of the run does from the saved value and the saved variables,
and so what the run that was not stopped does: the same result, the same variables, the same calls.
The steps have to be deterministic: functions of the value and the variables. The table of checkpoints
gives a value back with its markers (`Metalogos.Flow.Json`); the fallback in memory keeps it as it is.
-/
namespace Metalogos.Flow

open Metalogos.Lang Metalogos.Lib Metalogos.Rules

variable {F W : Type}

/-! ## What a step leaves alone -/

/-- Nothing a flow keeps between its steps has changed, and some calls were made. -/
structure Frame (s s' : Interpreter F W) : Prop where
  vars : s'.vars = s.vars
  branchDefs : s'.branchDefs = s.branchDefs
  checkpointDb : s'.checkpointDb = s.checkpointDb
  checkpointMem : s'.checkpointMem = s.checkpointMem

namespace Frame

theorem refl (s : Interpreter F W) : Frame s s := ⟨rfl, rfl, rfl, rfl⟩

theorem trans {s s' s'' : Interpreter F W} (h : Frame s s') (h' : Frame s' s'') : Frame s s'' :=
  ⟨h'.vars.trans h.vars, h'.branchDefs.trans h.branchDefs, h'.checkpointDb.trans h.checkpointDb,
    h'.checkpointMem.trans h.checkpointMem⟩

end Frame

section Frames

variable [FloatModel F] (m : Engine F W)

omit [FloatModel F] in
theorem invoke_frame (name : String) (v : Value F) (s : Interpreter F W) :
    Frame s (invoke m name v s).2 := ⟨rfl, rfl, rfl, rfl⟩

theorem evalExpr_frame (e : Expr F) (s : Interpreter F W) : Frame s (evalExpr m e s).2 :=
  ⟨rfl, rfl, rfl, rfl⟩

theorem evalBranchCondition_frame (b : Branch F) (v : Value F) (s : Interpreter F W) :
    Frame s (evalBranchCondition m b v s).2 := by
  have h := evalExpr_frame m b.threshold s
  unfold evalBranchCondition
  split
  · exact .refl s
  · split <;> rename_i he <;> rw [he] at h <;> exact h

theorem runBranches_frame (stepName : String) (v : Value F) (branches : List (Branch F))
    (s : Interpreter F W) : Frame s (runBranches m stepName v branches s).2 := by
  induction branches generalizing s with
  | nil => exact .refl s
  | cons b rest ih =>
    have h := evalBranchCondition_frame m b v s
    rw [runBranches]
    split <;> rename_i s' he <;> rw [he] at h
    · exact h
    · exact h.trans (invoke_frame m b.target v s')
    · exact h.trans (ih s')

theorem runFlowStep_frame (stepName : String) (v : Value F) (s : Interpreter F W) :
    Frame s (runFlowStep m stepName v s).2 := by
  unfold runFlowStep
  split
  · exact runBranches_frame m stepName v _ s
  · exact invoke_frame m stepName v s

end Frames

/-- A save changes nothing but the checkpoints. -/
structure Saves (s s' : Interpreter F W) : Prop where
  vars : s'.vars = s.vars
  branchDefs : s'.branchDefs = s.branchDefs
  invoked : s'.invoked = s.invoked
  isSome : s'.checkpointDb.isSome = s.checkpointDb.isSome

theorem saveCheckpoint_saves (flow cp : String) (i : Nat) (v : Value F) (s : Interpreter F W) :
    Saves s (saveCheckpoint flow cp i v s) := by
  unfold saveCheckpoint
  split <;> rename_i h <;> exact ⟨rfl, rfl, rfl, by simp [h]⟩

theorem saveAll_saves (flow : FlowDecl F) (i : Nat) (v : Value F) (s : Interpreter F W) :
    Saves s (saveAll flow i v s) := by
  unfold saveAll
  induction checkpointAt flow i generalizing s with
  | nil => exact ⟨rfl, rfl, rfl, rfl⟩
  | cons cp rest ih =>
    have h := saveCheckpoint_saves flow.name cp i v s
    have hrest := ih (saveCheckpoint flow.name cp i v s)
    exact ⟨hrest.vars.trans h.vars, hrest.branchDefs.trans h.branchDefs,
      hrest.invoked.trans h.invoked, hrest.isSome.trans h.isSome⟩

/-! ## Deterministic steps -/

def FlowDecl.branches (flow : FlowDecl F) : List (Branch F) := flow.branchDefs.flatMap (·.2)

/-- The names a step of the flow can invoke. -/
def FlowDecl.targets (flow : FlowDecl F) : List String :=
  flow.pipeline ++ flow.branches.map (·.target)

/-- What a step of the flow yields depends on its value and the variables only. -/
structure Deterministic [FloatModel F] (m : Engine F W) (flow : FlowDecl F) : Prop where
  invoke : ∀ name ∈ flow.targets, ∀ vars args w w',
    (m.invoke vars name args w).1 = (m.invoke vars name args w').1
  threshold : ∀ b ∈ flow.branches, ∀ vars w w',
    (evalIn m.walker vars b.threshold w).1 = (evalIn m.walker vars b.threshold w').1

/-- Two interpreters with the same variables, on the same flow. -/
structure Twin (s t : Interpreter F W) : Prop where
  vars : s.vars.get = t.vars.get
  branchDefs : s.branchDefs = t.branchDefs

/-- A run from `s` and one from `t` end alike and made the same calls. -/
structure Alike {α : Type} (s t : Interpreter F W) (r q : α × Interpreter F W) : Prop where
  result : r.1 = q.1
  twin : Twin r.2 q.2
  calls : ∃ c, r.2.invoked = s.invoked ++ c ∧ q.2.invoked = t.invoked ++ c

namespace Alike

variable {α β : Type} {s t s' t' : Interpreter F W}

theorem refl {a : α} (h : Twin s t) : Alike s t (a, s) (a, t) :=
  ⟨rfl, h, [], by simp⟩

/-- Runs that go on from runs that ended alike. -/
theorem trans {r q : α × Interpreter F W} {r' q' : β × Interpreter F W} (h : Alike s t r q)
    (h' : Alike r.2 q.2 r' q') : Alike s t r' q' := by
  obtain ⟨c, hr, hq⟩ := h.calls
  obtain ⟨c', hr', hq'⟩ := h'.calls
  exact ⟨h'.result, h'.twin, c ++ c', by rw [hr', hr, List.append_assoc],
    by rw [hq', hq, List.append_assoc]⟩

end Alike

section Deterministic

variable [FloatModel F] {m : Engine F W} {flow : FlowDecl F} {s t : Interpreter F W}

theorem invoke_alike (hdet : Deterministic m flow) {name : String} (hname : name ∈ flow.targets)
    (v : Value F) (h : Twin s t) : Alike s t (invoke m name v s) (invoke m name v t) := by
  refine ⟨?_, ⟨h.vars, h.branchDefs⟩, [(name, v)], rfl, rfl⟩
  show (m.invoke s.vars.get name [v] s.world).1 = (m.invoke t.vars.get name [v] t.world).1
  rw [h.vars]
  exact hdet.invoke name hname _ _ _ _

theorem evalExpr_alike (hdet : Deterministic m flow) {b : Branch F} (hb : b ∈ flow.branches)
    (h : Twin s t) : Alike s t (evalExpr m b.threshold s) (evalExpr m b.threshold t) := by
  refine ⟨?_, ⟨h.vars, h.branchDefs⟩, [], by simp [evalExpr]⟩
  show (evalIn m.walker s.vars.get b.threshold s.world).1 =
    (evalIn m.walker t.vars.get b.threshold t.world).1
  rw [h.vars]
  exact hdet.threshold b hb _ _ _

theorem evalBranchCondition_alike (hdet : Deterministic m flow) {b : Branch F}
    (hb : b ∈ flow.branches) (v : Value F) (h : Twin s t) :
    Alike s t (evalBranchCondition m b v s) (evalBranchCondition m b v t) := by
  have hexpr := evalExpr_alike hdet hb h
  unfold evalBranchCondition
  cases v.getField b.field with
  | error e => exact .refl h
  | ok fieldVal =>
    rcases hs : evalExpr m b.threshold s with ⟨x, s'⟩
    rcases ht : evalExpr m b.threshold t with ⟨y, t'⟩
    rw [hs, ht] at hexpr
    obtain rfl : x = y := hexpr.result
    cases x with
    | error e => exact hexpr.trans (.refl hexpr.twin)
    | ok threshold => exact hexpr.trans (.refl hexpr.twin)

theorem runBranches_alike (hdet : Deterministic m flow) (stepName : String) (v : Value F)
    {branches : List (Branch F)} (hbs : ∀ b ∈ branches, b ∈ flow.branches) (h : Twin s t) :
    Alike s t (runBranches m stepName v branches s) (runBranches m stepName v branches t) := by
  induction branches generalizing s t with
  | nil => exact .refl h
  | cons b rest ih =>
    have hb : b ∈ flow.branches := hbs b List.mem_cons_self
    have hcond := evalBranchCondition_alike hdet hb v h
    rw [runBranches, runBranches]
    rcases hs : evalBranchCondition m b v s with ⟨x, s'⟩
    rcases ht : evalBranchCondition m b v t with ⟨y, t'⟩
    rw [hs, ht] at hcond
    obtain rfl : x = y := hcond.result
    match x with
    | .error e => exact hcond.trans (.refl hcond.twin)
    | .ok true =>
      have htarget : b.target ∈ flow.targets :=
        List.mem_append_right _ (List.mem_map_of_mem hb)
      exact hcond.trans (invoke_alike hdet htarget v hcond.twin)
    | .ok false =>
      exact hcond.trans (ih (fun b hb => hbs b (List.mem_cons_of_mem _ hb)) hcond.twin)

omit [FloatModel F] in
/-- A branch that is found for a step is one of the flow's. -/
theorem mem_branchTable {flow : FlowDecl F} {name : String} {branches : List (Branch F)}
    (h : (branchTable flow).get name = some branches) : ∀ b ∈ branches, b ∈ flow.branches := by
  have hfold : ∀ (defs : List (String × List (Branch F))) (d : Dict String (List (Branch F))),
      (defs.foldl (fun d p => d.set p.1 p.2) d).get name = some branches →
      d.get name = some branches ∨ ∃ p ∈ defs, p.2 = branches := by
    intro defs
    induction defs with
    | nil => exact fun d h => .inl h
    | cons p defs ih =>
      intro d h
      rcases ih _ h with h | ⟨q, hq, rfl⟩
      · rw [Dict.get_set] at h
        split at h
        · exact .inr ⟨p, List.mem_cons_self, Option.some.inj h⟩
        · exact .inl h
      · exact .inr ⟨q, List.mem_cons_of_mem _ hq, rfl⟩
  rcases hfold _ _ h with h | ⟨p, hp, rfl⟩
  · cases h
  · exact fun b hb => List.mem_flatMap.2 ⟨p, hp, hb⟩

theorem runFlowStep_alike (hdet : Deterministic m flow) {name : String} (hname : name ∈ flow.pipeline)
    (v : Value F) (hflow : s.branchDefs = branchTable flow) (h : Twin s t) :
    Alike s t (runFlowStep m name v s) (runFlowStep m name v t) := by
  unfold runFlowStep
  rw [← h.branchDefs]
  split
  · rename_i branches hget
    rw [hflow] at hget
    exact runBranches_alike hdet name v (mem_branchTable hget) h
  · exact invoke_alike hdet (List.mem_append_left _ hname) v h

/-- The steps of a flow, from twins. -/
theorem runSteps_alike (hdet : Deterministic m flow) (start i : Nat) {names : List String}
    (hnames : ∀ n ∈ names, n ∈ flow.pipeline) (v : Value F) (hflow : s.branchDefs = branchTable flow)
    (h : Twin s t) :
    Alike s t (runSteps m flow start i names v s) (runSteps m flow start i names v t) := by
  induction names generalizing i v s t with
  | nil => exact .refl h
  | cons name rest ih =>
    have hrest : ∀ n ∈ rest, n ∈ flow.pipeline := fun n hn => hnames n (List.mem_cons_of_mem _ hn)
    rw [runSteps, runSteps]
    split
    · exact ih (i + 1) hrest v hflow h
    have hstep := runFlowStep_alike hdet (hnames name List.mem_cons_self) v hflow h
    have hframe := runFlowStep_frame m name v s
    rcases hs : runFlowStep m name v s with ⟨x, s'⟩
    rcases ht : runFlowStep m name v t with ⟨y, t'⟩
    rw [hs] at hframe
    rw [hs, ht] at hstep
    obtain rfl : x = y := hstep.result
    cases x with
    | error e => exact hstep.trans (.refl hstep.twin)
    | ok v' =>
      have hs' := saveAll_saves flow i v' s'
      have ht' := saveAll_saves flow i v' t'
      -- the saves are behind the step, and no part of what the two runs have in common
      have hsaved : Alike s t (v', saveAll flow i v' s') (v', saveAll flow i v' t') := by
        obtain ⟨c, hcs, hct⟩ := hstep.calls
        refine ⟨rfl, ⟨?_, ?_⟩, c, hs'.invoked.trans hcs, ht'.invoked.trans hct⟩
        · rw [hs'.vars, ht'.vars]
          exact hstep.twin.vars
        · rw [hs'.branchDefs, ht'.branchDefs]
          exact hstep.twin.branchDefs
      refine hsaved.trans (ih (i + 1) hrest v' ?_ hsaved.twin)
      exact hs'.branchDefs.trans (hframe.branchDefs.trans hflow)

end Deterministic

/-! ## Where a run starts -/

section Loop

variable [FloatModel F] (m : Engine F W) (flow : FlowDecl F)

/-- Once the steps before `start` are skipped it does not matter any more. -/
theorem runSteps_started {start i : Nat} (h : start ≤ i) (names : List String) (v : Value F)
    (s : Interpreter F W) : runSteps m flow start i names v s = runSteps m flow 0 i names v s := by
  induction names generalizing i v s with
  | nil => rfl
  | cons name rest ih =>
    rw [runSteps, runSteps, if_neg (Nat.not_lt.2 h), if_neg (Nat.not_lt_zero i)]
    split
    · rfl
    · exact ih (Nat.le_succ_of_le h) _ _

theorem runSteps_skip {start i : Nat} {skipped : List String} (h : i + skipped.length = start)
    (names : List String) (v : Value F) (s : Interpreter F W) :
    runSteps m flow start i (skipped ++ names) v s = runSteps m flow 0 start names v s := by
  induction skipped generalizing i with
  | nil =>
    obtain rfl : i = start := h
    exact runSteps_started m flow le_rfl names v s
  | cons name rest ih =>
    have hlt : i < start := by
      rw [List.length_cons] at h
      omega
    rw [List.cons_append, runSteps, if_pos hlt]
    exact ih (by rw [List.length_cons] at h; omega)

/-- The steps behind steps that went through. -/
theorem runSteps_append {i : Nat} {names : List String} {v v' : Value F} {s s' : Interpreter F W}
    (h : runSteps m flow 0 i names v s = (.ok v', s')) (rest : List String) :
    runSteps m flow 0 i (names ++ rest) v s = runSteps m flow 0 (i + names.length) rest v' s' := by
  induction names generalizing i v s with
  | nil =>
    obtain ⟨⟨⟩, ⟨⟩⟩ := h
    rfl
  | cons name names ih =>
    rw [runSteps, if_neg (Nat.not_lt_zero i)] at h
    rw [List.cons_append, runSteps, if_neg (Nat.not_lt_zero i)]
    split at h
    · cases h
    · rw [ih h, List.length_cons]
      congr 1
      omega

/-- The steps in front of steps that went through. -/
theorem runSteps_split {i : Nat} {names rest : List String} {v v' : Value F} {s s' : Interpreter F W}
    (h : runSteps m flow 0 i (names ++ rest) v s = (.ok v', s')) :
    ∃ u t, runSteps m flow 0 i names v s = (.ok u, t) := by
  induction names generalizing i v s with
  | nil => exact ⟨v, s, rfl⟩
  | cons name names ih =>
    rw [List.cons_append, runSteps, if_neg (Nat.not_lt_zero i)] at h
    rw [runSteps, if_neg (Nat.not_lt_zero i)]
    split at h
    · cases h
    · exact ih h

end Loop

/-! ## What is saved and what is loaded -/

section Stored

variable (w : Wire F)

/-- The checkpoint is in the store the interpreter has. -/
def Saved (flow cp : String) (d : CheckpointData F) (s : Interpreter F W) : Prop :=
  match s.checkpointDb with
  | some db => db.get (flow, cp) = some (toJson d)
  | none => s.checkpointMem.get (memKey flow cp) = some d

/-- A state the text of the table can hold. -/
structure Fits (d : CheckpointData F) : Prop where
  depth : (toJson d).depth ≤ w.limit
  value : Kept w d.currentValue
  vars : KeptFields w d.vars.pairs

/-- A value as the store of the interpreter gives it back. -/
def reload (s : Interpreter F W) (v : Value F) : Value F :=
  if s.checkpointDb.isSome then masked v else v

def reloadVars (s : Interpreter F W) (vars : Dict String (Value F)) : Dict String (Value F) :=
  ⟨vars.pairs.map fun p => (p.1, reload s p.2)⟩

theorem reload_plain {s : Interpreter F W} {v : Value F} (h : s.checkpointDb.isSome → Plain v) :
    reload s v = v := by
  unfold reload
  split
  · rename_i hdb
    exact masked_plain v (h hdb)
  · rfl

theorem get_reloadVars (s : Interpreter F W) (vars : Dict String (Value F)) (x : String) :
    (reloadVars s vars).get x = (vars.get x).map (reload s) := by
  obtain ⟨ps⟩ := vars
  simp only [Dict.get, reloadVars]
  induction ps with
  | nil => rfl
  | cons p ps ih =>
    rw [List.map_cons, List.lookup_cons, List.lookup_cons, ih]
    cases x == p.1 <;> rfl

theorem maskedFields_eq (fields : List (String × Value F)) :
    maskedFields fields = fields.map fun p => (p.1, masked p.2) := by
  induction fields with
  | nil => rfl
  | cons p fields ih =>
    rw [maskedFields, ih]
    rfl

theorem get_restore (saved vars : Dict String (Value F)) (x : String) :
    (restore saved vars).get x = (saved.get x).or (vars.get x) := by
  obtain ⟨ps⟩ := saved
  simp only [restore, Dict.get]
  induction ps with
  | nil => rfl
  | cons p ps ih =>
    have hset := Dict.get_set (ps.foldr (fun p d => d.set p.1 p.2) vars) p.1 x p.2
    simp only [Dict.get] at hset
    rw [List.foldr_cons, hset, ih, List.lookup_cons]
    by_cases hx : x = p.1
    · simp [hx]
    · rw [if_neg hx, beq_eq_false_iff_ne.2 hx]

/-- What was saved is loaded, as the store gives it back. -/
theorem load_saved {flow cp : String} {d : CheckpointData F} {s : Interpreter F W}
    (h : Saved flow cp d s) (hfits : s.checkpointDb.isSome → Fits w d) :
    loadCheckpoint w flow cp s = .ok (some
      { d with currentValue := reload s d.currentValue, vars := reloadVars s d.vars }) := by
  unfold Saved at h
  unfold loadCheckpoint
  cases hdb : s.checkpointDb with
  | none =>
    rw [hdb] at h
    simp only at h
    simp only [h, reload, reloadVars, hdb, Option.isSome_none]
    simp
  | some db =>
    rw [hdb] at h
    simp only at h
    obtain ⟨hdepth, hvalue, hvars⟩ := hfits (by rw [hdb]; rfl)
    have htext : (w.fromStr (toJson d)).toOption.bind ofJson =
        ofJson ((toJson d).reread w) := by
      rw [Wire.fromStr, if_pos hdepth]
      rfl
    have hread : ofJson ((toJson d).reread w) =
        (do
          let current ← decode ((encode d.currentValue).reread w)
          let fields ← decodeFields (rereadFields w (encodeFields d.vars.pairs))
          some ⟨d.flowName, d.checkpointName, d.stepIndex, current, ⟨fields⟩⟩) := rfl
    rw [decode_encode _ hvalue, decode_fields _ hvars] at hread
    simp only [h, htext, hread, reload, reloadVars, hdb, maskedFields_eq]
    rfl

theorem saveCheckpoint_saved (flow cp : String) (i : Nat) (v : Value F) (s : Interpreter F W) :
    Saved flow cp ⟨flow, cp, i, v, s.vars⟩ (saveCheckpoint flow cp i v s) := by
  unfold Saved saveCheckpoint
  cases hdb : s.checkpointDb with
  | none => simp [Dict.get_set]
  | some db => simp [Dict.get_set]

theorem memKey_inj {flow cp cp' : String} (h : memKey flow cp = memKey flow cp') : cp = cp' := by
  have := congrArg String.toList h
  simp only [memKey, String.toList_append, List.append_cancel_left_eq] at this
  exact String.toList_inj.1 this

/-- A save under another name leaves a checkpoint alone. -/
theorem saveCheckpoint_other {flow cp cp' : String} (hne : cp ≠ cp') {d : CheckpointData F} {i : Nat}
    {v : Value F} {s : Interpreter F W} (h : Saved flow cp d s) :
    Saved flow cp d (saveCheckpoint flow cp' i v s) := by
  have hkey : memKey flow cp ≠ memKey flow cp' := fun h => hne (memKey_inj h)
  unfold Saved saveCheckpoint at *
  cases hdb : s.checkpointDb with
  | none =>
    rw [hdb] at h
    simpa [hdb, Dict.get_set, hkey] using h
  | some db =>
    rw [hdb] at h
    simpa [Dict.get_set, hne] using h

end Stored

theorem mem_checkpointAt {flow : FlowDecl F} {cp : String} {i : Nat} :
    cp ∈ checkpointAt flow i ↔ flow.checkpoints.get cp = some i := by
  simp [checkpointAt, Dict.mem_select]

section SaveAll

variable {flow : FlowDecl F} {cp : String} {d : CheckpointData F} {i : Nat} {v : Value F}
  {s : Interpreter F W}

theorem saveAll_other (h : Saved flow.name cp d s) (hne : flow.checkpoints.get cp ≠ some i) :
    Saved flow.name cp d (saveAll flow i v s) := by
  have hall : ∀ c ∈ checkpointAt flow i, cp ≠ c := by
    rintro c hc rfl
    exact hne (mem_checkpointAt.1 hc)
  unfold saveAll
  generalize checkpointAt flow i = names at hall
  induction names generalizing s with
  | nil => exact h
  | cons c rest ih =>
    exact ih (saveCheckpoint_other (hall c List.mem_cons_self) h)
      fun c hc => hall c (List.mem_cons_of_mem _ hc)

theorem saveAll_saved (hcp : flow.checkpoints.get cp = some i) :
    Saved flow.name cp ⟨flow.name, cp, i, v, s.vars⟩ (saveAll flow i v s) := by
  -- the last save under the name counts, and those behind it have other names
  have hlist : ∀ (names : List String) (s : Interpreter F W),
      cp ∈ names ∨ Saved flow.name cp ⟨flow.name, cp, i, v, s.vars⟩ s →
      Saved flow.name cp ⟨flow.name, cp, i, v, s.vars⟩
        (names.foldl (fun s cp => saveCheckpoint flow.name cp i v s) s) := by
    intro names
    induction names with
    | nil => exact fun s h => h.resolve_left List.not_mem_nil
    | cons c rest ih =>
      intro s h
      have hvars := (saveCheckpoint_saves flow.name c i v s).vars
      rw [List.foldl_cons, ← hvars]
      apply ih
      by_cases hc : cp = c
      · subst hc
        rw [hvars]
        exact .inr (saveCheckpoint_saved flow.name cp i v s)
      · rw [hvars]
        rcases h with h | h
        · exact .inl ((List.mem_cons.1 h).resolve_left hc)
        · exact .inr (saveCheckpoint_other hc h)
  exact hlist _ s (.inl (mem_checkpointAt.2 hcp))

end SaveAll

section Run

variable [FloatModel F] {m : Engine F W} {w : Wire F} {flow : FlowDecl F} {s s' : Interpreter F W}

/-- What stands in the interpreter behind any number of steps. -/
structure Held (s s' : Interpreter F W) : Prop where
  vars : s'.vars = s.vars
  branchDefs : s'.branchDefs = s.branchDefs
  isSome : s'.checkpointDb.isSome = s.checkpointDb.isSome

theorem runSteps_held (m : Engine F W) (flow : FlowDecl F) (start i : Nat) (names : List String)
    (v : Value F) (s : Interpreter F W) :
    Held s (runSteps m flow start i names v s).2 := by
  induction names generalizing i v s with
  | nil => exact ⟨rfl, rfl, rfl⟩
  | cons name rest ih =>
    have hframe := runFlowStep_frame m name v s
    rw [runSteps]
    split
    · exact ih _ _ _
    split
    · rename_i t he
      rw [he] at hframe
      exact ⟨hframe.vars, hframe.branchDefs, by rw [hframe.checkpointDb]⟩
    · rename_i current t he
      rw [he] at hframe
      have hs := saveAll_saves flow i current t
      have hrest := ih (i + 1) current (saveAll flow i current t)
      exact ⟨hrest.vars.trans (hs.vars.trans hframe.vars),
        hrest.branchDefs.trans (hs.branchDefs.trans hframe.branchDefs),
        hrest.isSome.trans (hs.isSome.trans (by rw [hframe.checkpointDb]))⟩

/-- A checkpoint stays what it is while later steps run. -/
theorem runSteps_saved {cp : String} {d : CheckpointData F} {k i : Nat}
    (hcp : flow.checkpoints.get cp = some k) (hk : k < i) (names : List String) (v : Value F)
    (h : Saved flow.name cp d s) : Saved flow.name cp d (runSteps m flow 0 i names v s).2 := by
  induction names generalizing i v s with
  | nil => exact h
  | cons name rest ih =>
    have hframe := runFlowStep_frame m name v s
    rw [runSteps, if_neg (Nat.not_lt_zero i)]
    have hstep : Saved flow.name cp d (runFlowStep m name v s).2 := by
      unfold Saved at *
      rwa [hframe.checkpointDb, hframe.checkpointMem]
    split <;> rename_i t he <;> rw [he] at hstep
    · exact hstep
    · refine ih (by omega) _ (saveAll_other hstep ?_)
      rw [hcp, Ne, Option.some.injEq]
      omega

/-- A run that is not resumed: it evaluates the source, and goes through the steps. -/
theorem runFor_new {n : Nat} {v : Value F} (hnew : ∀ cp, s.resumeTarget ≠ some (flow.name, cp))
    (h : runFor m w flow n s = (.ok v, s')) :
    ∃ v₀ s₀, Held { s with branchDefs := branchTable flow } s₀ ∧
      ∀ n, runFor m w flow n s = runSteps m flow 0 0 (flow.pipeline.take n) v₀ s₀ := by
  have hpoint : resumePoint w flow { s with branchDefs := branchTable flow } =
      (.ok none, { s with branchDefs := branchTable flow }) := by
    unfold resumePoint
    cases ht : s.resumeTarget with
    | none => rfl
    | some t =>
      have hne : t.1 ≠ flow.name := fun hf => hnew t.2 (by rw [ht, ← hf])
      simp [hne]
  have hframe := evalExpr_frame m flow.source { s with branchDefs := branchTable flow }
  rcases he : evalExpr m flow.source { s with branchDefs := branchTable flow } with ⟨x, s₀⟩
  rw [he] at hframe
  cases x with
  | error e => simp [runFor, hpoint, he] at h
  | ok v₀ =>
    refine ⟨v₀, s₀, ⟨hframe.vars, hframe.branchDefs, by rw [hframe.checkpointDb]⟩, fun n => ?_⟩
    simp only [runFor, hpoint, he]

/-- A run up to a step it saves at. -/
theorem runFor_saved {k : Nat} {cp : String} {v₀ v : Value F} {s₀ : Interpreter F W}
    (hcp : flow.checkpoints.get cp = some k) (hk : k < flow.pipeline.length)
    (h : runSteps m flow 0 0 (flow.pipeline.take (k + 1)) v₀ s₀ = (.ok v, s')) :
    Saved flow.name cp ⟨flow.name, cp, k, v, s'.vars⟩ s' := by
  have hlen : (flow.pipeline.take k).length = k := by
    rw [List.length_take]
    omega
  rw [List.take_succ_eq_append_getElem hk] at h
  obtain ⟨u, t, hfront⟩ := runSteps_split m flow h
  rw [runSteps_append m flow hfront, hlen, Nat.zero_add, runSteps, if_neg (Nat.not_lt_zero k)] at h
  split at h
  · cases h
  · rename_i current t' he
    obtain ⟨⟨⟩, ⟨⟩⟩ := h
    rw [(saveAll_saves flow k v t').vars]
    exact saveAll_saved hcp

/-! ## Resumption -/

/-- The rest of a run: the steps behind the `k`th, from a value and a state. -/
def runRest (m : Engine F W) (flow : FlowDecl F) (k : Nat) (v : Value F) (s : Interpreter F W) :
    Except String (Value F) × Interpreter F W :=
  runSteps m flow 0 (k + 1) (flow.pipeline.drop (k + 1)) v s

/-- The program is run again, to resume the flow: the stores are those the stopped run left, and no
name is declared that the stopped run did not have. -/
structure Restarted (flow : FlowDecl F) (cp : String) (s fresh : Interpreter F W) : Prop where
  target : fresh.resumeTarget = some (flow.name, cp)
  checkpointDb : fresh.checkpointDb = s.checkpointDb
  checkpointMem : s.checkpointDb = none → fresh.checkpointMem = s.checkpointMem
  declared : ∀ x, (fresh.vars.get x).isSome → (s.vars.get x).isSome

theorem Alike.shown {s t : Interpreter F W} {r q : Except String (Value F) × Interpreter F W}
    (h : Alike s t r q) : Alike s t (shown r) (shown q) :=
  ⟨by rw [Flow.shown, Flow.shown, h.result], h.twin, h.calls⟩

omit [FloatModel F] in
theorem resumePoint_loaded (t : Interpreter F W) {cp : String} {d : CheckpointData F}
    (htarget : t.resumeTarget = some (flow.name, cp))
    (hload : loadCheckpoint w flow.name cp t = .ok (some d)) :
    resumePoint w flow t = (.ok (some (d.stepIndex + 1, d.currentValue)),
      { t with vars := restore d.vars t.vars, resumeTarget := none }) := by
  unfold resumePoint
  rw [htarget]
  simp only [if_true]
  rw [hload]

/-- A resumed run starts behind the checkpoint. -/
theorem runFlow_resumed {fresh : Interpreter F W} {cp : String} {d : CheckpointData F}
    (htarget : fresh.resumeTarget = some (flow.name, cp))
    (hload : loadCheckpoint w flow.name cp fresh = .ok (some d))
    (hk : d.stepIndex < flow.pipeline.length) :
    runFlow m w flow fresh = shown (runRest m flow d.stepIndex d.currentValue
      { fresh with
        branchDefs := branchTable flow, vars := restore d.vars fresh.vars, resumeTarget := none }) := by
  have hpoint := resumePoint_loaded { fresh with branchDefs := branchTable flow } htarget hload
  have hlen : 0 + (flow.pipeline.take (d.stepIndex + 1)).length = d.stepIndex + 1 := by
    rw [List.length_take]
    omega
  rw [runFlow, runFor, hpoint]
  simp only
  rw [List.take_length, runRest]
  conv_lhs => rw [← List.take_append_drop (d.stepIndex + 1) flow.pipeline]
  rw [runSteps_skip m flow hlen]

/-- Behind a step that went through, a run that is not resumed is the run from the value and the state
that step left. -/
theorem runFor_behind {k : Nat} {v : Value F} (hk : k < flow.pipeline.length)
    (hnew : ∀ cp, s.resumeTarget ≠ some (flow.name, cp))
    (h : runFor m w flow (k + 1) s = (.ok v, s')) :
    Held { s with branchDefs := branchTable flow } s' ∧
    (∀ cp, flow.checkpoints.get cp = some k → Saved flow.name cp ⟨flow.name, cp, k, v, s'.vars⟩ s') ∧
    ∀ n, k + 1 ≤ n → runFor m w flow n s =
      runSteps m flow 0 (k + 1) ((flow.pipeline.take n).drop (k + 1)) v s' := by
  obtain ⟨v₀, s₀, hheld, hrun⟩ := runFor_new hnew h
  rw [hrun] at h
  have hlen : 0 + (flow.pipeline.take (k + 1)).length = k + 1 := by
    rw [List.length_take]
    omega
  have hsteps := runSteps_held m flow 0 0 (flow.pipeline.take (k + 1)) v₀ s₀
  rw [h] at hsteps
  refine ⟨?_, fun cp hcp => runFor_saved hcp hk h, fun n hn => ?_⟩
  · exact ⟨hsteps.vars.trans hheld.vars, hsteps.branchDefs.trans hheld.branchDefs,
      hsteps.isSome.trans hheld.isSome⟩
  · have happ := runSteps_append m flow h ((flow.pipeline.take n).drop (k + 1))
    rw [hlen] at happ
    rw [hrun, ← happ]
    conv_lhs => rw [← List.take_append_drop (k + 1) (flow.pipeline.take n)]
    rw [List.take_take, Nat.min_eq_left hn]

/-- The stopped run's checkpoint is what the resumed run loads. -/
theorem load_restarted {sk sj fresh : Interpreter F W} {cp : String} {k j : Nat} {vk vj : Value F}
    (hnew : ∀ cp, s.resumeTarget ≠ some (flow.name, cp))
    (hcp : flow.checkpoints.get cp = some k) (hk : k < j) (hj : j ≤ flow.pipeline.length)
    (hsaved : runFor m w flow (k + 1) s = (.ok vk, sk)) (hcrash : runFor m w flow j s = (.ok vj, sj))
    (hfits : s.checkpointDb.isSome → Fits w ⟨flow.name, cp, k, vk, sk.vars⟩)
    (hfresh : Restarted flow cp sj fresh) :
    sj.vars = sk.vars ∧ loadCheckpoint w flow.name cp fresh =
      .ok (some ⟨flow.name, cp, k, reload s vk, reloadVars s sk.vars⟩) := by
  obtain ⟨hheld, hcheckpoint, hbehind⟩ := runFor_behind (by omega) hnew hsaved
  rw [hbehind j hk] at hcrash
  have hsteps := runSteps_held m flow 0 (k + 1) ((flow.pipeline.take j).drop (k + 1)) vk sk
  have hstored := runSteps_saved (m := m) hcp (Nat.lt_succ_self k)
    ((flow.pipeline.take j).drop (k + 1)) vk (hcheckpoint cp hcp)
  rw [hcrash] at hsteps hstored
  have hdb : fresh.checkpointDb.isSome = s.checkpointDb.isSome := by
    rw [hfresh.checkpointDb, hsteps.isSome, hheld.isSome]
  have hloaded : Saved flow.name cp ⟨flow.name, cp, k, vk, sk.vars⟩ fresh := by
    unfold Saved at *
    rw [hfresh.checkpointDb]
    simp only at hstored
    split at hstored
    · exact hstored
    · rename_i hnone
      rwa [hfresh.checkpointMem hnone]
  have hload := load_saved w hloaded fun h => hfits (hdb ▸ h)
  have hreload : reload fresh = reload s := by
    funext v
    rw [reload, reload, hdb]
  refine ⟨hsteps.vars, ?_⟩
  simpa only [reloadVars, hreload] using hload

omit [FloatModel F] in
/-- The variables a resumed run goes on with. -/
theorem restored_vars {saved vars : Dict String (Value F)}
    (h : ∀ x, (vars.get x).isSome → (saved.get x).isSome) :
    (restore (reloadVars s saved) vars).get = (reloadVars s saved).get := by
  funext x
  rw [get_restore, get_reloadVars]
  cases hx : saved.get x with
  | some v => rfl
  | none =>
    have hnone : vars.get x = none := by
      have := h x
      rw [hx] at this
      cases hv : vars.get x with
      | none => rfl
      | some v => simp [hv] at this
    simp [hnone]

/-- A flow is stopped behind step `j` and resumed from a checkpoint it passed. The resumed run is the rest
of the run from the state the checkpoint gives back; and if the checkpoint was in memory, or nothing in
the state has a marker, it ends as the run that is not stopped, with the calls that were left to make. -/
theorem resume_transparent {sk sj fresh : Interpreter F W} {cp : String} {k j : Nat} {vk vj : Value F}
    (hdet : Deterministic m flow) (hnew : ∀ cp, s.resumeTarget ≠ some (flow.name, cp))
    (hcp : flow.checkpoints.get cp = some k) (hk : k < j) (hj : j ≤ flow.pipeline.length)
    (hsaved : runFor m w flow (k + 1) s = (.ok vk, sk)) (hcrash : runFor m w flow j s = (.ok vj, sj))
    (hfits : s.checkpointDb.isSome → Fits w ⟨flow.name, cp, k, vk, sk.vars⟩)
    (hfresh : Restarted flow cp sj fresh) :
    Alike fresh sk (runFlow m w flow fresh)
      (shown (runRest m flow k (reload s vk) { sk with vars := reloadVars s sk.vars })) ∧
    ((s.checkpointDb.isSome → Plain vk ∧ ∀ x v, sk.vars.get x = some v → Plain v) →
      Alike fresh sk (runFlow m w flow fresh) (runFlow m w flow s)) := by
  obtain ⟨hvars, hload⟩ := load_restarted hnew hcp hk hj hsaved hcrash hfits hfresh
  obtain ⟨hheld, -, hbehind⟩ := runFor_behind (by omega) hnew hsaved
  have hresumed := runFlow_resumed (m := m) hfresh.target hload (by simp only; omega)
  have hrestored : (restore (reloadVars s sk.vars) fresh.vars).get = (reloadVars s sk.vars).get :=
    restored_vars (hvars ▸ hfresh.declared)
  have hnames : ∀ n ∈ flow.pipeline.drop (k + 1), n ∈ flow.pipeline := fun n hn => List.mem_of_mem_drop hn
  have hrest (t : Interpreter F W) (ht : t.vars.get = (reloadVars s sk.vars).get)
      (hdefs : t.branchDefs = branchTable flow) (hcalls : t.invoked = sk.invoked) :
      Alike fresh sk (runFlow m w flow fresh) (shown (runRest m flow k (reload s vk) t)) := by
    rw [hresumed]
    have h := (runSteps_alike (s := { fresh with
        branchDefs := branchTable flow, vars := restore (reloadVars s sk.vars) fresh.vars,
        resumeTarget := none }) (t := t) hdet 0 (k + 1) hnames (reload s vk) rfl
      ⟨hrestored.trans ht.symm, hdefs.symm⟩).shown
    exact ⟨h.result, h.twin, hcalls ▸ h.calls⟩
  refine ⟨hrest _ rfl hheld.branchDefs rfl, fun hplain => ?_⟩
  have hvalue : reload s vk = vk := reload_plain fun h => (hplain h).1
  have hget : sk.vars.get = (reloadVars s sk.vars).get := by
    funext x
    rw [get_reloadVars]
    cases hx : sk.vars.get x with
    | none => rfl
    | some v => rw [Option.map_some, reload_plain fun h => (hplain h).2 x v hx]
  have h := hrest sk hget hheld.branchDefs rfl
  rw [hvalue, runRest] at h
  rw [runFlow, runFlow, hbehind flow.pipeline.length (by omega), List.take_length]
  rwa [runFlow] at h

end Run

/-! ## Two programs -/

/-- A text that keeps every number. -/
def exactText : Wire Int := ⟨some, 127, "recursion limit exceeded"⟩

/-- A program without declarations. -/
def bareWalker : Walk.Interpreter Int Unit where
  call _ _ w := (.ok .unit, w)
  resolve _ := none
  resolveQualified _ name := .error ("undefined function: '" ++ name ++ "'")
  arity _ := 0
  globals _ := none
  reflexNames _ := none
  memorize _ _ w := w
  forget _ _ w := w
  relate _ _ _ w := w
  sandbox := false
  iterLimit := 100000

/-- `trim`, and a pattern whose body is `redact(key, "pii")`: a key that is no personal datum comes out
as it is. -/
def keyEngine : Engine Int Unit where
  walker := bareWalker
  invoke vars name args w :=
    match name, vars "key", args with
    | "show_key", some (.secret key), _ => (.ok (.string key), w)
    | "trim", _, v :: _ => (.ok v, w)
    | _, _, _ => (.error (codedError "UNDEFINED_FUNCTION" ("undefined function: '" ++ name ++ "'")), w)

/-- `flow Sign { input: String = "x" -> trim -> checkpoint("mid") -> show_key -> output }` -/
def keyFlow : FlowDecl Int where
  name := "Sign"
  source := .stringLit "x"
  pipeline := ["trim", "show_key"]
  branchDefs := []
  checkpoints := ⟨[("mid", 0)]⟩

/-- The interpreter before the flow, with a secret and a persistent memory. -/
def keyed : Interpreter Int Unit where
  vars := ⟨[("key", .secret "blue")]⟩
  branchDefs := .empty
  checkpointDb := some .empty
  checkpointMem := .empty
  resumeTarget := none
  world := ()
  invoked := []

/-- The program started again, to resume behind the checkpoint. -/
def keyedAgain : Interpreter Int Unit :=
  setResumeTarget "Sign" "mid"
    { keyed with checkpointDb := (runFor keyEngine exactText keyFlow 1 keyed).2.checkpointDb }

/-- The declared secret is there again, and the marker of the checkpoint is put over it. -/
theorem secret_masked :
    Deterministic keyEngine keyFlow ∧
    (runFor keyEngine exactText keyFlow 1 keyed).1.isOk = true ∧
    Restarted keyFlow "mid" (runFor keyEngine exactText keyFlow 1 keyed).2 keyedAgain ∧
    (runFlow keyEngine exactText keyFlow keyed).1 = .ok "blue" ∧
    (runFlow keyEngine exactText keyFlow keyedAgain).1 = .ok "[SECRET]" := by
  refine ⟨⟨fun _ _ _ _ _ _ => rfl, nofun⟩, rfl, ⟨rfl, rfl, fun _ => rfl, fun x h => h⟩, rfl, rfl⟩


/-- A list with a record in it. -/
def rome : Value Int := .list [.string "Rome", .struct "City" [("people", .float 3)]]

/-- The same program without a secret. -/
def cities : Interpreter Int Unit := { keyed with vars := ⟨[("cities", rome)]⟩ }

def citiesFlow : FlowDecl Int := { keyFlow with pipeline := ["trim", "trim"] }

def citiesAgain : Interpreter Int Unit :=
  setResumeTarget "Sign" "mid"
    { cities with checkpointDb := (runFor keyEngine exactText citiesFlow 1 cities).2.checkpointDb }

theorem resume_transparent_cities :
    Alike citiesAgain (runFor keyEngine exactText citiesFlow 1 cities).2
      (runFlow keyEngine exactText citiesFlow citiesAgain)
      (runFlow keyEngine exactText citiesFlow cities) := by
  have hsaved : runFor keyEngine exactText citiesFlow (0 + 1) cities =
      (.ok (.string "x"), (runFor keyEngine exactText citiesFlow 1 cities).2) := rfl
  have hfits : Fits exactText ⟨"Sign", "mid", 0, .string "x", cities.vars⟩ := by
    refine ⟨by decide, trivial, ⟨trivial, ⟨rfl, trivial⟩, trivial⟩, trivial⟩
  have hdet : Deterministic keyEngine citiesFlow := ⟨fun _ _ _ _ _ _ => rfl, nofun⟩
  have hnew (cp : String) : cities.resumeTarget ≠ some (citiesFlow.name, cp) := nofun
  have hfresh : Restarted citiesFlow "mid" (runFor keyEngine exactText citiesFlow 1 cities).2
      citiesAgain := ⟨rfl, rfl, fun _ => rfl, fun x h => h⟩
  refine (resume_transparent hdet hnew (k := 0) (j := 1) rfl Nat.zero_lt_one (by decide) hsaved hsaved
    (fun _ => hfits) hfresh).2 fun _ => ⟨trivial, fun x v h => ?_⟩
  have hget : (⟨[("cities", rome)]⟩ : Dict String (Value Int)).get x = some v := h
  have hv : v = rome := by
    by_cases hx : x = "cities"
    · subst hx
      exact (Option.some.inj hget).symm
    · simp [Dict.get, List.lookup_cons, beq_eq_false_iff_ne.2 hx] at hget
  subst hv
  exact ⟨trivial, ⟨trivial, trivial⟩, trivial⟩

end Metalogos.Flow
