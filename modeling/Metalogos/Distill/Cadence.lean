import Metalogos.Distill.Hub

/-!
# The cadence of training

Over any run of the hub at most one job of a pattern is queued or running (`Hub.single`), and the last attempt never
passes the number of examples (`Hub.Known`). What a call decides is stale when it takes the mark: a second call that
decided on the same examples finds the mark free again once the job of the first is done, and stamps the attempt with
the number it read before (`cadence_stale`). In a run in which every call that takes the mark is still due by the
present last attempt, the attempts never go down and jobs in TEACHING are five examples apart (`cadence`).
-/
namespace Metalogos.Distill

open Metalogos.Lib

/-! ## The states of the patterns -/

theorem entry_set (states : States) (k p : String) (st : DistillRuntimeState) :
    entry (states.set k st) p = if p = k then st else entry states p := by
  unfold entry
  rw [Dict.get_set]
  split_ifs <;> rfl

theorem entry_orInsert (states : States) (k p : String) : entry (orInsert states k) p = entry states p := by
  unfold orInsert
  rw [entry_set]
  split_ifs with h
  · rw [h]
  · rfl

theorem entry_recordExample (states : States) (k i o p : String) :
    entry (recordExample states k i o) p =
      if p = k then { entry states k with examples := (entry states k).examples ++ [(i, o)] } else entry states p := by
  unfold recordExample
  exact entry_set _ _ _ _

theorem entry_modify (states : States) (k p : String) (f : DistillRuntimeState → DistillRuntimeState)
    (hk : ∃ st, states.get k = some st) :
    entry (states.modify k f) p = if p = k then f (entry states k) else entry states p := by
  unfold entry
  rw [Dict.get_modify]
  split_ifs with h
  · obtain ⟨st, hst⟩ := hk
    rw [h, hst]
    rfl
  · rfl

/-- A verdict changes the mode and nothing else, and of the pattern of its job only. -/
theorem entry_land (states : States) (k p : String) (outcome : DistillTrainOutcome) :
    (entry (land states k outcome) p).lastTrainAttempt = (entry states p).lastTrainAttempt ∧
      (entry (land states k outcome) p).examples = (entry states p).examples ∧
      (p ≠ k → entry (land states k outcome) p = entry states p) ∧
      ((∃ st, states.get p = some st) → ∃ st, (land states k outcome).get p = some st) := by
  unfold land entry
  split_ifs
  · rw [Dict.get_modify]
    split_ifs with h
    · cases states.get p <;> simp [h]
    · simp
  · rw [Dict.get_modify]
    split_ifs with h
    · cases states.get p with
      | none => simp
      | some st =>
        simp only [Option.map_some, Option.getD_some, h, ne_eq, not_true_eq_false, false_implies, true_and]
        split_ifs <;> simp
    · simp
  · simp

theorem get_set_known {states : States} {k p : String} {st : DistillRuntimeState}
    (h : ∃ st, states.get p = some st) : ∃ st', (states.set k st).get p = some st' := by
  rw [Dict.get_set]
  split_ifs
  · exact ⟨st, rfl⟩
  · exact h

/-- A call that trains has examples to train on. -/
theorem shouldTrain_pos {spec : DistillSpec} {state : DistillRuntimeState} (h : shouldTrain spec state = true) :
    0 < state.examples.length := by
  have hten : 10 ≤ trainingThreshold spec := Nat.le_max_right _ _
  unfold shouldTrain at h
  dsimp only at h
  split at h
  · obtain ⟨hcount, -⟩ := Bool.and_eq_true_iff.1 h
    have := of_decide_eq_true hcount
    omega
  · have := of_decide_eq_true h
    omega

namespace Hub

variable {s : Hub}

/-! ## One job of a pattern -/

/-- The marks, who holds them, and the jobs that have them. -/
def Flights (s : Hub) : Prop :=
  SingleFlight s.inFlight (fun i => (s.calls i).bind DistillCall.holding) (s.jobs.map (·.patternName))

/-- What a call holds after one call is changed. -/
theorem holding_setCall (s : Hub) (call : Nat) (c : Option DistillCall) :
    (fun i => (s.setCall call c i).bind DistillCall.holding) =
      Function.update (fun i => (s.calls i).bind DistillCall.holding) call (c.bind DistillCall.holding) :=
  Function.comp_update (fun c : Option DistillCall => c.bind DistillCall.holding) s.calls call c

/-- A call that holds what it held. -/
theorem Flights.same (h : s.Flights) {call : Nat} {c c' : DistillCall} (hc : s.calls call = some c)
    (hsame : c'.holding = c.holding) :
    SingleFlight s.inFlight (fun i => (s.setCall call (some c') i).bind DistillCall.holding)
      (s.jobs.map (·.patternName)) := by
  rw [holding_setCall, Option.bind_some, hsame]
  have hself : Function.update (fun i => (s.calls i).bind DistillCall.holding) call c.holding =
      fun i => (s.calls i).bind DistillCall.holding := Function.update_eq_self_iff.2 (by rw [hc]; rfl)
  rw [hself]
  exact h

/-- A call that held nothing and is over. -/
theorem Flights.over (h : s.Flights) {call : Nat} (hnone : (s.calls call).bind DistillCall.holding = none) :
    SingleFlight s.inFlight (fun i => (s.setCall call none i).bind DistillCall.holding)
      (s.jobs.map (·.patternName)) := by
  rw [holding_setCall, Option.bind_none, Function.update_eq_self_iff.2 hnone.symm]
  exact h

theorem holding_of_phase {c : DistillCall} (h : c.phase ≠ .decided) : c.holding = some c.pattern := if_neg h

theorem Flights.read (h : s.Flights) {call : Nat} (hfree : s.calls call = none) (pattern : String)
    (spec : DistillSpec) : (s.read call pattern spec).Flights := by
  unfold Hub.read Flights
  dsimp only
  split_ifs
  · rw [holding_setCall]
    have hheld : (s.calls call).bind DistillCall.holding = none := by rw [hfree]; rfl
    have hover := h.over hheld
    rwa [holding_setCall] at hover
  · exact h

theorem Flights.advance (h : s.Flights) {call : Nat} {c : DistillCall} (hc : s.calls call = some c) :
    (s.advance call c).Flights := by
  obtain ⟨pattern, spec, mode, count, phase⟩ := c
  have hheld (hphase : phase ≠ .decided) : (s.calls call).bind DistillCall.holding = some pattern := by
    rw [hc, Option.bind_some, holding_of_phase hphase]
  unfold Hub.advance Flights
  cases phase with
  | decided =>
    dsimp only
    split_ifs with hmem
    · exact h.over (by rw [hc]; rfl)
    · rw [holding_setCall]
      exact SingleFlight.take h hmem
  | marked =>
    exact h.same hc rfl
  | copied examples =>
    exact h.same hc rfl
  | stamped examples =>
    dsimp only
    split_ifs
    · rw [holding_setCall]
      have hhanded := SingleFlight.hand h (hheld (by simp))
      simpa [Hub.jobs] using hhanded
    · exact h.same hc rfl
  | dropped =>
    dsimp only
    rw [holding_setCall]
    exact SingleFlight.drop h (hheld (by simp))

theorem Flights.finish (h : s.Flights) (outcome : DistillTrainOutcome) : (s.finish outcome).Flights := by
  unfold Hub.finish Flights
  cases hrun : s.running with
  | none => exact h
  | some job =>
    have hjobs : s.jobs.map (·.patternName) = job.patternName :: s.queue.map (·.patternName) := by
      simp [Hub.jobs, hrun]
    unfold Flights at h
    rw [hjobs] at h
    exact h.land

theorem Flights.step (h : s.Flights) (a : HubStep) : (s.step a).Flights := by
  unfold Hub.step
  cases a with
  | read call pattern spec =>
    dsimp only
    split_ifs with hfree
    · exact h.read hfree pattern spec
    · exact h
  | advance call =>
    cases hc : s.calls call with
    | none => simpa only [hc] using h
    | some c => simpa only [hc] using h.advance hc
  | record pattern input output => exact h
  | receive =>
    dsimp only
    split
    · rename_i hrun hqueue
      simpa [Flights, Hub.jobs, hrun, hqueue] using h
    · exact h
  | finish outcome => exact h.finish outcome
  | trainerDies => exact h.lost

theorem Flights.run (h : s.Flights) (steps : List HubStep) : (s.run steps).Flights := by
  induction steps generalizing s with
  | nil => exact h
  | cons a steps ih => exact ih (h.step a)

theorem flights_opened (rows : List (String × String × String)) : (opened rows).Flights := SingleFlight.start

/-- At most one job of a pattern is queued or running. -/
def Single (s : Hub) : Prop := ∀ pattern, (s.jobs.filter (·.patternName = pattern)).length ≤ 1

theorem Flights.single (h : s.Flights) : s.Single := by
  intro pattern
  have hcount := List.nodup_iff_count_le_one.1 (SingleFlight.nodup h) pattern
  rwa [List.count_eq_countP, List.countP_map, List.countP_eq_length_filter,
    List.filter_congr (q := fun job => decide (job.patternName = pattern)) fun job _ => by simp [beq_eq_decide]]
    at hcount

/-! ## Attempts and examples -/

/-- A section leaves its call as it is but for the phase, or ends it, and writes no state but the stamp. -/
theorem advance_cases (s : Hub) (call : Nat) (c : DistillCall) :
    (∃ o, (s.advance call c).calls = s.setCall call o ∧
        ∀ d, o = some d → d.pattern = c.pattern ∧ d.mode = c.mode ∧ d.count = c.count) ∧
      ((s.advance call c).states = s.states ∨
        ∃ examples, c.phase = .copied examples ∧
          (s.advance call c).states = s.states.modify c.pattern fun st => { st with lastTrainAttempt := c.count }) := by
  have hnone : ∀ d : DistillCall, none = some d → d.pattern = c.pattern ∧ d.mode = c.mode ∧ d.count = c.count := by
    intro d hd
    cases hd
  have hphase (phase : Phase) : ∀ d, some { c with phase := phase } = some d →
      d.pattern = c.pattern ∧ d.mode = c.mode ∧ d.count = c.count := by
    intro d hd
    cases hd
    exact ⟨rfl, rfl, rfl⟩
  unfold Hub.advance
  split
  · split_ifs
    · exact ⟨⟨none, rfl, hnone⟩, .inl rfl⟩
    · exact ⟨⟨_, rfl, hphase .marked⟩, .inl rfl⟩
  · exact ⟨⟨_, rfl, hphase _⟩, .inl rfl⟩
  · rename_i examples hcopied
    exact ⟨⟨_, rfl, hphase (.stamped examples)⟩, .inr ⟨examples, hcopied, rfl⟩⟩
  · split_ifs
    · exact ⟨⟨none, rfl, hnone⟩, .inl rfl⟩
    · exact ⟨⟨_, rfl, hphase .dropped⟩, .inl rfl⟩
  · exact ⟨⟨none, rfl, hnone⟩, .inl rfl⟩

/-- What a step does to the states: it records, it gives a state to a pattern that has none, it lands a verdict, it
stamps, or it leaves them. -/
theorem states_step (s : Hub) (a : HubStep) :
    (s.step a).states = s.states ∨
      (∃ p, (s.step a).states = orInsert s.states p) ∨
      (∃ p i o, (s.step a).states = recordExample s.states p i o) ∨
      (∃ job outcome, s.running = some job ∧ (s.step a).states = land s.states job.patternName outcome) ∨
      ∃ call c examples, a = .advance call ∧ s.calls call = some c ∧ c.phase = .copied examples ∧
        (s.step a).states = s.states.modify c.pattern fun st => { st with lastTrainAttempt := c.count } := by
  cases a with
  | read call pattern spec =>
    simp only [Hub.step]
    split_ifs
    · exact .inr (.inl ⟨pattern, rfl⟩)
    · exact .inl rfl
  | advance call =>
    simp only [Hub.step]
    cases hc : s.calls call with
    | none => exact .inl rfl
    | some c =>
      cases (advance_cases s call c).2 with
      | inl hsame => exact .inl hsame
      | inr hstamp =>
        obtain ⟨examples, hphase, hstates⟩ := hstamp
        exact .inr (.inr (.inr (.inr ⟨call, c, examples, rfl, hc, hphase, hstates⟩)))
  | record pattern input output => exact .inr (.inr (.inl ⟨pattern, input, output, rfl⟩))
  | receive =>
    simp only [Hub.step]
    split <;> exact .inl rfl
  | finish outcome =>
    simp only [Hub.step, Hub.finish]
    cases hrun : s.running with
    | none => exact .inl rfl
    | some job => exact .inr (.inr (.inr (.inl ⟨job, outcome, rfl, rfl⟩)))
  | trainerDies => exact .inl rfl

/-- Examples only grow, and a pattern that has a state keeps it. -/
theorem entry_step (s : Hub) (a : HubStep) (p : String) :
    s.exampleCount p ≤ (s.step a).exampleCount p ∧
      ((∃ st, s.states.get p = some st) → ∃ st, (s.step a).states.get p = some st) := by
  unfold exampleCount
  obtain hsame | ⟨k, hinsert⟩ | ⟨k, i, o, hrecord⟩ | ⟨job, outcome, -, hland⟩ | ⟨-, c, -, -, -, -, hstamp⟩ :=
    states_step s a
  · rw [hsame]
    exact ⟨Nat.le_refl _, id⟩
  · rw [hinsert, entry_orInsert]
    exact ⟨Nat.le_refl _, get_set_known⟩
  · rw [hrecord, entry_recordExample]
    refine ⟨?_, get_set_known⟩
    split_ifs with h
    · simp [h]
    · exact Nat.le_refl _
  · obtain ⟨-, hexamples, -, hknown⟩ := entry_land s.states job.patternName p outcome
    rw [hland, hexamples]
    exact ⟨Nat.le_refl _, hknown⟩
  · rw [hstamp]
    unfold entry
    rw [Dict.get_modify]
    split_ifs with h
    · cases s.states.get p <;> simp
    · exact ⟨Nat.le_refl _, id⟩

/-- The attempt of a pattern is written by the stamp of a call only. -/
theorem lastAttempt_step (s : Hub) (a : HubStep) (p : String) :
    (s.step a).lastAttempt p = s.lastAttempt p ∨
      ∃ call c examples, a = .advance call ∧ s.calls call = some c ∧ c.phase = .copied examples ∧ c.pattern = p ∧
        (s.step a).lastAttempt p = c.count := by
  unfold lastAttempt
  obtain hsame | ⟨k, hinsert⟩ | ⟨k, i, o, hrecord⟩ | ⟨job, outcome, -, hland⟩ |
    ⟨call, c, examples, ha, hc, hphase, hstamp⟩ := states_step s a
  · exact .inl (by rw [hsame])
  · exact .inl (by rw [hinsert, entry_orInsert])
  · refine .inl ?_
    rw [hrecord, entry_recordExample]
    split_ifs with h
    · rw [h]
    · rfl
  · refine .inl ?_
    rw [hland]
    exact (entry_land s.states job.patternName p outcome).1
  · rw [hstamp]
    unfold entry
    rw [Dict.get_modify]
    split_ifs with h
    · cases s.states.get p with
      | none => exact .inl rfl
      | some st => exact .inr ⟨call, c, examples, ha, hc, hphase, h.symm, rfl⟩
    · exact .inl rfl

/-- A call after a step is one that was there, in whatever phase, or one that has just read. -/
theorem calls_step {a : HubStep} {i : Nat} {c' : DistillCall} (h : (s.step a).calls i = some c') :
    (∃ c, s.calls i = some c ∧ c'.pattern = c.pattern ∧ c'.mode = c.mode ∧ c'.count = c.count) ∨
      (s.step a).states = orInsert s.states c'.pattern ∧ 0 < c'.count ∧ c'.count = s.exampleCount c'.pattern ∧
        c'.phase = .decided := by
  have hold (heq : s.calls i = some c') :
      ∃ c, s.calls i = some c ∧ c'.pattern = c.pattern ∧ c'.mode = c.mode ∧ c'.count = c.count :=
    ⟨c', heq, rfl, rfl, rfl⟩
  cases a with
  | read call pattern spec =>
    simp only [Hub.step] at h ⊢
    split_ifs at h ⊢ with hfree
    · simp only [Hub.read] at h ⊢
      split_ifs at h with htrain
      · cases SingleFlight.update_eq_some h with
        | inl own =>
          obtain ⟨-, heq⟩ := own
          cases heq
          exact .inr ⟨rfl, shouldTrain_pos htrain, rfl, rfl⟩
        | inr other => exact .inl (hold other.2)
      · exact .inl (hold h)
    · exact .inl (hold h)
  | advance call =>
    simp only [Hub.step] at h
    cases hc : s.calls call with
    | none =>
      simp only [hc] at h
      exact .inl (hold h)
    | some c =>
      obtain ⟨o, hcalls, ho⟩ := (advance_cases s call c).1
      simp only [hc, hcalls] at h
      cases SingleFlight.update_eq_some h with
      | inl own => exact .inl ⟨c, own.1 ▸ hc, ho c' own.2⟩
      | inr other => exact .inl (hold other.2)
  | record pattern input output => exact .inl (hold h)
  | receive =>
    simp only [Hub.step] at h
    split at h <;> exact .inl (hold h)
  | finish outcome =>
    simp only [Hub.step, Hub.finish] at h
    split at h <;> exact .inl (hold h)
  | trainerDies => exact .inl (hold h)

/-- Every attempt, and every number of examples a call has read, is one the pattern has reached. -/
structure Known (s : Hub) : Prop where
  attempt : ∀ p, s.lastAttempt p ≤ s.exampleCount p
  state : ∀ {i c}, s.calls i = some c → ∃ st, s.states.get c.pattern = some st
  count : ∀ {i c}, s.calls i = some c → 0 < c.count ∧ c.count ≤ s.exampleCount c.pattern

theorem Known.step (h : s.Known) (a : HubStep) : (s.step a).Known where
  attempt p := by
    have hgrow := (entry_step s a p).1
    cases lastAttempt_step s a p with
    | inl hsame =>
      have hold := h.attempt p
      omega
    | inr hstamp =>
      obtain ⟨call, c, examples, -, hc, -, hp, hcount⟩ := hstamp
      have hread := (h.count hc).2
      rw [hp] at hread
      omega
  state {i c'} hc' := by
    cases calls_step hc' with
    | inl hold =>
      obtain ⟨c, hc, hp, -⟩ := hold
      rw [hp]
      exact (entry_step s a c.pattern).2 (h.state hc)
    | inr hnew =>
      rw [hnew.1]
      unfold orInsert
      exact ⟨_, by rw [Dict.get_set, if_pos rfl]⟩
  count {i c'} hc' := by
    have hgrow := (entry_step s a c'.pattern).1
    cases calls_step hc' with
    | inl hold =>
      obtain ⟨c, hc, hp, -, hcount⟩ := hold
      have hread := h.count hc
      rw [← hp, ← hcount] at hread
      omega
    | inr hnew =>
      obtain ⟨-, hpos, hcount, -⟩ := hnew
      omega

theorem Known.run (h : s.Known) (steps : List HubStep) : (s.run steps).Known := by
  induction steps generalizing s with
  | nil => exact h
  | cons a steps ih => exact ih (h.step a)

theorem lastAttempt_opened (rows : List (String × String × String)) (p : String) :
    (opened rows).lastAttempt p = 0 := by
  have hfold (states : States) (h : (entry states p).lastTrainAttempt = 0) :
      (entry (rows.foldl (fun states row => recordExample states row.1 row.2.1 row.2.2) states) p).lastTrainAttempt
        = 0 := by
    induction rows generalizing states with
    | nil => exact h
    | cons row rows ih =>
      refine ih _ ?_
      rw [entry_recordExample]
      split_ifs with hp
      · exact hp ▸ h
      · exact h
  exact hfold .empty rfl

theorem known_opened (rows : List (String × String × String)) : (opened rows).Known where
  attempt p := by
    rw [lastAttempt_opened]
    exact Nat.zero_le _
  state h := by cases h
  count h := by cases h

/-! ## Calls that are still due -/

/-- What a call decided holds of the present last attempt too; in DISTILLED mode it is enough that the attempt has
not passed it. -/
def StillDue (s : Hub) (c : DistillCall) : Prop :=
  s.lastAttempt c.pattern ≤ c.count ∧
    (c.mode = .teaching ∨ (entry s.states c.pattern).mode = .teaching →
      dueAgain c.count (s.lastAttempt c.pattern) = true)

/-- A call that takes the mark is still due. -/
def Timely (s : Hub) : HubStep → Prop
  | .advance call => ∀ c, s.calls call = some c → c.phase = .decided → c.pattern ∉ s.inFlight → s.StillDue c
  | _ => True

def TimelyAll : Hub → List HubStep → Prop
  | _, [] => True
  | s, a :: as => s.Timely a ∧ TimelyAll (s.step a) as

instance (s : Hub) (c : DistillCall) : Decidable (s.StillDue c) := inferInstanceAs (Decidable (_ ∧ _))

instance (s : Hub) : (a : HubStep) → Decidable (s.Timely a)
  | .advance call => inferInstanceAs
      (Decidable (∀ c ∈ s.calls call, c.phase = .decided → c.pattern ∉ s.inFlight → s.StillDue c))
  | .read _ _ _ | .record _ _ _ | .receive | .finish _ | .trainerDies => inferInstanceAs (Decidable True)

instance decidableTimelyAll : (s : Hub) → (steps : List HubStep) → Decidable (s.TimelyAll steps)
  | _, [] => inferInstanceAs (Decidable True)
  | s, a :: as =>
    have := decidableTimelyAll (s.step a) as
    inferInstanceAs (Decidable (s.Timely a ∧ (s.step a).TimelyAll as))

/-- The call is five examples past every job of its pattern, as far as it is to be. -/
structure Ahead (s : Hub) (c : DistillCall) : Prop where
  attempt : s.lastAttempt c.pattern ≤ c.count
  jobs : c.mode = .teaching ∨ (entry s.states c.pattern).mode = .teaching →
    ∀ j ∈ s.scheduled, j.pattern = c.pattern → j.count + 5 ≤ c.count
  stamp : ∀ examples, c.phase = .stamped examples → s.lastAttempt c.pattern = c.count

/-- Jobs in TEACHING mode are five examples past all jobs before them. -/
def Spaced (jobs : List Scheduled) : Prop :=
  jobs.Pairwise fun a b => a.pattern = b.pattern → b.teaching = true → a.count + 5 ≤ b.count

structure Paced (s : Hub) : Prop where
  sent : ∀ j ∈ s.scheduled, 0 < j.count ∧ j.count ≤ s.lastAttempt j.pattern
  ahead : ∀ {i c}, s.calls i = some c → c.phase ≠ .decided → s.Ahead c
  spaced : Spaced s.scheduled

theorem paced_opened (rows : List (String × String × String)) : (opened rows).Paced where
  sent j hj := by cases hj
  ahead h := by cases h
  spaced := List.Pairwise.nil

/-- A call stays ahead while its pattern has the mode and the attempt it has, and no new job. -/
theorem Ahead.frame {s' : Hub} {c : DistillCall} (h : s.Ahead c)
    (hmode : (entry s'.states c.pattern).mode = (entry s.states c.pattern).mode)
    (hattempt : s'.lastAttempt c.pattern = s.lastAttempt c.pattern)
    (hjobs : ∀ j ∈ s'.scheduled, j.pattern = c.pattern → j ∈ s.scheduled) : s'.Ahead c where
  attempt := by
    rw [hattempt]
    exact h.attempt
  jobs hteach j hj hp := by
    rw [hmode] at hteach
    exact h.jobs hteach j (hjobs j hj hp) hp
  stamp examples hphase := by
    rw [hattempt]
    exact h.stamp examples hphase

/-- A call that is still due is ahead of the jobs sent. -/
theorem Paced.due (h : s.Paced) {c : DistillCall} (hdue : s.StillDue c) : s.Ahead { c with phase := .marked } where
  attempt := hdue.1
  jobs hteach j hj hp := by
    have hagain := hdue.2 hteach
    have hsent := h.sent j hj
    have hle := hdue.1
    have hpattern : j.pattern = c.pattern := hp
    rw [hpattern] at hsent
    unfold dueAgain at hagain
    cases Bool.or_eq_true_iff.1 hagain with
    | inl hzero =>
      have := beq_iff_eq.1 hzero
      omega
    | inr hfive =>
      have := of_decide_eq_true hfive
      show j.count + 5 ≤ c.count
      omega
  stamp examples hphase := by cases hphase

/-- Two calls that hold a mark hold the marks of different patterns. -/
theorem Flights.other (h : s.Flights) {i j : Nat} {c d : DistillCall} (hc : s.calls i = some c)
    (hd : s.calls j = some d) (hcphase : c.phase ≠ .decided) (hdphase : d.phase ≠ .decided) (hne : j ≠ i) :
    d.pattern ≠ c.pattern := by
  intro heq
  have hci : (s.calls i).bind DistillCall.holding = some c.pattern := by
    rw [hc, Option.bind_some, holding_of_phase hcphase]
  have hdj : (s.calls j).bind DistillCall.holding = some c.pattern := by
    rw [hd, Option.bind_some, holding_of_phase hdphase, heq]
  exact hne (SingleFlight.alone h hdj hci)

/-- The running job is not of a pattern whose mark a call holds. -/
theorem Flights.notRunning (h : s.Flights) {i : Nat} {c : DistillCall} {job : TrainJob} (hc : s.calls i = some c)
    (hphase : c.phase ≠ .decided) (hjob : s.running = some job) : c.pattern ≠ job.patternName := by
  intro heq
  have hci : (s.calls i).bind DistillCall.holding = some c.pattern := by
    rw [hc, Option.bind_some, holding_of_phase hphase]
  refine SingleFlight.apart h hci ?_
  rw [heq]
  simp [Hub.jobs, hjob]

/-- A step that is no section of a call after the first, and changes no attempt, keeps the pace. -/
theorem Paced.quiet (h : s.Paced) {s' : Hub} (hattempt : ∀ p, s'.lastAttempt p = s.lastAttempt p)
    (hscheduled : s'.scheduled = s.scheduled)
    (hcalls : ∀ {i c}, s'.calls i = some c → c.phase ≠ .decided →
      s.calls i = some c ∧ (entry s'.states c.pattern).mode = (entry s.states c.pattern).mode) : s'.Paced where
  sent j hj := by
    rw [hattempt]
    exact h.sent j (hscheduled ▸ hj)
  ahead {i c} hc hphase := by
    obtain ⟨hold, hmode⟩ := hcalls hc hphase
    exact (h.ahead hold hphase).frame hmode (hattempt _) fun j hj _ => hscheduled ▸ hj
  spaced := hscheduled.symm ▸ h.spaced

/-- A section of a call that leaves all states and jobs as they are. -/
theorem Paced.setCall (h : s.Paced) {s' : Hub} {call : Nat} {o : Option DistillCall}
    (hstates : s'.states = s.states) (hscheduled : s'.scheduled = s.scheduled)
    (hcalls : s'.calls = s.setCall call o) (ho : ∀ c, o = some c → s.Ahead c) : s'.Paced where
  sent j hj := by
    unfold lastAttempt
    rw [hstates]
    exact h.sent j (hscheduled ▸ hj)
  ahead {i c} hc hphase := by
    rw [hcalls] at hc
    have hahead : s.Ahead c := by
      cases SingleFlight.update_eq_some hc with
      | inl own => exact ho c own.2
      | inr other => exact h.ahead other.2 hphase
    refine hahead.frame (by rw [hstates]) ?_ fun j hj _ => hscheduled ▸ hj
    unfold lastAttempt
    rw [hstates]
  spaced := hscheduled.symm ▸ h.spaced

theorem Ahead.phase {c : DistillCall} (h : s.Ahead c) {phase : Phase} (hphase : ∀ examples, phase ≠ .stamped examples) :
    s.Ahead { c with phase := phase } where
  attempt := h.attempt
  jobs := h.jobs
  stamp examples heq := absurd heq (hphase examples)

theorem Paced.stamp (h : s.Paced) (hf : s.Flights) (hk : s.Known) {call : Nat} {c : DistillCall}
    (hc : s.calls call = some c) {examples : List (String × String)} (hphase : c.phase = .copied examples) :
    (s.advance call c).Paced := by
  have hheld : c.phase ≠ .decided := by simp [hphase]
  have hahead := h.ahead hc hheld
  have hentry (p : String) := entry_modify s.states c.pattern p
    (fun st => { st with lastTrainAttempt := c.count }) (hk.state hc)
  unfold Hub.advance
  simp only [hphase]
  refine ⟨fun j hj => ?_, fun {i d} hd hdphase => ?_, h.spaced⟩
  · have hsent := h.sent j hj
    refine ⟨hsent.1, ?_⟩
    unfold lastAttempt
    dsimp only
    rw [hentry]
    split_ifs with hp
    · rw [hp] at hsent
      exact Nat.le_trans hsent.2 hahead.attempt
    · exact hsent.2
  · cases SingleFlight.update_eq_some hd with
    | inl own =>
      cases own.2
      have hstamped : Hub.lastAttempt { s with
          states := s.states.modify c.pattern fun st => { st with lastTrainAttempt := c.count }
          calls := s.setCall call (some { c with phase := .stamped examples }) } c.pattern = c.count := by
        unfold lastAttempt
        dsimp only
        rw [hentry, if_pos rfl]
      refine ⟨Nat.le_of_eq hstamped, fun hteach => ?_, fun _ _ => hstamped⟩
      dsimp only at hteach
      rw [hentry, if_pos rfl] at hteach
      exact hahead.jobs hteach
    | inr other =>
      have hne := hf.other hc other.2 hheld hdphase other.1
      refine (h.ahead other.2 hdphase).frame ?_ ?_ fun j hj _ => hj
      · rw [hentry, if_neg hne]
      · unfold lastAttempt
        dsimp only
        rw [hentry, if_neg hne]

theorem Paced.send (h : s.Paced) (hf : s.Flights) (hk : s.Known) {call : Nat} {c : DistillCall}
    (hc : s.calls call = some c) {examples : List (String × String)} (hphase : c.phase = .stamped examples)
    (halive : s.trainerAlive = true) : (s.advance call c).Paced := by
  have hheld : c.phase ≠ .decided := by simp [hphase]
  have hahead := h.ahead hc hheld
  unfold Hub.advance
  simp only [hphase, halive, if_true]
  refine ⟨fun j hj => ?_, fun {i d} hd hdphase => ?_, ?_⟩
  · cases List.mem_append.1 hj with
    | inl hold => exact h.sent j hold
    | inr hnew =>
      cases List.mem_singleton.1 hnew
      exact ⟨(hk.count hc).1, Nat.le_of_eq (hahead.stamp examples hphase).symm⟩
  · cases SingleFlight.update_eq_some hd with
    | inl own => cases own.2
    | inr other =>
      have hne := hf.other hc other.2 hheld hdphase other.1
      refine (h.ahead other.2 hdphase).frame rfl rfl fun j hj hp => ?_
      cases List.mem_append.1 hj with
      | inl hold => exact hold
      | inr hnew =>
        cases List.mem_singleton.1 hnew
        exact absurd hp.symm hne
  · refine List.pairwise_append.2 ⟨h.spaced, List.pairwise_singleton _ _, fun a ha b hb hp hteach => ?_⟩
    cases List.mem_singleton.1 hb
    exact hahead.jobs (of_decide_eq_true hteach) a ha hp

theorem Paced.advance (h : s.Paced) (hf : s.Flights) (hk : s.Known) {call : Nat} {c : DistillCall}
    (hc : s.calls call = some c) (ht : s.Timely (.advance call)) : (s.advance call c).Paced := by
  have hnone : ∀ d, none = some d → s.Ahead d := by
    intro d hd
    cases hd
  have hsome {phase : Phase} (hahead : s.Ahead { c with phase := phase }) :
      ∀ d, some { c with phase := phase } = some d → s.Ahead d := by
    intro d hd
    cases hd
    exact hahead
  cases hphase : c.phase with
  | decided =>
    unfold Hub.advance
    simp only [hphase]
    split_ifs with hmem
    · exact h.setCall rfl rfl rfl hnone
    · exact h.setCall rfl rfl rfl (hsome (h.due (ht c hc hphase hmem)))
  | marked =>
    have hahead := h.ahead hc (by simp [hphase])
    unfold Hub.advance
    simp only [hphase]
    exact h.setCall rfl rfl rfl (hsome (hahead.phase fun _ => by simp))
  | copied examples => exact h.stamp hf hk hc hphase
  | stamped examples =>
    by_cases halive : s.trainerAlive = true
    · exact h.send hf hk hc hphase halive
    · have hahead := h.ahead hc (by simp [hphase])
      unfold Hub.advance
      simp only [hphase, if_neg halive]
      exact h.setCall rfl rfl rfl (hsome (hahead.phase fun _ => by simp))
  | dropped =>
    unfold Hub.advance
    simp only [hphase]
    exact h.setCall rfl rfl rfl hnone

theorem Paced.step (h : s.Paced) (hf : s.Flights) (hk : s.Known) {a : HubStep} (ht : s.Timely a) :
    (s.step a).Paced := by
  cases a with
  | read call pattern spec =>
    unfold Hub.step
    dsimp only
    split_ifs
    · unfold Hub.read
      refine h.quiet (fun p => ?_) rfl fun {i c} hc hphase => ?_
      · unfold lastAttempt
        dsimp only
        rw [entry_orInsert]
      · dsimp only at hc ⊢
        rw [entry_orInsert]
        refine ⟨?_, rfl⟩
        split_ifs at hc
        · cases SingleFlight.update_eq_some hc with
          | inl own =>
            cases own.2
            exact absurd rfl hphase
          | inr other => exact other.2
        · exact hc
    · exact h
  | advance call =>
    cases hc : s.calls call with
    | none => simpa only [Hub.step, hc] using h
    | some c => simpa only [Hub.step, hc] using h.advance hf hk hc ht
  | record pattern input output =>
    refine h.quiet (fun p => ?_) rfl fun {i c} hc _ => ⟨hc, ?_⟩
    · unfold lastAttempt Hub.step
      dsimp only
      rw [entry_recordExample]
      split_ifs with hp
      · rw [hp]
      · rfl
    · unfold Hub.step
      dsimp only
      rw [entry_recordExample]
      split_ifs with hp
      · rw [hp]
      · rfl
  | receive =>
    unfold Hub.step
    dsimp only
    split
    · exact h.quiet (fun _ => rfl) rfl fun hc _ => ⟨hc, rfl⟩
    · exact h
  | finish outcome =>
    unfold Hub.step Hub.finish
    dsimp only
    cases hrun : s.running with
    | none => exact h
    | some job =>
      refine h.quiet (fun p => (entry_land _ _ p outcome).1) rfl fun {i c} hc hphase => ⟨hc, ?_⟩
      -- the mode changes of the pattern of the job only, and its mark is with the job
      have hne := hf.notRunning hc hphase hrun
      dsimp only
      rw [(entry_land s.states job.patternName c.pattern outcome).2.2.1 hne]
  | trainerDies => exact h.quiet (fun _ => rfl) rfl fun hc _ => ⟨hc, rfl⟩

/-- No attempt goes down. -/
theorem Paced.lastAttempt_mono (h : s.Paced) (a : HubStep) (p : String) :
    s.lastAttempt p ≤ (s.step a).lastAttempt p := by
  cases lastAttempt_step s a p with
  | inl hsame => exact Nat.le_of_eq hsame.symm
  | inr hstamp =>
    obtain ⟨call, c, examples, -, hc, hphase, hp, hcount⟩ := hstamp
    have hle := (h.ahead hc (by simp [hphase])).attempt
    rw [hcount, ← hp]
    exact hle

/-- The attempts after a run are not below those at any point of it. -/
def Rising (s : Hub) (steps : List HubStep) : Prop :=
  ∀ before after, steps = before ++ after → ∀ p, (s.run before).lastAttempt p ≤ (s.run steps).lastAttempt p

/-- Two jobs of a pattern in TEACHING mode are five examples apart. -/
def Apart (s : Hub) : Prop :=
  s.scheduled.Pairwise fun a b => a.pattern = b.pattern → a.teaching = true → b.teaching = true →
    a.count + 5 ≤ b.count ∨ b.count + 5 ≤ a.count

instance (s : Hub) : Decidable s.Apart := inferInstanceAs (Decidable (List.Pairwise _ _))

/-- What a run keeps. -/
structure Sound (s : Hub) : Prop where
  flights : s.Flights
  known : s.Known
  paced : s.Paced

theorem Sound.step (h : s.Sound) {a : HubStep} (ht : s.Timely a) : (s.step a).Sound :=
  ⟨h.flights.step a, h.known.step a, h.paced.step h.flights h.known ht⟩

theorem Sound.run (h : s.Sound) {steps : List HubStep} (ht : s.TimelyAll steps) :
    (s.run steps).Sound ∧ ∀ p, s.lastAttempt p ≤ (s.run steps).lastAttempt p := by
  induction steps generalizing s with
  | nil => exact ⟨h, fun p => Nat.le_refl _⟩
  | cons a steps ih =>
    obtain ⟨hsound, hmono⟩ := ih (h.step ht.1) ht.2
    exact ⟨hsound, fun p => Nat.le_trans (h.paced.lastAttempt_mono a p) (hmono p)⟩

theorem timelyAll_append {steps more : List HubStep} :
    s.TimelyAll (steps ++ more) ↔ s.TimelyAll steps ∧ (s.run steps).TimelyAll more := by
  induction steps generalizing s with
  | nil => exact (and_iff_right trivial).symm
  | cons a steps ih =>
    show s.Timely a ∧ (s.step a).TimelyAll (steps ++ more) ↔ _
    rw [ih, ← and_assoc]
    rfl

theorem run_append (s : Hub) (steps more : List HubStep) : s.run (steps ++ more) = (s.run steps).run more :=
  List.foldl_append

end Hub

/-- In every run at most one job of a pattern is queued or running and no attempt passes the number of examples; in a
run in which every call that takes a mark is still due, no attempt goes down and jobs in TEACHING mode are five
examples apart. -/
theorem cadence (rows : List (String × String × String)) (steps : List HubStep) :
    ((Hub.opened rows).run steps).Single ∧
      (∀ p, ((Hub.opened rows).run steps).lastAttempt p ≤ ((Hub.opened rows).run steps).exampleCount p) ∧
      ((Hub.opened rows).TimelyAll steps →
        (Hub.opened rows).Rising steps ∧ ((Hub.opened rows).run steps).Apart) := by
  have hflights := Hub.flights_opened rows
  have hknown := Hub.known_opened rows
  refine ⟨(hflights.run steps).single, (hknown.run steps).attempt, fun ht => ?_⟩
  have hstart : (Hub.opened rows).Sound := ⟨hflights, hknown, Hub.paced_opened rows⟩
  constructor
  · intro before after hsteps p
    subst hsteps
    obtain ⟨hbefore, hafter⟩ := Hub.timelyAll_append.1 ht
    rw [Hub.run_append]
    exact ((hstart.run hbefore).1.run hafter).2 p
  · exact (hstart.run ht).1.paced.spaced.imp fun h hp _ hteach => .inl (h hp hteach)

namespace Sample

def spec : DistillSpec := ⟨"triage", 3⟩

def tenExamples : List (String × String × String) := List.replicate 10 ("sort", "invoice", "billing")

/-- A call from its mark to the verdict of its job, which the gate refuses. -/
def wholeJob (call : Nat) : List HubStep :=
  [.advance call, .advance call, .advance call, .advance call, .receive, .finish ⟨false, true⟩]

/-- Five more examples between the jobs of two calls. -/
def pacedRun : List HubStep :=
  .read 0 "sort" spec :: wholeJob 0 ++ List.replicate 5 (.record "sort" "parcel" "shipping") ++
    .read 1 "sort" spec :: wholeJob 1

/-- Two calls decide, one of them with an example more, and that one goes first. -/
def staleRun : List HubStep :=
  [.read 0 "sort" spec, .record "sort" "parcel" "shipping", .read 1 "sort" spec] ++ wholeJob 1

end Sample

theorem cadence_paced :
    (Hub.opened Sample.tenExamples).Rising Sample.pacedRun ∧
      ((Hub.opened Sample.tenExamples).run Sample.pacedRun).Apart ∧
      ((Hub.opened Sample.tenExamples).run Sample.pacedRun).scheduled =
        [⟨"sort", 10, true⟩, ⟨"sort", 15, true⟩] := by
  have h := (cadence Sample.tenExamples Sample.pacedRun).2.2 (by decide +kernel)
  exact ⟨h.1, h.2, by decide +kernel⟩

/-- The second call finds the mark free and stamps what it read before. -/
theorem cadence_stale :
    ¬(Hub.opened Sample.tenExamples).Rising (Sample.staleRun ++ Sample.wholeJob 0) ∧
      ¬((Hub.opened Sample.tenExamples).run (Sample.staleRun ++ Sample.wholeJob 0)).Apart := by
  constructor
  · intro h
    have hle := h Sample.staleRun (Sample.wholeJob 0) rfl "sort"
    revert hle
    decide +kernel
  · decide +kernel

end Metalogos.Distill
