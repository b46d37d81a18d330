import Metalogos.Memory.Run

/-!
# Typed memory: refused forgetting

`forget_front` and `forget_cascade` (`src/memory_typed.rs:1364-1489`, `:1954-2125`) take the registry lock and the
ledger's lock one after the other, so other calls with the same grant get in between. `Forgetting` holds the ledger,
the registry and how far each call has come; the section under the registry lock, `check_active` and `grant_use` are
one move each, and anything else that happens to the ledger is an event of its own.

The mutation comes before the use of the grant. While the grant is still active when its use is recorded, a call that
ends in an error has touched nothing (`refused_untouched`); a use, a revocation or an expiry in between leaves a
deletion behind under an error (`refused_after_deletion`).
-/
namespace Metalogos.Memory

open Metalogos.Lib Metalogos.Grants

inductive ForgetCall where
  | cascade (handle key : String) (grant : GrantHandle)
  | front (handle key : String) (grant : GrantHandle) (dryRun : Bool)

def ForgetCall.grant : ForgetCall → GrantHandle
  | .cascade _ _ grant => grant
  | .front _ _ grant _ => grant

inductive ForgetAnswer where
  | cascade (deleted : List String)
  | front (f : ForgetFront)

/-- How far a call has come. `resolved`: the target is there; `gated`: the rungs before the section are passed;
`applied`: the section is done and the use of the grant is not recorded yet. -/
inductive ForgetStage where
  | start (call : ForgetCall)
  | resolved (handle key : String) (grant : GrantHandle) (dryRun : Bool) (label : MemLabel) (subject : String)
  | gated (call : ForgetCall)
  | applied (call : ForgetCall) (out : ForgetAnswer)
  | done (res : Except String ForgetAnswer)

inductive ForgetMove where
  | resolve
  | gate (now : Nat) (consented : Bool)
  | change (now : Nat)
  | use (t : Clock)

inductive ForgetEvent where
  | move (i : Nat) (m : ForgetMove)
  | other (call : Grants.Call)

abbrev Registry := Dict String TypedContainer

structure Forgetting where
  grants : GrantLedger
  registry : Registry
  stages : List ForgetStage

/-! ## The moves -/

/-- mirrors src/memory_typed.rs:1961-1976 -/
def resolveFront (reg : Registry) (handle key : String) (grant : GrantHandle) (dryRun : Bool) : ForgetStage :=
  match reg.get handle with
  | none => .done (.error ("forget: unknown container '" ++ handle ++ "' (MEMORY_UNKNOWN)"))
  | some c =>
    if !c.entries.has key then .done (.error (unknownKey "forget" key c.id))
    else .resolved handle key grant dryRun c.label c.subject

def gateForget (l : GrantLedger) (now : Nat) (handle : String) (call : ForgetCall) : ForgetStage :=
  match forgetGates l handle now call.grant with
  | .error e => .done (.error e)
  | .ok _ => .gated call

/-- The section under the registry lock.
mirrors src/memory_typed.rs:1384-1439, 1998-2082 -/
def changeForget (reg : Registry) (now : Nat) : ForgetCall → ForgetStage × Registry
  | .cascade handle key grant =>
    match reg.get handle with
    | none =>
      (.done (.error ("memory_forget_cascade: unknown container '" ++ handle ++ "' (MEMORY_UNKNOWN)")), reg)
    | some c =>
      let a := cascadeSection c key
      (match a.res with
        | .error e => .done (.error e)
        | .ok deleted => .applied (.cascade handle key grant) (.cascade deleted),
        reg.modify handle fun _ => a.container)
  | .front handle key grant dryRun =>
    match reg.get handle with
    | none => (.done (.error ("forget: unknown container '" ++ handle ++ "' (MEMORY_UNKNOWN)")), reg)
    | some c =>
      let a := frontSection c now key dryRun
      (match a.res with
        | .error e => .done (.error e)
        | .ok f =>
          if dryRun then .done (.ok (.front f)) else .applied (.front handle key grant dryRun) (.front f),
        reg.modify handle fun _ => a.container)

/-- mirrors src/memory_typed.rs:1443-1452, 2092-2100 -/
def useForget (l : GrantLedger) (t : Clock) (call : ForgetCall) (out : ForgetAnswer) : ForgetStage × GrantLedger :=
  match grantUse l t call.grant with
  | (.error e, l) => (.done (.error e), l)
  | (.ok _, l) => (.done (.ok out), l)

/-- A move of a call that stands elsewhere does nothing. -/
def advance (l : GrantLedger) (reg : Registry) (s : ForgetStage) (m : ForgetMove) :
    ForgetStage × GrantLedger × Registry :=
  match s, m with
  | .start (.front handle key grant dryRun), .resolve => (resolveFront reg handle key grant dryRun, l, reg)
  | .start (.cascade handle key grant), .gate now _ => (gateForget l now handle (.cascade handle key grant), l, reg)
  | .resolved handle key grant dryRun label subject, .gate now consented =>
    if label = .priv && !consented then (.done (.error (forgetConsentRefusal handle subject)), l, reg)
    else (gateForget l now handle (.front handle key grant dryRun), l, reg)
  | .gated call, .change now =>
    let (s', reg') := changeForget reg now call
    (s', l, reg')
  | .applied call out, .use t =>
    let (s', l') := useForget l t call out
    (s', l', reg)
  | s, _ => (s, l, reg)

def Forgetting.step (v : Forgetting) : ForgetEvent → Forgetting
  | .move i m =>
    match v.stages[i]? with
    | none => v
    | some s =>
      let (s', l, reg) := advance v.grants v.registry s m
      ⟨l, reg, v.stages.set i s'⟩
  | .other call => { v with grants := Grants.step v.grants call }

def Forgetting.run (v : Forgetting) (es : List ForgetEvent) : Forgetting := es.foldl Forgetting.step v

/-- Before the calls. -/
def Forgetting.start (l : GrantLedger) (reg : Registry) (calls : List ForgetCall) : Forgetting :=
  ⟨l, reg, calls.map .start⟩

/-! ## What a call touches -/

/-- The entries that have not expired, with their flags, their pins and the index between them. -/
structure SameUnexpired (now : Nat) (c c' : TypedContainer) : Prop where
  entries : ∀ x ∉ c.expiredKeys now, c'.entries.get x = c.entries.get x
  pins : ∀ x ∉ c.expiredKeys now, (x ∈ c'.retained ↔ x ∈ c.retained)
  index : ∀ x ∉ c.expiredKeys now,
    (c'.kids x).filter (· ∉ c.expiredKeys now) = (c.kids x).filter (· ∉ c.expiredKeys now)

/-- One move of a call left the grants and the containers as they were. -/
def Untouched (m : ForgetMove) (v v' : Forgetting) : Prop :=
  match m with
  | .change now =>
    v'.grants = v.grants ∧ ∀ handle, Option.Rel (SameUnexpired now) (v.registry.get handle) (v'.registry.get handle)
  | _ => v'.grants = v.grants ∧ v'.registry = v.registry

/-- All moves of one call, in a run that others take part in. -/
def UntouchedBy (i : Nat) : Forgetting → List ForgetEvent → Prop
  | _, [] => True
  | v, e :: es => (∀ m, e = .move i m → Untouched m v (v.step e)) ∧ UntouchedBy i (v.step e) es

/-- When the use of a forget that is applied is recorded, its grant is still active. -/
def StillActive (v : Forgetting) : ForgetEvent → Prop
  | .move i (.use t) => ∀ call out, v.stages[i]? = some (.applied call out) →
      ∃ rec, checkActive v.grants.rows call.grant.grantId (t 0) = .ok rec
  | _ => True

def AllStillActive : Forgetting → List ForgetEvent → Prop
  | _, [] => True
  | v, e :: es => StillActive v e ∧ AllStillActive (v.step e) es

theorem SameUnexpired.refl (now : Nat) (c : TypedContainer) : SameUnexpired now c c :=
  ⟨fun _ _ => rfl, fun _ _ => .rfl, fun _ _ => rfl⟩

/-! ## The sweep -/

theorem filter_unlink {ch : Dict String (List String)} {k p : String} {q : String → Bool} (hq : q k = false)
    (ps : List String) : (kidsOf (unlink ch k ps) p).filter q = (kidsOf ch p).filter q := by
  induction ps generalizing ch with
  | nil => rfl
  | cons r ps ih =>
    have hone : (kidsOf (ch.modify r (·.filter (· ≠ k))) p).filter q = (kidsOf ch p).filter q := by
      simp only [kidsOf, Dict.get_modify]
      split_ifs with hp
      · cases ch.get p with
        | none => rfl
        | some xs =>
          simp only [Option.map_some, Option.getD_some, List.filter_filter]
          refine List.filter_congr fun x _ => ?_
          by_cases hx : x = k
          · rw [hx, hq]
            rfl
          · simp [hx]
      · rfl
    exact ih.trans hone

/-- An entry that is taken out leaves the index between the others. -/
theorem filter_kids_removeEntry (c : TypedContainer) {k p : String} {q : String → Bool} (hp : p ≠ k)
    (hq : q k = false) : ((c.removeEntry k).kids p).filter q = (c.kids p).filter q := by
  have herase : (c.removeEntry k).kids p = kidsOf (unlink c.children k (c.parents k)) p := by
    simp only [TypedContainer.kids, TypedContainer.removeEntry, kidsOf, Dict.get_erase, if_neg hp]
  rw [herase, filter_unlink hq]
  rfl

theorem filter_kids_removeAll {ks : List String} {p : String} {q : String → Bool} (hp : p ∉ ks)
    (hq : ∀ k ∈ ks, q k = false) (c : TypedContainer) : ((c.removeAll ks).kids p).filter q = (c.kids p).filter q := by
  induction ks generalizing c with
  | nil => rfl
  | cons k ks ih =>
    have hrest := ih (fun h => hp (.tail k h)) (fun x hx => hq x (.tail k hx)) (c.removeEntry k)
    exact hrest.trans (filter_kids_removeEntry c (fun h => hp (h ▸ .head ks)) (hq k (.head ks)))

/-- The sweep takes out what has expired and nothing else. -/
theorem sweep_same (c : TypedContainer) (now : Nat) : SameUnexpired now c (sweepExpired c now).1 := by
  rw [sweepExpired_eq]
  refine ⟨fun x hx => ?_, fun x hx => ?_, fun x hx => ?_⟩
  · show (c.removeAll (c.expiredKeys now)).entries.get x = _
    rw [get_removeAll, if_neg hx]
  · show x ∈ (c.removeAll (c.expiredKeys now)).retained ↔ _
    rw [retained_removeAll, Finset.mem_sdiff, List.mem_toFinset]
    exact ⟨fun h => h.1, fun h => ⟨h, hx⟩⟩
  · exact filter_kids_removeAll hx (fun k hk => by simpa using hk) c

/-! ## The sections -/

theorem cascadeSection_error {c : TypedContainer} {key e : String} (h : (cascadeSection c key).res = .error e) :
    (cascadeSection c key).container = c := by
  rcases cascadeSection_cases c key with ⟨e', hs⟩ | ⟨-, -, closure, -, hs⟩
  · rw [hs]
  · rw [hs] at h
    cases h

/-- A refused front has swept and done nothing more. -/
theorem frontSection_error {c : TypedContainer} {now : Nat} {key e : String} {dryRun : Bool}
    (h : (frontSection c now key dryRun).res = .error e) :
    (frontSection c now key dryRun).container = (sweepExpired c now).1 := by
  unfold frontSection at h ⊢
  dsimp only at h ⊢
  by_cases hkey : (!(sweepExpired c now).1.entries.has key) = true
  · rw [if_pos hkey]
  · rw [if_neg hkey] at h ⊢
    by_cases hblocked : (planCascade key (sweepExpired c now).1.children (sweepExpired c now).1.retained).blockedBy ≠ []
    · rw [if_pos hblocked]
    · rw [if_neg hblocked] at h ⊢
      cases dryRun with
      | true => cases h
      | false => cases h

theorem rel_modify {now : Nat} {reg : Registry} {handle : String} {c c' : TypedContainer}
    (hc : reg.get handle = some c) (h : SameUnexpired now c c') (x : String) :
    Option.Rel (SameUnexpired now) (reg.get x) ((reg.modify handle fun _ => c').get x) := by
  rw [Dict.get_modify]
  split_ifs with hx
  · rw [hx, hc]
    exact .some h
  · cases reg.get x with
    | none => exact .none
    | some d => exact .some (.refl now d)

theorem rel_refl (now : Nat) (reg : Registry) (x : String) : Option.Rel (SameUnexpired now) (reg.get x) (reg.get x) := by
  cases reg.get x with
  | none => exact .none
  | some c => exact .some (.refl now c)

/-- A section that refuses keeps every container. -/
theorem changeForget_error {reg : Registry} {now : Nat} {call : ForgetCall} {e : String}
    (h : (changeForget reg now call).1 = .done (.error e)) (x : String) :
    Option.Rel (SameUnexpired now) (reg.get x) ((changeForget reg now call).2.get x) := by
  cases call with
  | cascade handle key grant =>
    rw [changeForget] at h ⊢
    cases hreg : reg.get handle with
    | none => exact rel_refl now reg x
    | some c =>
      rw [hreg] at h
      dsimp only at h ⊢
      cases hres : (cascadeSection c key).res with
      | error e' =>
        rw [cascadeSection_error hres]
        exact rel_modify hreg (.refl now c) x
      | ok deleted =>
        rw [hres] at h
        cases h
  | front handle key grant dryRun =>
    rw [changeForget] at h ⊢
    cases hreg : reg.get handle with
    | none => exact rel_refl now reg x
    | some c =>
      rw [hreg] at h
      dsimp only at h ⊢
      cases hres : (frontSection c now key dryRun).res with
      | error e' =>
        rw [frontSection_error hres]
        exact rel_modify hreg (sweep_same c now) x
      | ok f =>
        rw [hres] at h
        cases dryRun <;> cases h

/-- Behind a section: refused, answered without a use, or applied. -/
theorem changeForget_cases (reg : Registry) (now : Nat) (call : ForgetCall) :
    (∃ res, (changeForget reg now call).1 = .done res) ∨ ∃ out, (changeForget reg now call).1 = .applied call out := by
  cases call with
  | cascade handle key grant =>
    rw [changeForget]
    cases reg.get handle with
    | none => exact .inl ⟨_, rfl⟩
    | some c =>
      dsimp only
      cases (cascadeSection c key).res with
      | error e => exact .inl ⟨_, rfl⟩
      | ok deleted => exact .inr ⟨_, rfl⟩
  | front handle key grant dryRun =>
    rw [changeForget]
    cases reg.get handle with
    | none => exact .inl ⟨_, rfl⟩
    | some c =>
      dsimp only
      cases (frontSection c now key dryRun).res with
      | error e => exact .inl ⟨_, rfl⟩
      | ok f =>
        cases dryRun with
        | true => exact .inl ⟨_, rfl⟩
        | false => exact .inr ⟨_, rfl⟩

/-! ## Runs -/

/-- A use under a grant that is still active does not fail. -/
theorem useForget_active {l : GrantLedger} {t : Clock} {call : ForgetCall} {out : ForgetAnswer}
    (h : ∃ rec, checkActive l.rows call.grant.grantId (t 0) = .ok rec) :
    (useForget l t call out).1 = .done (.ok out) := by
  obtain ⟨rec, hrec⟩ := h
  unfold useForget grantUse
  rw [hrec]

theorem step_move {v : Forgetting} {i : Nat} {s : ForgetStage} (h : v.stages[i]? = some s) (m : ForgetMove) :
    v.step (.move i m) = ⟨(advance v.grants v.registry s m).2.1, (advance v.grants v.registry s m).2.2,
      v.stages.set i (advance v.grants v.registry s m).1⟩ := by
  simp only [Forgetting.step, h]

theorem stage_step_self {v : Forgetting} {i : Nat} {s : ForgetStage} (h : v.stages[i]? = some s) (m : ForgetMove) :
    (v.step (.move i m)).stages[i]? = some (advance v.grants v.registry s m).1 := by
  obtain ⟨hlt, -⟩ := List.getElem?_eq_some_iff.1 h
  rw [step_move h, List.getElem?_set_self hlt]

/-- What others do leaves a call where it stands. -/
theorem stage_step_other {v : Forgetting} {i : Nat} {e : ForgetEvent} (h : ∀ m, e ≠ .move i m) :
    (v.step e).stages[i]? = v.stages[i]? := by
  cases e with
  | other call => rfl
  | move j m =>
    have hne : j ≠ i := by
      rintro rfl
      exact h m rfl
    unfold Forgetting.step
    dsimp only
    split
    · rfl
    · exact List.getElem?_set_ne hne

theorem run_done {v : Forgetting} {i : Nat} {res : Except String ForgetAnswer}
    (h : v.stages[i]? = some (.done res)) (es : List ForgetEvent) : (v.run es).stages[i]? = some (.done res) := by
  induction es generalizing v with
  | nil => exact h
  | cons e es ih =>
    refine ih ?_
    by_cases hmine : ∃ m, e = .move i m
    · obtain ⟨m, rfl⟩ := hmine
      rw [stage_step_self h]
      cases m <;> rfl
    · rw [stage_step_other fun m hm => hmine ⟨m, hm⟩]
      exact h

/-- A forget that is applied never ends in an error while its grant stays active. -/
theorem run_applied {v : Forgetting} {i : Nat} {call : ForgetCall} {out : ForgetAnswer}
    (h : v.stages[i]? = some (.applied call out)) {es : List ForgetEvent} (hactive : AllStillActive v es) (e : String) :
    (v.run es).stages[i]? ≠ some (.done (.error e)) := by
  induction es generalizing v with
  | nil =>
    show v.stages[i]? ≠ _
    rw [h]
    nofun
  | cons ev es ih =>
    obtain ⟨hnow, hlater⟩ := hactive
    by_cases hmine : ∃ m, ev = .move i m
    · obtain ⟨m, rfl⟩ := hmine
      have hstage := stage_step_self h m
      cases m with
      | use t =>
        have hdone : (advance v.grants v.registry (.applied call out) (.use t)).1 = .done (.ok out) :=
          useForget_active (hnow call out h)
        rw [hdone] at hstage
        have hend := run_done hstage es
        show ((v.step _).run es).stages[i]? ≠ _
        rw [hend]
        nofun
      | resolve => exact ih hstage hlater
      | gate now consented => exact ih hstage hlater
      | change now => exact ih hstage hlater
    · refine ih ?_ hlater
      rw [stage_step_other fun m hm => hmine ⟨m, hm⟩]
      exact h

/-- A move that is neither a section nor a use changes nothing but the stage. -/
theorem advance_quiet (l : GrantLedger) (reg : Registry) (s : ForgetStage) {m : ForgetMove}
    (h : (∀ now, m ≠ .change now) ∧ ∀ t, m ≠ .use t) : (advance l reg s m).2 = (l, reg) := by
  cases m with
  | change now => exact absurd rfl (h.1 now)
  | use t => exact absurd rfl (h.2 t)
  | resolve =>
    cases s with
    | start call => cases call <;> rfl
    | resolved => rfl
    | gated => rfl
    | applied => rfl
    | done => rfl
  | gate now consented =>
    cases s with
    | start call => cases call <;> rfl
    | resolved handle key grant dryRun label subject =>
      unfold advance
      dsimp only
      split <;> rfl
    | gated => rfl
    | applied => rfl
    | done => rfl

/-- A move of a call that ends in an error has touched nothing. -/
theorem move_untouched {v : Forgetting} {i : Nat} {m : ForgetMove} {es : List ForgetEvent}
    (hactive : AllStillActive v (.move i m :: es)) {e : String}
    (herr : ((v.step (.move i m)).run es).stages[i]? = some (.done (.error e))) :
    Untouched m v (v.step (.move i m)) := by
  obtain ⟨hnow, hlater⟩ := hactive
  cases hs : v.stages[i]? with
  | none =>
    have hstep : v.step (.move i m) = v := by
      simp only [Forgetting.step, hs]
    rw [hstep]
    cases m with
    | change now => exact ⟨rfl, rel_refl now v.registry⟩
    | resolve => exact ⟨rfl, rfl⟩
    | gate => exact ⟨rfl, rfl⟩
    | use => exact ⟨rfl, rfl⟩
  | some s =>
    have hstage := stage_step_self hs m
    rw [step_move hs]
    cases m with
    | resolve =>
      have hquiet := advance_quiet v.grants v.registry s (m := .resolve) ⟨nofun, nofun⟩
      exact ⟨congrArg Prod.fst hquiet, congrArg Prod.snd hquiet⟩
    | gate now consented =>
      have hquiet := advance_quiet v.grants v.registry s (m := .gate now consented) ⟨nofun, nofun⟩
      exact ⟨congrArg Prod.fst hquiet, congrArg Prod.snd hquiet⟩
    | change now =>
      cases s with
      | gated call =>
        rcases changeForget_cases v.registry now call with ⟨res, hres⟩ | ⟨out, hout⟩
        · -- refused, or answered without a use: the answer stays
          have hadv : (advance v.grants v.registry (.gated call) (.change now)).1 = .done res := hres
          rw [hadv] at hstage
          have hend := run_done hstage es
          rw [herr] at hend
          cases hend
          exact ⟨rfl, changeForget_error hres⟩
        · have hadv : (advance v.grants v.registry (.gated call) (.change now)).1 = .applied call out := hout
          rw [hadv] at hstage
          exact absurd herr (run_applied hstage hlater e)
      | start call => cases call <;> exact ⟨rfl, rel_refl now v.registry⟩
      | resolved => exact ⟨rfl, rel_refl now v.registry⟩
      | applied => exact ⟨rfl, rel_refl now v.registry⟩
      | done => exact ⟨rfl, rel_refl now v.registry⟩
    | use t =>
      cases s with
      | applied call out =>
        have hdone : (advance v.grants v.registry (.applied call out) (.use t)).1 = .done (.ok out) :=
          useForget_active (hnow call out hs)
        rw [hdone] at hstage
        have hend := run_done hstage es
        rw [herr] at hend
        cases hend
      | start call => cases call <;> exact ⟨rfl, rfl⟩
      | resolved => exact ⟨rfl, rfl⟩
      | gated => exact ⟨rfl, rfl⟩
      | done => exact ⟨rfl, rfl⟩

theorem untouchedBy_of_error {v : Forgetting} {es : List ForgetEvent} (hactive : AllStillActive v es) {i : Nat}
    {e : String} (herr : (v.run es).stages[i]? = some (.done (.error e))) : UntouchedBy i v es := by
  induction es generalizing v with
  | nil => trivial
  | cons ev es ih =>
    refine ⟨fun m hm => ?_, ih hactive.2 herr⟩
    subst hm
    exact move_untouched hactive herr

/-- In every interleaving in which the grant of each applied forget is still active when its use is recorded, a forget
that ends in an error has touched neither a container nor a grant. -/
theorem refused_untouched (l : GrantLedger) (reg : Registry) (calls : List ForgetCall) (es : List ForgetEvent)
    (hactive : AllStillActive (.start l reg calls) es) (i : Nat) (e : String)
    (herr : ((Forgetting.start l reg calls).run es).stages[i]? = some (.done (.error e))) :
    UntouchedBy i (.start l reg calls) es :=
  untouchedBy_of_error hactive herr

namespace Sample

/-- A grant of one use over the container `m`. -/
def permit : GrantHandle := ⟨⟨1, 0⟩, "memory:forget:m", .once, 110, "program"⟩

def permitted : GrantLedger :=
  Grants.run .empty [.issue (fun _ => 10) 1 [.string "memory:forget:m", .number (.whole 100)]]

/-- A container with one entry. -/
def full : TypedContainer :=
  { TypedContainer.fresh "m" "s" .pub 10 with entries := ⟨[("a", .new (.plain "x") [] 10)]⟩ }

def shelf : Registry := ⟨[("m", full)]⟩

def erase : ForgetCall := .cascade "m" "a" permit

/-- Two cascades of one entry under it: the second passes its gate before the first one is recorded. -/
def twice : List ForgetEvent :=
  [.move 0 (.gate 20 true), .move 1 (.gate 20 true), .move 0 (.change 20), .move 0 (.use fun _ => 21),
    .move 1 (.change 22)]

end Sample

/-- The second finds no entry any more. -/
theorem refused_untouched_twice : UntouchedBy 1 (.start Sample.permitted Sample.shelf [Sample.erase, Sample.erase])
    Sample.twice := by
  refine refused_untouched _ _ _ _ ?_ 1 (unknownKey "memory_forget_cascade" "a" "m") (by rfl)
  refine ⟨trivial, trivial, trivial, ?_, trivial, trivial⟩
  intro call out hstage
  have hcall : call = Sample.erase := by
    cases hstage
    rfl
  subst hcall
  exact ⟨⟨⟨1, 0⟩, none, "memory:forget:m", .once, 1, 110, .active⟩, by decide +kernel⟩

/-- The use is taken by somebody else between the check and the use of the forget. -/
theorem refused_after_deletion : ¬ ∀ l reg calls es i e,
    ((Forgetting.start l reg calls).run es).stages[i]? = some (.done (.error e)) →
      UntouchedBy i (.start l reg calls) es := by
  intro h
  have hbad := h Sample.permitted Sample.shelf [Sample.erase]
    [.move 0 (.gate 20 true), .move 0 (.change 20), .other (.use (fun _ => 20) [.grant Sample.permit]),
      .move 0 (.use fun _ => 21)] 0 _ rfl
  obtain ⟨-, hrel⟩ := hbad.2.1 (.change 20) rfl
  have hm : Option.Rel (SameUnexpired 20) (some Sample.full) (some (Sample.full.removeClosure ["a"])) := hrel "m"
  cases hm with
  | some hsame => exact absurd (hsame.entries "a" (by decide)) (by decide)

end Metalogos.Memory
