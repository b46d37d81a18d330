import Metalogos.Cron.Window

/-!
# Cron: jobs and ticks

One stored job, what the scheduler reads of it (`CronJobSpec`), the decision of a tick and what the tick
then stamps. A run is a list of ticks and manual requests; its `log` has the windows that were stamped, in
order. What a tick can do is `Ticks`, once for all invariants (`tick_cases`).
-/
namespace Metalogos.Cron

open Metalogos.Lib

/-- A stored job, as `cron_add` writes it.
mirrors src/builtins/cron.rs:431-443 -/
structure CronJob where
  id : String
  cronExpr : String
  prompt : String
  enabled : Bool
  createdAt : Int
  lastRun : Option Int
  runCount : Nat
  tz : String
  catchUp : String
  payload : String
  lastWindow : Option Int
  forceRun : Bool
  deriving DecidableEq

/-- mirrors src/builtins/cron.rs:780-787 -/
inductive CatchUpPolicy where
  | runOnce
  | skip
  deriving DecidableEq

/-- mirrors src/builtins/cron.rs:794-808 -/
structure CronJobSpec where
  id : String
  cronExpr : String
  prompt : String
  tz : String
  catchUp : CatchUpPolicy
  payload : Option String
  lastWindow : Option Int
  forceRun : Bool
  createdAt : Int
  deriving DecidableEq

/-- mirrors src/builtins/cron.rs:1017-1036 -/
def CronJob.spec (job : CronJob) : CronJobSpec where
  id := job.id
  cronExpr := job.cronExpr
  prompt := job.prompt
  tz := job.tz
  catchUp := if job.catchUp = "skip" then .skip else .runOnce
  payload := if job.payload = "" then none else some job.payload
  lastWindow := job.lastWindow
  forceRun := job.forceRun
  createdAt := job.createdAt

/-- mirrors src/builtins/cron.rs:811-821 -/
structure FireDecision where
  fire : Bool
  window : Option Int
  advance : Bool
  reason : String
  deriving DecidableEq

variable (C : Calendar)

/-- mirrors src/builtins/cron.rs:902-972 -/
def cronFireDecision (spec : CronJobSpec) (now : Int) : Except String FireDecision :=
  match resolveJobTz C spec.tz with
  | .error e => .error e
  | .ok tz =>
    if spec.forceRun then
      .ok ⟨true, (lastWindowBefore C spec.cronExpr tz now none).or (some (minuteOf now)), false, "force_run"⟩
    else match lastWindowBefore C spec.cronExpr tz now (spec.lastWindow.or (some spec.createdAt)) with
    | none => .ok ⟨false, none, false, "no-window"⟩
    | some current =>
      if spec.lastWindow = some current then .ok ⟨false, some current, false, "already-fired"⟩
      else if current < spec.createdAt && spec.lastWindow.isNone then
        .ok ⟨false, some current, true, "pre-creation"⟩
      else if now < current + 60 then .ok ⟨true, some current, false, "due"⟩
      else match spec.catchUp with
        | .runOnce => .ok ⟨true, some current, false, "catch-up"⟩
        | .skip => .ok ⟨false, some current, true, "skipped"⟩

/-! ## Stamps -/

/-- The change `mark_fired_with_window` makes to the job.
mirrors src/builtins/cron.rs:662-671 -/
def CronJob.markFired (job : CronJob) (window : Option Int) (now : Int) : CronJob :=
  { job with
    forceRun := false
    runCount := job.runCount + 1
    lastRun := some now
    lastWindow := window.or job.lastWindow }

/-- mirrors src/builtins/cron.rs:701-703 -/
def CronJob.advanceWindow (job : CronJob) (window : Int) : CronJob :=
  if job.lastWindow.all (· < window) then { job with lastWindow := some window } else job

inductive StampKind where
  | scheduled
  | forced
  | advanced
  deriving DecidableEq

/-- A window that became the `last_window` of the job. -/
structure Stamp where
  window : Int
  kind : StampKind
  deriving DecidableEq

/-- The job and the stamps so far. -/
structure Ticked where
  job : CronJob
  log : List Stamp

/-- What a decision does, `marked` being the time of the mark. -/
def Ticked.apply (s : Ticked) (marked : Int) (d : FireDecision) : Ticked :=
  if d.fire then
    let kind := if s.job.forceRun then StampKind.forced else .scheduled
    ⟨s.job.markFired d.window marked, s.log ++ (d.window.map (⟨·, kind⟩)).toList⟩
  else match d.window with
    | some w =>
      if d.advance && s.job.lastWindow.all (· < w) then ⟨s.job.advanceWindow w, s.log ++ [⟨w, .advanced⟩]⟩
      else s
    | none => s

/-- mirrors metalogos-server/src/server.rs:705-763 -/
def Ticked.tick (s : Ticked) (t marked : Int) : Ticked :=
  match cronFireDecision C s.job.spec t with
  | .error _ => s
  | .ok d => s.apply marked d

/-- `force` is what `cron_run` sets. -/
inductive Event where
  | force
  | tick (t marked : Int)

def Ticked.step (s : Ticked) : Event → Ticked
  | .force => { s with job := { s.job with forceRun := true } }
  | .tick t marked => s.tick C t marked

def run (job : CronJob) (events : List Event) : Ticked := events.foldl (Ticked.step C) ⟨job, []⟩

/-! ## What a tick can do -/

/-- All of `s'` that a tick at `t` in `s` can lead to; `window` and `horizon` are those of the scan. -/
inductive Ticks (s : Ticked) (tz : C.Tz) (t marked : Int) : Ticked → Prop where
  | forced (w : Int) (hforce : s.job.forceRun = true)
      (hw : lastWindowBefore C s.job.cronExpr tz t none = some w ∨
        lastWindowBefore C s.job.cronExpr tz t none = none ∧ w = minuteOf t) :
      Ticks s tz t marked ⟨s.job.markFired (some w) marked, s.log ++ [⟨w, .forced⟩]⟩
  | nothing (hforce : s.job.forceRun = false)
      (hnone : lastWindowBefore C s.job.cronExpr tz t (s.job.lastWindow.or (some s.job.createdAt)) = none) :
      Ticks s tz t marked s
  | again (w : Int) (hforce : s.job.forceRun = false)
      (hw : lastWindowBefore C s.job.cronExpr tz t (s.job.lastWindow.or (some s.job.createdAt)) = some w)
      (hlast : s.job.lastWindow = some w) : Ticks s tz t marked s
  | passed (w : Int) (hforce : s.job.forceRun = false)
      (hw : lastWindowBefore C s.job.cronExpr tz t (s.job.lastWindow.or (some s.job.createdAt)) = some w)
      (hlast : ∀ h, s.job.lastWindow = some h → h < w)
      (hwhy : s.job.lastWindow = none ∨ s.job.catchUp = "skip") :
      Ticks s tz t marked ⟨{ s.job with lastWindow := some w }, s.log ++ [⟨w, .advanced⟩]⟩
  | stale (w h : Int) (hforce : s.job.forceRun = false)
      (hw : lastWindowBefore C s.job.cronExpr tz t (s.job.lastWindow.or (some s.job.createdAt)) = some w)
      (hlast : s.job.lastWindow = some h) (hlt : w < h) (hout : w + 60 ≤ t) (hskip : s.job.catchUp = "skip") :
      Ticks s tz t marked s
  | fired (w : Int) (hforce : s.job.forceRun = false)
      (hw : lastWindowBefore C s.job.cronExpr tz t (s.job.lastWindow.or (some s.job.createdAt)) = some w)
      (hlast : s.job.lastWindow ≠ some w) (hcreated : s.job.lastWindow = none → s.job.createdAt ≤ w) :
      Ticks s tz t marked ⟨s.job.markFired (some w) marked, s.log ++ [⟨w, .scheduled⟩]⟩

variable {C}

theorem advanceWindow_of_all {job : CronJob} {w : Int} (h : job.lastWindow.all (· < w) = true) :
    job.advanceWindow w = { job with lastWindow := some w } := if_pos h

/-- A window that is skipped or was before the job. -/
theorem advance_cases {s : Ticked} {tz : C.Tz} {t marked w : Int} (hforce : s.job.forceRun = false)
    (hw : lastWindowBefore C s.job.cronExpr tz t (s.job.lastWindow.or (some s.job.createdAt)) = some w)
    (hlast : s.job.lastWindow ≠ some w)
    (hwhy : s.job.lastWindow = none ∨ s.job.catchUp = "skip" ∧ w + 60 ≤ t) :
    Ticks C s tz t marked
      (if s.job.lastWindow.all (· < w) = true then ⟨s.job.advanceWindow w, s.log ++ [⟨w, .advanced⟩]⟩ else s) := by
  split_ifs with hall
  · rw [advanceWindow_of_all hall]
    refine .passed w hforce hw (fun h hh => ?_) (hwhy.imp_right And.left)
    rw [hh] at hall
    simpa using hall
  · cases hl : s.job.lastWindow with
    | none =>
      rw [hl] at hall
      exact absurd rfl hall
    | some h =>
      have hne : h ≠ w := fun he => hlast (he ▸ hl)
      rw [hl] at hall hwhy
      simp only [Option.all_some, decide_eq_true_eq] at hall
      obtain hnone | ⟨hskip, hout⟩ := hwhy
      · cases hnone
      · exact .stale w h hforce hw hl (by omega) hout hskip

theorem tick_eq {s : Ticked} {t marked : Int} {d : FireDecision} (hd : cronFireDecision C s.job.spec t = .ok d) :
    s.tick C t marked = s.apply marked d := by
  simp only [Ticked.tick, hd]

theorem forced_cases {s : Ticked} {tz : C.Tz} {t marked : Int} (htz : resolveJobTz C s.job.tz = .ok tz)
    (hforce : s.job.forceRun = true) : Ticks C s tz t marked (s.tick C t marked) := by
  have hd : cronFireDecision C s.job.spec t = .ok ⟨true,
      (lastWindowBefore C s.job.cronExpr tz t none).or (some (minuteOf t)), false, "force_run"⟩ := by
    simp only [cronFireDecision, CronJob.spec, htz, hforce, if_true]
  rw [tick_eq hd]
  cases hw : lastWindowBefore C s.job.cronExpr tz t none with
  | none =>
    have hcase : Ticks C s tz t marked _ := .forced (minuteOf t) hforce (.inr ⟨hw, rfl⟩)
    simpa [Ticked.apply, hforce] using hcase
  | some w =>
    have hcase : Ticks C s tz t marked _ := .forced w hforce (.inl hw)
    simpa [Ticked.apply, hforce] using hcase

/-- The scan has found a window. -/
theorem window_cases {s : Ticked} {tz : C.Tz} {t marked w : Int} (htz : resolveJobTz C s.job.tz = .ok tz)
    (hforce : s.job.forceRun = false)
    (hw : lastWindowBefore C s.job.cronExpr tz t (s.job.lastWindow.or (some s.job.createdAt)) = some w) :
    Ticks C s tz t marked (s.tick C t marked) := by
  have hfound : cronFireDecision C s.job.spec t =
      if s.job.lastWindow = some w then .ok ⟨false, some w, false, "already-fired"⟩
      else if decide (w < s.job.createdAt) && s.job.lastWindow.isNone then
        .ok ⟨false, some w, true, "pre-creation"⟩
      else if t < w + 60 then .ok ⟨true, some w, false, "due"⟩
      else match s.job.spec.catchUp with
        | .runOnce => .ok ⟨true, some w, false, "catch-up"⟩
        | .skip => .ok ⟨false, some w, true, "skipped"⟩ := by
    simp only [cronFireDecision, CronJob.spec, htz, hforce, Bool.false_eq_true, if_false, hw]
  by_cases hlast : s.job.lastWindow = some w
  · rw [if_pos hlast] at hfound
    rw [tick_eq hfound]
    exact .again w hforce hw hlast
  rw [if_neg hlast] at hfound
  by_cases hpre : (decide (w < s.job.createdAt) && s.job.lastWindow.isNone) = true
  · rw [if_pos hpre] at hfound
    have hnone : s.job.lastWindow = none := by
      rw [Bool.and_eq_true] at hpre
      exact Option.isNone_iff_eq_none.1 hpre.2
    rw [tick_eq hfound]
    exact advance_cases hforce hw hlast (.inl hnone)
  rw [if_neg hpre] at hfound
  have hfired : Ticks C s tz t marked ⟨s.job.markFired (some w) marked, s.log ++ [⟨w, .scheduled⟩]⟩ := by
    refine .fired w hforce hw hlast fun hnone => ?_
    by_contra hlt
    exact hpre (by simp [hnone, Int.not_le.1 hlt])
  by_cases hin : t < w + 60
  · rw [if_pos hin] at hfound
    rw [tick_eq hfound]
    simpa [Ticked.apply, hforce] using hfired
  rw [if_neg hin] at hfound
  by_cases hskip : s.job.catchUp = "skip"
  · have hpolicy : s.job.spec.catchUp = .skip := if_pos hskip
    simp only [hpolicy] at hfound
    rw [tick_eq hfound]
    exact advance_cases hforce hw hlast (.inr ⟨hskip, by omega⟩)
  · have hpolicy : s.job.spec.catchUp = .runOnce := if_neg hskip
    simp only [hpolicy] at hfound
    rw [tick_eq hfound]
    simpa [Ticked.apply, hforce] using hfired

theorem tick_cases (s : Ticked) (t marked : Int) :
    (∃ e, resolveJobTz C s.job.tz = .error e ∧ s.tick C t marked = s) ∨
      ∃ tz, resolveJobTz C s.job.tz = .ok tz ∧ Ticks C s tz t marked (s.tick C t marked) := by
  cases htz : resolveJobTz C s.job.tz with
  | error e =>
    refine .inl ⟨e, rfl, ?_⟩
    simp only [Ticked.tick, cronFireDecision, CronJob.spec, htz]
  | ok tz =>
    refine .inr ⟨tz, rfl, ?_⟩
    cases hforce : s.job.forceRun with
    | true => exact forced_cases htz hforce
    | false =>
      cases hw : lastWindowBefore C s.job.cronExpr tz t (s.job.lastWindow.or (some s.job.createdAt)) with
      | some w => exact window_cases htz hforce hw
      | none =>
        have hd : cronFireDecision C s.job.spec t = .ok ⟨false, none, false, "no-window"⟩ := by
          simp only [cronFireDecision, CronJob.spec, htz, hforce, Bool.false_eq_true, if_false, hw]
        rw [tick_eq hd]
        exact .nothing hforce hw

end Metalogos.Cron
