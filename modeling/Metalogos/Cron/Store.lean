import Metalogos.Lib.ReadModifyWrite
import Metalogos.Cron.Job

/-!
# Cron: the job store

All jobs are one value of the key-value store. Every operation reads it, changes the list and writes it
back, and the lock is released in between (`Call.plan` is what it writes). `jobs_serialize`: where every
write finds the list its call read, the calls that completed are as if made one after another.
-/
namespace Metalogos.Cron

open Metalogos.Lib

/-- A change of the first job with the id, if there is one. -/
def updateJob (id : String) (f : CronJob → CronJob) : List CronJob → Option (List CronJob)
  | [] => none
  | job :: jobs => if job.id = id then some (f job :: jobs) else (updateJob id f jobs).map (job :: ·)

/-- The job that `cron_add` makes of its checked arguments.
mirrors src/builtins/cron.rs:431-443 -/
def CronJob.new (id cronExpr prompt : String) (createdAt : Int) (tz catchUp payload : String) : CronJob where
  id := id
  cronExpr := cronExpr
  prompt := prompt
  enabled := true
  createdAt := createdAt
  lastRun := none
  runCount := 0
  tz := tz
  catchUp := catchUp
  payload := payload
  lastWindow := none
  forceRun := false

/-- An operation with its arguments; `now` is the clock at its mark. -/
inductive Call where
  | cronAdd (id cronExpr prompt : String) (createdAt : Int) (tz catchUp payload : String)
  | cronRemove (id : String)
  | cronRun (id : String)
  | markFiredWithWindow (id : String) (window : Option Int) (now : Int)
  | advanceWindow (id : String) (window : Int)

/-- What the call saves, having read `jobs`.
mirrors src/builtins/cron.rs:427-446, 570-629, 658-713 -/
def Call.plan (jobs : List CronJob) : Call → Option (List CronJob)
  | .cronAdd id cronExpr prompt createdAt tz catchUp payload =>
    some (jobs ++ [.new id cronExpr prompt createdAt tz catchUp payload])
  | .cronRemove id => some (jobs.filter (·.id ≠ id))
  | .cronRun id => updateJob id (fun job => { job with forceRun := true }) jobs
  | .markFiredWithWindow id window now => updateJob id (·.markFired window now) jobs
  | .advanceWindow id window => updateJob id (·.advanceWindow window) jobs

variable {ι : Type} [DecidableEq ι]

/-- Calls on a store of jobs, in the order of their accesses to it. -/
def interleave (calls : ι → Call) (jobs : List CronJob) (as : List (Access ι)) : Shared ι (List CronJob) :=
  (Shared.start jobs).run (fun i jobs => (calls i).plan jobs) as

/-- The stored list is what the completed calls make one after another. -/
def NoneLost (calls : ι → Call) (jobs : List CronJob) (as : List (Access ι)) : Prop :=
  Serial (fun i jobs => (calls i).plan jobs) jobs (interleave calls jobs as)

/-- Every save finds the list that its call read. -/
def NeverStale (calls : ι → Call) (jobs : List CronJob) (as : List (Access ι)) : Prop :=
  UndisturbedAll (fun i jobs => (calls i).plan jobs) (Shared.start jobs) as

/-- **No update is lost where no save is stale.** -/
theorem jobs_serialize (calls : ι → Call) (jobs : List CronJob) (as : List (Access ι))
    (h : NeverStale calls jobs as) : NoneLost calls jobs as :=
  serial_of_undisturbed as h

def Sample.add (id : String) : Call := .cronAdd id "0 9 * * *" "OfficeMorning" 100 "" "" ""

/-- A job is added while a mark reads, and before it is marked again. -/
def Sample.calls : Fin 3 → Call
  | 0 => .markFiredWithWindow "cron_1" (some 60) 100
  | 1 => Sample.add "cron_1"
  | 2 => .markFiredWithWindow "cron_1" (some 120) 130

def Sample.accesses : List (Access (Fin 3)) := [.get 1, .get 0, .save 1, .get 2, .save 2]

theorem jobs_serialize_sample : NoneLost Sample.calls [] Sample.accesses := by
  refine jobs_serialize Sample.calls [] Sample.accesses ⟨trivial, trivial, fun seen new h => ?_, trivial,
    fun seen new h => ?_, trivial⟩
  · cases h
    rfl
  · cases h
    rfl

/-- Two jobs are added at once. -/
def Sample.both : Bool → Call
  | false => Sample.add "cron_1"
  | true => Sample.add "cron_2"

/-- One of the jobs is lost. -/
theorem add_lost : ¬ ∀ (calls : Bool → Call) (jobs : List CronJob) (as : List (Access Bool)),
    NoneLost calls jobs as := by
  intro h
  obtain ⟨order, hnodup, hdone, hstore⟩ := h Sample.both [] [.get false, .get true, .save false, .save true]
  have hadds (jobs : List CronJob) : (order.foldl (alone fun i jobs => (Sample.both i).plan jobs) jobs).length =
      jobs.length + order.length := by
    clear hnodup hdone hstore
    induction order generalizing jobs with
    | nil => rfl
    | cons i order ih =>
      have hone : (alone (fun i jobs => (Sample.both i).plan jobs) jobs i).length = jobs.length + 1 := by
        cases i <;> simp [alone, Sample.both, Sample.add, Call.plan]
      rw [List.foldl_cons, ih, hone, List.length_cons]
      omega
  have hboth : order.length = 2 := by
    have hperm : order.Perm [false, true] := by
      refine (List.perm_ext_iff_of_nodup hnodup (by decide)).2 fun i => ?_
      rw [hdone]
      cases i <;> simp <;> rfl
    exact hperm.length_eq
  have hlen := congrArg List.length hstore
  rw [hadds, hboth] at hlen
  exact absurd hlen (by decide)

end Metalogos.Cron
