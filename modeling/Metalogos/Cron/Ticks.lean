import Mathlib.Data.List.Induction
import Metalogos.Cron.Job

/-!
# Cron: what a run of ticks fires

Over any run of ticks and manual requests the stamp is a whole minute, and either a window or before all
windows (`Settled`). As long as a tick does not come before the minute of the stamp, what it stamps next is
not before, and strictly after where a schedule fires it (`Settled.tick`).

`windows_fire_once`: with ticks in order, no window is fired twice, the stamps do not go back, and with
`run_once` none is dropped. `stamp_survives_iff`: with ticks in any order, the stamp does not go back and no
window is fired twice exactly when every tick is `OnTime`.
-/
namespace Metalogos.Cron

variable {C : Calendar}

/-! ## The order of stamps -/

/-- A later stamp is not of an earlier window, and of a later one if the schedule fired it. -/
def Before (a b : Stamp) : Prop := a.window ≤ b.window ∧ (b.kind = .scheduled → a.window < b.window)

/-- The job carries the stamp `l`, the last of the log. -/
structure Settled (s : Ticked) (tz : C.Tz) (l : Int) : Prop where
  last : s.job.lastWindow = some l
  log : ∀ a ∈ s.log, a.window ≤ l
  minute : l % 60 = 0
  latest : IsWindow C s.job.cronExpr tz l ∨ ∀ v, IsWindow C s.job.cronExpr tz v → l < v

/-- What never changes. -/
structure SameJob (job job' : CronJob) : Prop where
  cronExpr : job'.cronExpr = job.cronExpr
  tz : job'.tz = job.tz
  catchUp : job'.catchUp = job.catchUp
  createdAt : job'.createdAt = job.createdAt

theorem Ticks.same {s s' : Ticked} {tz : C.Tz} {t marked : Int} (h : Ticks C s tz t marked s') :
    SameJob s.job s'.job := by
  cases h <;> exact ⟨rfl, rfl, rfl, rfl⟩

theorem step_same (s : Ticked) (e : Event) : SameJob s.job (s.step C e).job := by
  cases e with
  | force => exact ⟨rfl, rfl, rfl, rfl⟩
  | tick t marked =>
    obtain ⟨e, -, hs⟩ | ⟨tz, -, hs⟩ := tick_cases (C := C) s t marked
    · simp only [Ticked.step, hs]
      exact ⟨rfl, rfl, rfl, rfl⟩
    · exact hs.same

/-- A window that the scan without a horizon yields, or the minute itself. -/
theorem forced_window {expr : String} {tz : C.Tz} {t w : Int}
    (hw : lastWindowBefore C expr tz t none = some w ∨ lastWindowBefore C expr tz t none = none ∧ w = minuteOf t) :
    w ≤ minuteOf t ∧ w % 60 = 0 ∧ (IsWindow C expr tz w ∨ ∀ v, IsWindow C expr tz v → w < v) ∧
      ∀ v, IsWindow C expr tz v → v ≤ minuteOf t → v ≤ w := by
  obtain hw | ⟨hnone, rfl⟩ := hw
  · obtain ⟨hwin, hle, hmax, -⟩ := lastWindowBefore_some hw
    exact ⟨hle, hwin.minute, .inl hwin, hmax⟩
  · have hafter (v : Int) (hv : IsWindow C expr tz v) : minuteOf t < v := by
      by_contra hle
      obtain ⟨hz, hhz, -⟩ := lastWindowBefore_none hnone v hv (by omega)
      cases hhz
    exact ⟨Int.le_refl _, minuteOf_mod t, .inr hafter, fun v _ hle => hle⟩

theorem pairwise_concat {log : List Stamp} {l : Int} {b : Stamp} (h : log.Pairwise Before)
    (hlog : ∀ a ∈ log, a.window ≤ l) (hb : l ≤ b.window) (hs : b.kind = .scheduled → l < b.window) :
    (log ++ [b]).Pairwise Before := by
  refine List.pairwise_append.2 ⟨h, List.pairwise_singleton _ _, fun a ha c hc => ?_⟩
  obtain rfl : c = b := by simpa using hc
  have hal := hlog a ha
  exact ⟨by omega, fun hk => by have := hs hk; omega⟩

/-- A stamped window settles the job. -/
theorem settled_of_stamp {s s' : Ticked} {tz : C.Tz} {w l : Int} {k : StampKind}
    (hlog : ∀ a ∈ s.log, a.window ≤ l) (hl : l ≤ w) (hs' : s'.log = s.log ++ [⟨w, k⟩])
    (hlast : s'.job.lastWindow = some w) (hmin : w % 60 = 0)
    (hlatest : IsWindow C s'.job.cronExpr tz w ∨ ∀ v, IsWindow C s'.job.cronExpr tz v → w < v) :
    Settled s' tz w := by
  refine ⟨hlast, fun a ha => ?_, hmin, hlatest⟩
  rw [hs'] at ha
  rcases List.mem_append.1 ha with ha | ha
  · have := hlog a ha
    omega
  · obtain rfl : a = ⟨w, k⟩ := by simpa using ha
    exact Int.le_refl _

/-- Not before the minute of the stamp, a tick stamps no earlier window. -/
theorem Settled.tick {s s' : Ticked} {tz : C.Tz} {l t marked : Int} (h : Settled s tz l)
    (hlog : s.log.Pairwise Before) (hl : l ≤ minuteOf t) (hs : Ticks C s tz t marked s') :
    s'.log.Pairwise Before ∧ ∃ l', Settled s' tz l' ∧ l ≤ l' ∧ l' ≤ minuteOf t := by
  -- what the scan down to the stamp finds is not before the stamp
  have hfound {w : Int} (hw : lastWindowBefore C s.job.cronExpr tz t
      (s.job.lastWindow.or (some s.job.createdAt)) = some w) :
      IsWindow C s.job.cronExpr tz w ∧ w ≤ minuteOf t ∧ l ≤ w := by
    obtain ⟨hwin, hle, -, hafter⟩ := lastWindowBefore_some hw
    refine ⟨hwin, hle, ?_⟩
    by_contra hlt
    have hself := hafter l (by rw [h.last]; rfl) l h.minute (by omega) hl
    omega
  cases hs with
  | forced w hforce hw =>
    obtain ⟨hle, hmin, hlatest, hmax⟩ := forced_window hw
    have hlw : l ≤ w := by
      obtain hwin | hnone := h.latest
      · exact hmax l hwin hl
      · obtain hw | ⟨-, rfl⟩ := hw
        · have := hnone w (lastWindowBefore_some hw).1
          omega
        · exact hl
    exact ⟨pairwise_concat hlog h.log hlw nofun,
      w, settled_of_stamp h.log hlw rfl rfl hmin hlatest, hlw, hle⟩
  | nothing hforce hnone => exact ⟨hlog, l, h, Int.le_refl _, hl⟩
  | again w hforce hw hlast => exact ⟨hlog, l, h, Int.le_refl _, hl⟩
  | passed w hforce hw hlast hwhy =>
    obtain ⟨hwin, hle, hlw⟩ := hfound hw
    exact ⟨pairwise_concat hlog h.log hlw nofun,
      w, settled_of_stamp h.log hlw rfl rfl hwin.minute (.inl hwin), hlw, hle⟩
  | stale w hz hforce hw hlast hlt => exact ⟨hlog, l, h, Int.le_refl _, hl⟩
  | fired w hforce hw hlast hcreated =>
    obtain ⟨hwin, hle, hlw⟩ := hfound hw
    have hne : l ≠ w := fun he => hlast (he ▸ h.last)
    have hltw : l < w := by omega
    exact ⟨pairwise_concat hlog h.log hlw fun _ => hltw,
      w, settled_of_stamp h.log hlw rfl rfl hwin.minute (.inl hwin), hlw, hle⟩

/-- The first stamp settles the job, whatever it carried. -/
theorem first_tick {s s' : Ticked} {tz : C.Tz} {t marked : Int} (hlog : s.log = [])
    (hs : Ticks C s tz t marked s') : s'.log.Pairwise Before ∧
      (s' = s ∨ ∃ l, Settled s' tz l ∧ l ≤ minuteOf t) := by
  have hnil {l : Int} : ∀ a ∈ s.log, a.window ≤ l := by simp [hlog]
  cases hs with
  | forced w hforce hw =>
    obtain ⟨hle, hmin, hlatest, -⟩ := forced_window hw
    exact ⟨by simp [hlog], .inr ⟨w, settled_of_stamp hnil (Int.le_refl w) rfl rfl hmin hlatest, hle⟩⟩
  | nothing hforce hnone => exact ⟨by simp [hlog], .inl rfl⟩
  | again w hforce hw hlast => exact ⟨by simp [hlog], .inl rfl⟩
  | passed w hforce hw hlast hwhy =>
    obtain ⟨hwin, hle, -⟩ := lastWindowBefore_some hw
    exact ⟨by simp [hlog], .inr ⟨w, settled_of_stamp hnil (Int.le_refl w) rfl rfl hwin.minute (.inl hwin), hle⟩⟩
  | stale w hz hforce hw hlast hlt => exact ⟨by simp [hlog], .inl rfl⟩
  | fired w hforce hw hlast hcreated =>
    obtain ⟨hwin, hle, -⟩ := lastWindowBefore_some hw
    exact ⟨by simp [hlog], .inr ⟨w, settled_of_stamp hnil (Int.le_refl w) rfl rfl hwin.minute (.inl hwin), hle⟩⟩

/-! ## Runs -/

theorem run_concat (job : CronJob) (events : List Event) (e : Event) :
    run C job (events ++ [e]) = (run C job events).step C e := by
  simp [run]

theorem SameJob.trans {a b c : CronJob} (h : SameJob a b) (h' : SameJob b c) : SameJob a c :=
  ⟨h'.cronExpr.trans h.cronExpr, h'.tz.trans h.tz, h'.catchUp.trans h.catchUp, h'.createdAt.trans h.createdAt⟩

theorem run_same (job : CronJob) (events : List Event) : SameJob job (run C job events).job := by
  induction events using List.reverseRecOn with
  | nil => exact ⟨rfl, rfl, rfl, rfl⟩
  | append_singleton events e ih =>
    rw [run_concat]
    exact ih.trans (step_same _ e)

/-- The time of a tick. -/
def Event.time : Event → Option Int
  | .force => none
  | .tick t _ => some t

def times (events : List Event) : List Int := events.filterMap Event.time

theorem times_concat_tick (events : List Event) (t marked : Int) :
    times (events ++ [.tick t marked]) = times events ++ [t] := by
  simp [times, Event.time]

theorem times_concat_force (events : List Event) : times (events ++ [.force]) = times events := by
  simp [times, Event.time]

/-- The stamps of a run whose ticks were not after `t`. -/
structure Ordered (job : CronJob) (events : List Event) : Prop where
  log : (run C job events).log.Pairwise Before
  last : (run C job events).log = [] ∨ ∃ tz l, resolveJobTz C job.tz = .ok tz ∧
    Settled (run C job events) tz l ∧ ∀ t, (∀ t' ∈ times events, t' ≤ t) → l ≤ minuteOf t

theorem Settled.force {s : Ticked} {tz : C.Tz} {l : Int} (h : Settled s tz l) :
    Settled (s.step C .force) tz l :=
  ⟨h.last, h.log, h.minute, h.latest⟩

theorem Ordered.force {job : CronJob} {events : List Event} (h : Ordered (C := C) job events) :
    Ordered (C := C) job (events ++ [.force]) := by
  obtain ⟨hlog, hlast⟩ := h
  refine ⟨by rwa [run_concat], ?_⟩
  rw [run_concat, times_concat_force]
  obtain hnil | ⟨tz, l, htz, hsettled, hbound⟩ := hlast
  · exact .inl hnil
  · exact .inr ⟨tz, l, htz, hsettled.force, hbound⟩

theorem Ordered.tick {job : CronJob} {events : List Event} (h : Ordered (C := C) job events) {t : Int} (marked : Int)
    (hle : ∀ t' ∈ times events, t' ≤ t) : Ordered (C := C) job (events ++ [.tick t marked]) := by
  obtain ⟨hlog, hlast⟩ := h
  have hstep : run C job (events ++ [.tick t marked]) = (run C job events).tick C t marked := run_concat ..
  have htz := (run_same (C := C) job events).tz
  have hbound {l t₂ : Int} (hl : l ≤ minuteOf t) (ht₂ : ∀ t' ∈ times (events ++ [.tick t marked]), t' ≤ t₂) :
      l ≤ minuteOf t₂ := by
    rw [times_concat_tick] at ht₂
    have := minuteOf_mono (ht₂ t (by simp))
    omega
  obtain ⟨err, herr, hs⟩ | ⟨tz, hok, hs⟩ := tick_cases (C := C) (run C job events) t marked
  · refine ⟨by rwa [hstep, hs], ?_⟩
    rw [hstep, hs]
    refine hlast.imp_right ?_
    rintro ⟨tz, l, hok, -⟩
    rw [htz, hok] at herr
    cases herr
  · rw [htz] at hok
    rw [← hstep] at hs
    obtain hnil | ⟨tz', l, hok', hsettled, hl⟩ := hlast
    · obtain ⟨hlog', hs' | ⟨l, hsettled', hl'⟩⟩ := first_tick hnil hs
      · exact ⟨hlog', .inl (by rw [hs', hnil])⟩
      · exact ⟨hlog', .inr ⟨tz, l, hok, hsettled', fun t₂ ht₂ => hbound hl' ht₂⟩⟩
    · obtain rfl : tz' = tz := by
        rw [hok] at hok'
        exact (Except.ok.inj hok').symm
      obtain ⟨hlog', l', hsettled', -, hl'⟩ := hsettled.tick hlog (hl t hle) hs
      exact ⟨hlog', .inr ⟨tz', l', hok, hsettled', fun t₂ ht₂ => hbound hl' ht₂⟩⟩

theorem ordered_run (job : CronJob) (events : List Event) (h : (times events).Pairwise (· ≤ ·)) :
    Ordered (C := C) job events := by
  induction events using List.reverseRecOn with
  | nil => exact ⟨.nil, .inl rfl⟩
  | append_singleton events e ih =>
    cases e with
    | force =>
      rw [times_concat_force] at h
      exact (ih h).force
    | tick t marked =>
      rw [times_concat_tick, List.pairwise_append] at h
      exact (ih h.1).tick marked fun t' ht' => h.2.2 t' ht' t (by simp)

/-- The windows that the schedule fired, in order. -/
def Ticked.fires (s : Ticked) : List Int := (s.log.filter (·.kind = .scheduled)).map (·.window)

theorem fires_sorted {s : Ticked} (h : s.log.Pairwise Before) : s.fires.Pairwise (· < ·) := by
  refine List.pairwise_map.2 (List.Pairwise.imp_of_mem ?_ (h.filter _))
  intro a b ha hb hab
  exact hab.2 (by simpa using (List.mem_filter.1 hb).2)

/-- With `run_once`, no window from the creation of the job until a tick is after the stamp it leaves. -/
theorem Ticks.none_dropped {s s' : Ticked} {tz : C.Tz} {t marked w : Int} (hs : Ticks C s tz t marked s')
    (hpolicy : s.job.catchUp ≠ "skip") (hw : IsWindow C s.job.cronExpr tz w)
    (hcreated : s.job.createdAt ≤ w) (hwt : w ≤ t) : ∃ l, s'.job.lastWindow = some l ∧ w ≤ l := by
  have hwm := hw.le_minuteOf hwt
  cases hs with
  | forced v hforce hv =>
    obtain ⟨-, -, -, hmax⟩ := forced_window hv
    exact ⟨v, rfl, hmax w hw hwm⟩
  | nothing hforce hnone =>
    obtain ⟨hz, hhz, hlt⟩ := lastWindowBefore_none hnone w hw hwm
    cases hl : s.job.lastWindow with
    | none =>
      rw [hl] at hhz
      obtain rfl : s.job.createdAt = hz := Option.some.inj hhz
      omega
    | some l =>
      rw [hl] at hhz
      obtain rfl : l = hz := Option.some.inj hhz
      exact ⟨l, rfl, by omega⟩
  | again v hforce hv hlast => exact ⟨v, hlast, (lastWindowBefore_some hv).2.2.1 w hw hwm⟩
  | passed v hforce hv hlast hwhy => exact ⟨v, rfl, (lastWindowBefore_some hv).2.2.1 w hw hwm⟩
  | stale v hz hforce hv hlast hlt hout hskip => exact absurd hskip hpolicy
  | fired v hforce hv hlast hc => exact ⟨v, rfl, (lastWindowBefore_some hv).2.2.1 w hw hwm⟩

/-- **Windows fire at most once, and none is dropped.** -/
theorem windows_fire_once (C : Calendar) (job : CronJob) (events : List Event)
    (h : (times events).Pairwise (· ≤ ·)) :
    (run C job events).fires.Nodup ∧
    ((run C job events).log.map (·.window)).Pairwise (· ≤ ·) ∧
    (job.spec.catchUp = .runOnce → ∀ pre t marked, pre ++ [.tick t marked] <+: events →
      ∀ tz w, resolveJobTz C job.tz = .ok tz → IsWindow C job.cronExpr tz w → job.createdAt ≤ w → w ≤ t →
      ∃ l, (run C job (pre ++ [.tick t marked])).job.lastWindow = some l ∧ w ≤ l) := by
  have hlog := (ordered_run (C := C) job events h).log
  refine ⟨(fires_sorted hlog).imp (fun hlt => Int.ne_of_lt hlt), List.pairwise_map.2 (hlog.imp And.left), ?_⟩
  intro hpolicy pre t marked _ tz w htz hw hcreated hwt
  obtain ⟨hexpr, hsametz, hcatch, hcreatedAt⟩ := run_same (C := C) job pre
  have hskip : job.catchUp ≠ "skip" := by
    intro hskip
    rw [CronJob.spec, if_pos hskip] at hpolicy
    cases hpolicy
  obtain ⟨err, herr, -⟩ | ⟨tz', hok, hs⟩ := tick_cases (C := C) (run C job pre) t marked
  · rw [hsametz, htz] at herr
    cases herr
  · obtain rfl : tz = tz' := by
      rw [hsametz, htz] at hok
      exact Except.ok.inj hok
    rw [run_concat, Ticked.step]
    exact hs.none_dropped (by rwa [hcatch]) (by rwa [hexpr]) (by rwa [hcreatedAt]) hwt

/-- UTC in January 1970. -/
def Sample.utc : Calendar where
  Tz := Unit
  parse name := if name = "UTC" then some () else none
  envTz := none
  wallClock _ t :=
    if 0 ≤ t ∧ t < 31 * 86400 then
      some ⟨(t / 60 % 60).toNat, (t / 3600 % 24).toNat, (t / 86400 + 1).toNat, 1, ((4 + t / 86400) % 7).toNat⟩
    else none

/-- Every second minute. -/
def Sample.job : CronJob :=
  ⟨"cron_1", "*/2 * * * *", "tick", true, 100, none, 0, "UTC", "run_once", "", none, false⟩

/-- Two ticks in one window, a manual run, and a tick after a missed window. -/
def Sample.inOrder : List Event := [.tick 130 130, .tick 150 150, .force, .tick 190 191, .tick 430 430]

theorem windows_fire_once_sample : (run Sample.utc Sample.job Sample.inOrder).fires.Nodup ∧
    ∃ l, (run Sample.utc Sample.job Sample.inOrder).job.lastWindow = some l ∧ 360 ≤ l := by
  obtain ⟨hnodup, -, hnone⟩ := windows_fire_once Sample.utc Sample.job Sample.inOrder (by decide)
  refine ⟨hnodup, ?_⟩
  have hwindow : IsWindow Sample.utc Sample.job.cronExpr () 360 := ⟨by decide, by decide, by decide +kernel⟩
  exact hnone rfl [.tick 130 130, .tick 150 150, .force, .tick 190 191] 430 430 (List.prefix_refl _) () 360
    rfl hwindow (by decide) (by decide)

/-! ## Clock steps -/

/-- No step of the run takes the stamp back. -/
def NeverBack (C : Calendar) (job : CronJob) (events : List Event) : Prop :=
  ∀ pre e, pre ++ [e] <+: events → ∀ l, (run C job pre).job.lastWindow = some l →
    ∃ l', (run C job (pre ++ [e])).job.lastWindow = some l' ∧ l ≤ l'

/-- The tick does not come before the minute of the stamp, or it finds nothing to do there. -/
def OnTime (C : Calendar) (job : CronJob) : Event → Prop
  | .force => True
  | .tick t _ => ∀ tz l, resolveJobTz C job.tz = .ok tz → job.lastWindow = some l →
      l ≤ minuteOf t ∨ job.forceRun = false ∧ ¬ IsWindow C job.cronExpr tz (minuteOf t)

/-- The stamps of a run with its ticks in any order. -/
structure Stamped (C : Calendar) (job : CronJob) (s : Ticked) : Prop where
  log : s.log.Pairwise Before
  last : s.log = [] ∧ s.job.lastWindow = none ∨
    ∃ (tz : C.Tz) (l : Int), resolveJobTz C job.tz = .ok tz ∧ Settled s tz l

/-- A tick before the minute of the stamp that is on time changes nothing. -/
theorem OnTime.early {s s' : Ticked} {tz : C.Tz} {l t marked : Int} (hlast : s.job.lastWindow = some l)
    (hlt : minuteOf t < l) (hforce : s.job.forceRun = false)
    (hwin : ¬ IsWindow C s.job.cronExpr tz (minuteOf t)) (hs : Ticks C s tz t marked s') : s' = s := by
  have hnone : lastWindowBefore C s.job.cronExpr tz t (s.job.lastWindow.or (some s.job.createdAt)) = none := by
    rw [hlast]
    exact lastWindowBefore_early hwin (by omega)
  cases hs with
  | forced w hf => exact absurd (hforce.symm.trans hf) (by decide)
  | nothing => rfl
  | again => rfl
  | passed w _ hw => exact absurd (hnone.symm.trans hw) nofun
  | stale => rfl
  | fired w _ hw => exact absurd (hnone.symm.trans hw) nofun

/-- A step that is on time keeps the order of the stamps and does not take the stamp back. -/
theorem Stamped.step {job : CronJob} {s : Ticked} {e : Event} (h : Stamped C job s) (htz : s.job.tz = job.tz)
    (he : OnTime C s.job e) : Stamped C job (s.step C e) ∧
      ∀ l, s.job.lastWindow = some l → ∃ l', (s.step C e).job.lastWindow = some l' ∧ l ≤ l' := by
  have hkeep : ∀ l, s.job.lastWindow = some l → ∃ l', s.job.lastWindow = some l' ∧ l ≤ l' :=
    fun l hl => ⟨l, hl, Int.le_refl _⟩
  cases e with
  | force =>
    refine ⟨⟨h.log, h.last.imp_right ?_⟩, hkeep⟩
    rintro ⟨tz, l, hok, hsettled⟩
    exact ⟨tz, l, hok, hsettled.force⟩
  | tick t marked =>
    rw [Ticked.step]
    obtain ⟨err, -, hs⟩ | ⟨tz, hok, hs⟩ := tick_cases (C := C) s t marked
    · rw [hs]
      exact ⟨h, hkeep⟩
    · obtain ⟨hnil, hnone⟩ | ⟨tz', l, hok', hsettled⟩ := h.last
      · obtain ⟨hlog, hs' | ⟨l, hsettled, -⟩⟩ := first_tick hnil hs
        · rw [hs']
          exact ⟨h, hkeep⟩
        · refine ⟨⟨hlog, .inr ⟨tz, l, by rwa [← htz], hsettled⟩⟩, fun l' hl' => ?_⟩
          rw [hnone] at hl'
          cases hl'
      · obtain rfl : tz = tz' := by
          rw [htz, hok'] at hok
          exact (Except.ok.inj hok).symm
        obtain hle | ⟨hforce, hwin⟩ := he tz l hok hsettled.last
        · obtain ⟨hlog, l', hsettled', hle', -⟩ := hsettled.tick h.log hle hs
          refine ⟨⟨hlog, .inr ⟨tz, l', hok', hsettled'⟩⟩, fun l₁ hl₁ => ?_⟩
          obtain rfl : l = l₁ := Option.some.inj (hsettled.last.symm.trans hl₁)
          exact ⟨l', hsettled'.last, hle'⟩
        · by_cases hle : l ≤ minuteOf t
          · obtain ⟨hlog, l', hsettled', hle', -⟩ := hsettled.tick h.log hle hs
            refine ⟨⟨hlog, .inr ⟨tz, l', hok', hsettled'⟩⟩, fun l₁ hl₁ => ?_⟩
            obtain rfl : l = l₁ := Option.some.inj (hsettled.last.symm.trans hl₁)
            exact ⟨l', hsettled'.last, hle'⟩
          · rw [OnTime.early hsettled.last (by omega) hforce hwin hs]
            exact ⟨h, hkeep⟩

theorem stamped_run (job : CronJob) (events : List Event) (hnew : job.lastWindow = none)
    (h : ∀ pre e, pre ++ [e] <+: events → OnTime C (run C job pre).job e) :
    Stamped C job (run C job events) := by
  induction events using List.reverseRecOn with
  | nil => exact ⟨.nil, .inl ⟨rfl, hnew⟩⟩
  | append_singleton events e ih =>
    have hrun := ih fun pre e' hpre => h pre e' (hpre.trans (List.prefix_append _ _))
    rw [run_concat]
    exact (hrun.step (run_same job events).tz (h events e (List.prefix_refl _))).1

/-- A tick that is not on time takes the stamp back. -/
theorem Ticks.back {s s' : Ticked} {tz : C.Tz} {l t marked : Int} (hs : Ticks C s tz t marked s')
    (hlast : s.job.lastWindow = some l) (hlt : minuteOf t < l)
    (hdue : s.job.forceRun = true ∨ IsWindow C s.job.cronExpr tz (minuteOf t)) :
    ∃ l', s'.job.lastWindow = some l' ∧ l' < l := by
  -- what an unforced tick finds is the minute itself
  have hminute {w : Int} (hforce : s.job.forceRun = false)
      (hw : lastWindowBefore C s.job.cronExpr tz t (s.job.lastWindow.or (some s.job.createdAt)) = some w) :
      w = minuteOf t ∧ IsWindow C s.job.cronExpr tz (minuteOf t) := by
    obtain hf | hwin := hdue
    · exact absurd (hf.symm.trans hforce) nofun
    · rw [lastWindowBefore_minute hwin] at hw
      exact ⟨(Option.some.inj hw).symm, hwin⟩
  cases hs with
  | forced w hforce hw => exact ⟨w, rfl, by have := (forced_window hw).1; omega⟩
  | nothing hforce hnone =>
    obtain hf | hwin := hdue
    · exact absurd (hf.symm.trans hforce) nofun
    · rw [lastWindowBefore_minute hwin] at hnone
      cases hnone
  | again w hforce hw hl =>
    obtain ⟨rfl, -⟩ := hminute hforce hw
    obtain rfl : l = minuteOf t := Option.some.inj (hlast.symm.trans hl)
    omega
  | passed w hforce hw hl =>
    obtain ⟨rfl, -⟩ := hminute hforce hw
    have := hl l hlast
    omega
  | stale w l' hforce hw hl hlt' hout =>
    obtain ⟨rfl, hwin⟩ := hminute hforce hw
    have hstart := hwin.start
    rw [minuteOf_of_nonneg (by omega)] at hout
    omega
  | fired w hforce hw hl =>
    obtain ⟨rfl, -⟩ := hminute hforce hw
    exact ⟨minuteOf t, rfl, hlt⟩

/-- From the creation of a job on, with ticks at any times: the stamp never goes back and no window is fired
twice by the schedule exactly when every tick is on time. -/
theorem stamp_survives_iff (C : Calendar) (job : CronJob) (events : List Event)
    (hnew : job.lastWindow = none) :
    (NeverBack C job events ∧ (run C job events).fires.Nodup) ↔
      ∀ pre e, pre ++ [e] <+: events → OnTime C (run C job pre).job e := by
  constructor
  · rintro ⟨hback, -⟩ pre e hpre
    cases e with
    | force => trivial
    | tick t marked =>
      intro tz l hok hlast
      by_contra hnot
      rw [not_or, not_and_or, Bool.not_eq_false, not_not] at hnot
      obtain ⟨err, herr, -⟩ | ⟨tz', hok', hs⟩ := tick_cases (C := C) (run C job pre) t marked
      · rw [hok] at herr
        cases herr
      · obtain rfl : tz = tz' := by
          rw [hok] at hok'
          exact Except.ok.inj hok'
        obtain ⟨l', hl', hlt⟩ := hs.back hlast (by omega) hnot.2
        obtain ⟨l₂, hl₂, hle⟩ := hback pre (.tick t marked) hpre l hlast
        rw [run_concat, Ticked.step, hl'] at hl₂
        obtain rfl : l' = l₂ := Option.some.inj hl₂
        omega
  · intro h
    refine ⟨fun pre e hpre l hl => ?_, ?_⟩
    · have hrun := stamped_run job pre hnew fun pre' e' hpre' =>
        h pre' e' (hpre'.trans ((List.prefix_append pre [e]).trans hpre))
      rw [run_concat]
      exact (hrun.step (run_same job pre).tz (h pre e hpre)).2 l hl
    · exact (fires_sorted (stamped_run job events hnew h).log).imp (fun hlt => Int.ne_of_lt hlt)

/-- The clock is set back to a minute that is no window. -/
def Sample.early : List Event := [.tick 250 250, .tick 190 190]

theorem stamp_survives_iff_early :
    NeverBack Sample.utc Sample.job Sample.early ∧ (run Sample.utc Sample.job Sample.early).fires.Nodup := by
  refine (stamp_survives_iff Sample.utc Sample.job Sample.early rfl).2 fun pre e hpre => ?_
  rcases pre with _ | ⟨x, _ | ⟨y, pre⟩⟩
  · obtain rfl : e = .tick 250 250 := by simpa [Sample.early] using hpre
    intro tz l _ hl
    cases hl
  · obtain ⟨rfl, rfl⟩ : x = .tick 250 250 ∧ e = .tick 190 190 := by simpa [Sample.early] using hpre
    intro tz l _ _
    have hforce : (run Sample.utc Sample.job [.tick 250 250]).job.forceRun = false := by decide +kernel
    have hmatch : exprMatchesAt Sample.utc (run Sample.utc Sample.job [.tick 250 250]).job.cronExpr () 180 =
        false := by decide +kernel
    exact .inr ⟨hforce, fun hwin => absurd (hmatch.symm.trans hwin.isMatch) nofun⟩
  · simp [Sample.early] at hpre

/-- The clock is set back to an earlier window and comes forward again. -/
def Sample.setBack : List Event := [.tick 250 250, .tick 130 130, .tick 260 260]

theorem fired_again : ¬ ∀ (C : Calendar) (job : CronJob) (events : List Event), job.lastWindow = none →
    NeverBack C job events ∧ (run C job events).fires.Nodup := by
  intro h
  have hfires : (run Sample.utc Sample.job Sample.setBack).fires = [240, 120, 240] := by decide +kernel
  have hnodup := (h Sample.utc Sample.job Sample.setBack rfl).2
  rw [hfires] at hnodup
  exact absurd hnodup (by decide)

end Metalogos.Cron
