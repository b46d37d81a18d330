import Mathlib.Tactic.SplitIfs
import Metalogos.Lib.Text
import Mathlib.Algebra.Group.Nat.Defs

/-!
# Cron: windows

`src/builtins/cron.rs`: a window is a minute whose wall clock matches the five fields of the expression.
`lastWindowBefore` scans back from a time, minute by minute, and stops at the horizon; what it finds is said
once (`lastWindowBefore_some`, `lastWindowBefore_none`), in terms of `IsWindow`. The time zones are those of
a `Calendar`. Times are seconds since the epoch; they are far below 2^53, so that their way through an `f64`
of the job store is exact.
-/
namespace Metalogos.Cron

open Metalogos.Lib

/-! ## Fields -/

/-- `str::parse::<u32>` -/
def parseU32 (s : List Char) : Option Nat :=
  let digits := match s with
    | '+' :: ds => ds
    | ds => ds
  if digits = [] ∨ ¬ digits.all Char.isDigit then none
  else
    let n := Nat.ofDigitChars 10 digits 0
    if n < 2 ^ 32 then some n else none

/-- `N-M` and `N-M/S`. -/
def rangeMatches (part : List Char) (value : Nat) : Bool :=
  let segments := part.splitOn '/'
  let step := match segments with
    | _ :: s :: _ => (parseU32 s).getD 1
    | _ => 1
  if step = 0 then false
  else match (segments.headD []).splitOn '-' with
    | [lo, hi] =>
      match parseU32 lo, parseU32 hi with
      | some lo, some hi => lo ≤ value && value ≤ hi && (value - lo) % step = 0
      | _, _ => false
    | _ => false

def partMatches (part : List Char) (value : Nat) : Bool :=
  if part = ['*'] then true
  else match part with
    | '*' :: '/' :: step =>
      match parseU32 step with
      | some step => step ≠ 0 && value % step = 0
      | none => false
    | part => if '-' ∈ part then rangeMatches part value else parseU32 part = some value

/-- mirrors src/builtins/cron.rs:731-778 -/
def cronFieldMatches (field : List Char) (value : Nat) : Bool :=
  (field.splitOn ',').any fun part => partMatches (trim part) value

/-- `str::split_whitespace` -/
def splitWhitespace (s : List Char) : List (List Char) := (s.splitOnP isWhite).filter (· ≠ [])

/-! ## Time zones -/

structure WallClock where
  minute : Nat
  hour : Nat
  day : Nat
  month : Nat
  /-- From Sunday. -/
  weekday : Nat
  deriving DecidableEq

/-- The time zone database and the variable `MLOG_CRON_TZ`. A time out of its range has no wall clock. -/
structure Calendar where
  Tz : Type
  parse : String → Option Tz
  envTz : Option String
  wallClock : Tz → Int → Option WallClock

variable (C : Calendar)

/-- mirrors src/builtins/cron.rs:830-837 -/
def resolveJobTz (explicit : String) : Except String C.Tz :=
  let name := if trim explicit.toList = [] then C.envTz.getD "UTC" else String.ofList (trim explicit.toList)
  match C.parse name with
  | some tz => .ok tz
  | none => .error ("unknown IANA timezone '" ++ name ++ "'")

/-- mirrors src/builtins/cron.rs:840-859 -/
def exprMatchesAt (expr : String) (tz : C.Tz) (at_ : Int) : Bool :=
  match splitWhitespace expr.toList, C.wallClock tz at_ with
  | [minute, hour, day, month, weekday], some c =>
    cronFieldMatches minute c.minute && cronFieldMatches hour c.hour && cronFieldMatches day c.day &&
      cronFieldMatches month c.month && cronFieldMatches weekday c.weekday
  | _, _ => false

/-- `(at / 60) * 60`; the division rounds to zero. -/
def minuteOf (at_ : Int) : Int := at_.tdiv 60 * 60

/-- The candidates from the `n`th minute back to the epoch. -/
def scanBack (expr : String) (tz : C.Tz) (horizon : Option Int) : Nat → Option Int
  | 0 => if exprMatchesAt C expr tz 0 then some 0 else none
  | n + 1 =>
    if exprMatchesAt C expr tz (60 * (n + 1)) then some (60 * (n + 1))
    else if horizon.any (60 * ((n : Int) + 1) ≤ ·) then none
    else scanBack expr tz horizon n

/-- mirrors src/builtins/cron.rs:865-883 -/
def lastWindowBefore (expr : String) (tz : C.Tz) (at_ : Int) (horizon : Option Int) : Option Int :=
  if minuteOf at_ < 0 then none else scanBack C expr tz horizon (minuteOf at_ / 60).toNat

/-! ## What the scan finds -/

/-- A window: a minute from the epoch on that the expression matches. -/
structure IsWindow (expr : String) (tz : C.Tz) (w : Int) : Prop where
  start : 0 ≤ w
  minute : w % 60 = 0
  isMatch : exprMatchesAt C expr tz w = true

variable {C} {expr : String} {tz : C.Tz} {horizon : Option Int} {t w : Int} {n : Nat}

theorem minuteOf_of_nonneg (h : 0 ≤ t) : minuteOf t = t / 60 * 60 := by
  rw [minuteOf, Int.tdiv_eq_ediv_of_nonneg h]

theorem minuteOf_of_neg (h : t ≤ 0) : minuteOf t = -((-t) / 60 * 60) := by
  obtain ⟨s, rfl⟩ : ∃ s, t = -s := ⟨-t, by omega⟩
  rw [minuteOf, Int.neg_tdiv, Int.tdiv_eq_ediv_of_nonneg (by omega)]
  omega

theorem minuteOf_mod (t : Int) : minuteOf t % 60 = 0 := by
  unfold minuteOf
  omega

theorem minuteOf_mono {t t' : Int} (h : t ≤ t') : minuteOf t ≤ minuteOf t' := by
  rcases Int.le_total 0 t with ht | ht
  · rw [minuteOf_of_nonneg ht, minuteOf_of_nonneg (by omega)]
    omega
  · rcases Int.le_total 0 t' with ht' | ht'
    · rw [minuteOf_of_neg ht, minuteOf_of_nonneg ht']
      omega
    · rw [minuteOf_of_neg ht, minuteOf_of_neg ht']
      omega

/-- A window that is not after `t` is not after the minute of `t`. -/
theorem IsWindow.le_minuteOf (hw : IsWindow C expr tz w) (h : w ≤ t) : w ≤ minuteOf t := by
  have hstart := hw.start
  have hmin := hw.minute
  rw [minuteOf_of_nonneg (by omega)]
  omega

/-- Every candidate after the one that was found is after the horizon. -/
theorem scanBack_some (h : scanBack C expr tz horizon n = some w) :
    IsWindow C expr tz w ∧ w ≤ 60 * n ∧ (∀ v, IsWindow C expr tz v → v ≤ 60 * n → v ≤ w) ∧
      ∀ hz, horizon = some hz → ∀ m, m % 60 = 0 → w < m → m ≤ 60 * n → hz < m := by
  induction n with
  | zero =>
    simp only [scanBack] at h
    split_ifs at h with hmatch
    obtain rfl : 0 = w := Option.some.inj h
    exact ⟨⟨Int.le_refl _, rfl, hmatch⟩, by omega, fun v _ hv => by omega, fun _ _ m _ hlt hle => by omega⟩
  | succ n ih =>
    simp only [scanBack] at h
    split_ifs at h with hmatch hstop
    · obtain rfl : 60 * ((n : Int) + 1) = w := Option.some.inj h
      exact ⟨⟨by omega, by omega, hmatch⟩, by omega, fun v _ hv => by omega,
        fun _ _ m _ hlt hle => by omega⟩
    · obtain ⟨hw, hle, hmax, hafter⟩ := ih h
      refine ⟨hw, by omega, fun v hv hvle => ?_, fun hz hhz m hm hlt hmle => ?_⟩
      · have hne : v ≠ 60 * ((n : Int) + 1) := fun he => hmatch (he ▸ hv.isMatch)
        have hmin := hv.minute
        exact hmax v hv (by omega)
      · by_cases hm' : m = 60 * ((n : Int) + 1)
        · rw [hhz] at hstop
          simp only [Option.any_some, decide_eq_true_eq] at hstop
          omega
        · exact hafter hz hhz m hm hlt (by omega)

/-- Where nothing is found, every window is before the horizon. -/
theorem scanBack_none (h : scanBack C expr tz horizon n = none) :
    ∀ v, IsWindow C expr tz v → v ≤ 60 * n → ∃ hz, horizon = some hz ∧ v < hz := by
  induction n with
  | zero =>
    simp only [scanBack] at h
    split_ifs at h with hmatch
    intro v hv hle
    have hstart := hv.start
    obtain rfl : v = 0 := by omega
    exact absurd hv.isMatch hmatch
  | succ n ih =>
    simp only [scanBack] at h
    split_ifs at h with hmatch hstop
    · intro v hv hle
      obtain ⟨hz, hhz, hcand⟩ := (Option.any_eq_true _ _).1 hstop
      have hne : v ≠ 60 * ((n : Int) + 1) := fun he => hmatch (he ▸ hv.isMatch)
      simp only [decide_eq_true_eq] at hcand
      exact ⟨hz, hhz, by omega⟩
    · intro v hv hle
      have hne : v ≠ 60 * ((n : Int) + 1) := fun he => hmatch (he ▸ hv.isMatch)
      have hmin := hv.minute
      exact ih h v hv (by omega)

theorem lastWindowBefore_some (h : lastWindowBefore C expr tz t horizon = some w) :
    IsWindow C expr tz w ∧ w ≤ minuteOf t ∧ (∀ v, IsWindow C expr tz v → v ≤ minuteOf t → v ≤ w) ∧
      ∀ hz, horizon = some hz → ∀ m, m % 60 = 0 → w < m → m ≤ minuteOf t → hz < m := by
  unfold lastWindowBefore at h
  split_ifs at h with hneg
  have hmod := minuteOf_mod t
  have hn : (60 * ((minuteOf t / 60).toNat : Int)) = minuteOf t := by omega
  have hfound := scanBack_some h
  rwa [hn] at hfound

theorem lastWindowBefore_none (h : lastWindowBefore C expr tz t horizon = none) :
    ∀ v, IsWindow C expr tz v → v ≤ minuteOf t → ∃ hz, horizon = some hz ∧ v < hz := by
  intro v hv hle
  have hstart := hv.start
  unfold lastWindowBefore at h
  split_ifs at h with hneg
  · omega
  · have hmod := minuteOf_mod t
    have hn : (60 * ((minuteOf t / 60).toNat : Int)) = minuteOf t := by omega
    exact scanBack_none h v hv (by omega)

/-- The minute of `t` is looked at first, whatever the horizon. -/
theorem lastWindowBefore_minute (h : IsWindow C expr tz (minuteOf t)) :
    lastWindowBefore C expr tz t horizon = some (minuteOf t) := by
  have hstart := h.start
  have hmod := minuteOf_mod t
  obtain ⟨n, hn⟩ : ∃ n : Nat, minuteOf t = 60 * n := ⟨(minuteOf t / 60).toNat, by omega⟩
  have hmatch := h.isMatch
  rw [lastWindowBefore, if_neg (by omega)]
  rw [hn] at hmatch ⊢
  have hdiv : (60 * (n : Int) / 60).toNat = n := by omega
  rw [hdiv]
  cases n with
  | zero => exact if_pos hmatch
  | succ n =>
    push_cast at hmatch ⊢
    exact if_pos hmatch

/-- And it is the only one where the horizon is not before it. -/
theorem lastWindowBefore_early {hz : Int} (h : ¬ IsWindow C expr tz (minuteOf t)) (hle : minuteOf t ≤ hz) :
    lastWindowBefore C expr tz t (some hz) = none := by
  cases hw : lastWindowBefore C expr tz t (some hz) with
  | none => rfl
  | some w =>
    obtain ⟨hwin, hwle, -, hafter⟩ := lastWindowBefore_some hw
    have hne : w ≠ minuteOf t := fun he => h (he ▸ hwin)
    have hlt := hafter hz rfl (minuteOf t) (minuteOf_mod t) (by omega) (Int.le_refl _)
    omega

end Metalogos.Cron
