import Metalogos.Lang.Value
import Metalogos.Recall.Stores

/-!
# Forgetting by age

`forget` of `src/memory_ops.rs` takes a number of days, as the tree walker and as the machine have it, and deletes
what is older. The cutoff is computed on `i64`: a product or a difference out of range wraps around, or stops the
program where overflows are checked.

`forget_young_iff`: nothing young is deleted exactly when the product is in range, with checks; without them two
wraps cancel each other, and the cutoff is wrong only where the exact one lies before the first timestamp there is.
-/
namespace Metalogos.Recall

open Metalogos.Lib Metalogos.Lang

variable {F : Type}

/-! ## The cutoff -/

/-- The result of an operation on `i64`; `none` where an overflow stops the program. -/
def i64Result (checked : Bool) (n : Int) : Option Int :=
  if checked then (if -2 ^ 63 ≤ n ∧ n < 2 ^ 63 then some n else none) else some (n.bmod (2 ^ 64))

/-- The clock less a number of days. -/
def cutoffOf (checked : Bool) (now days : Int) : Option Int := do
  let seconds ← i64Result checked (days * 86400)
  i64Result checked (now - seconds)

/-- mirrors src/interpreter/values.rs:415-424 -/
def asFloat [FloatModel F] : Value F → Option F
  | .float f => some f
  | .bool b => some (FloatModel.ofNat (if b then 1 else 0))
  | .string s => FloatModel.parse s
  | _ => none

/-- `as i64`. -/
def asI64 [FloatModel F] (f : F) : Int := max (-2 ^ 63) (min (FloatModel.toIsize f) (2 ^ 63 - 1))

/-- The days of a call, after its query. -/
def daysOf [FloatModel F] : List (Value F) → Int
  | v :: _ => asI64 ((asFloat v).getD (FloatModel.ofNat 30))
  | [] => 30

/-! ## The two functions -/

/-- mirrors src/memory_ops.rs:269-306 -/
def forgetTw [FloatModel F] (checked : Bool) (now : Int) (memory : InMemoryStore F) :
    List (Value F) → Option (Except String (InMemoryStore F))
  | [] => some (.error "forget() requires at least 1 argument (query)")
  | .string query :: rest =>
    let days := daysOf rest
    let cutoff := if days ≤ 0 then some (2 ^ 63 - 1) else cutoffOf checked now days
    cutoff.map fun cutoff => .ok (memory.forget query cutoff)
  | other :: _ =>
    let got := other.typeName
    some (.error s!"forget() expected String as first arg, got {got}")

/-- mirrors src/bytecode.rs:924-931 -/
structure VmMemoryEntry (F : Type) where
  value : String
  priority : F
  timestamp : Int
  decayRate : F
  memType : String
  deriving DecidableEq

/-- mirrors src/memory_ops.rs:543-566 -/
def forgetVm [FloatModel F] (toLowercase : String → String) (checked : Bool) (now : Int) (mem : List (VmMemoryEntry F)) :
    List (Value F) → Option (Except String (List (VmMemoryEntry F)))
  | [] => some (.error "forget() requires at least 1 argument (query)")
  | .string s :: rest =>
    let query := toLowercase s
    (cutoffOf checked now (daysOf rest)).map fun cutoff =>
      .ok (mem.filter fun m => !(contains (toLowercase m.value) query && m.timestamp < cutoff))
  | other :: _ =>
    let got := other.typeName
    some (.error s!"forget() expected String as first arg, got {got}")

/-! ## What is older than the days -/

def Older (now days timestamp : Int) : Prop := days * 86400 < now - timestamp

/-- When a call spares what is young, over the timestamps of the entries that match. -/
def Safe (checked : Bool) (now days : Int) (matched : List Int) : Prop :=
  if checked then days * 86400 < 2 ^ 63
  else -2 ^ 63 ≤ now - days * 86400 ∨ ∀ t ∈ matched, (now - days * 86400).bmod (2 ^ 64) ≤ t

section

variable {checked : Bool} {now days cutoff : Int}

theorem cutoffOf_wrapping : cutoffOf false now days = some ((now - days * 86400).bmod (2 ^ 64)) := by
  simp [cutoffOf, i64Result]

theorem cutoffOf_checked (hnow : 0 ≤ now) (hnow' : now < 2 ^ 63) (hdays : 0 < days) :
    cutoffOf true now days = if days * 86400 < 2 ^ 63 then some (now - days * 86400) else none := by
  unfold cutoffOf i64Result
  simp only [if_true]
  by_cases h : days * 86400 < 2 ^ 63
  · have hdiff : -2 ^ 63 ≤ now - days * 86400 ∧ now - days * 86400 < 2 ^ 63 := by omega
    rw [if_pos ⟨by omega, h⟩, if_pos h]
    exact if_pos hdiff
  · rw [if_neg (fun hr => h hr.2), if_neg h]
    rfl

theorem bmod_of_range {n : Int} (hlo : -2 ^ 63 ≤ n) (hhi : n < 2 ^ 63) : n.bmod (2 ^ 64) = n := by
  rw [Int.bmod_def]
  omega

/-- The cutoff and what it deletes, over any entries with a timestamp. -/
theorem spares_iff {α : Type} {entries : List α} {hit : α → Bool} {timestamp : α → Int} (hnow : 0 ≤ now)
    (hnow' : now < 2 ^ 63) (hdays : 0 < days) (hrange : ∀ e ∈ entries, -2 ^ 63 ≤ timestamp e) :
    (∃ cutoff, cutoffOf checked now days = some cutoff ∧
      ∀ e ∈ entries, e ∉ entries.filter (fun e => !(hit e && timestamp e < cutoff)) → Older now days (timestamp e)) ↔
    Safe checked now days ((entries.filter hit).map timestamp) := by
  have hdeleted : ∀ cutoff e, e ∈ entries →
      (e ∉ entries.filter (fun e => !(hit e && timestamp e < cutoff)) ↔ hit e = true ∧ timestamp e < cutoff) := by
    intro cutoff e he
    simp [he]
  unfold Safe Older
  cases checked with
  | true =>
    rw [cutoffOf_checked hnow hnow' hdays, if_pos rfl]
    constructor
    · rintro ⟨cutoff, hcut, -⟩
      by_contra hbig
      rw [if_neg hbig] at hcut
      cases hcut
    · intro h
      refine ⟨now - days * 86400, if_pos h, fun e he hdel => ?_⟩
      have hlt := ((hdeleted _ e he).1 hdel).2
      omega
  | false =>
    rw [cutoffOf_wrapping, if_neg (by decide)]
    constructor
    · rintro ⟨cutoff, hcut, hold⟩
      obtain rfl := Option.some.inj hcut
      by_contra hno
      rw [not_or] at hno
      obtain ⟨hlow, hmatched⟩ := hno
      refine hmatched fun t ht => ?_
      obtain ⟨e, he, rfl⟩ := List.mem_map.1 ht
      obtain ⟨hmem, hhit⟩ := List.mem_filter.1 he
      by_contra hlt
      have holder := hold e hmem ((hdeleted _ e hmem).2 ⟨hhit, by omega⟩)
      have hts := hrange e hmem
      omega
    · intro h
      refine ⟨_, rfl, fun e he hdel => ?_⟩
      obtain ⟨hhit, hlt⟩ := (hdeleted _ e he).1 hdel
      rcases h with hexact | hmatched
      · rw [bmod_of_range hexact (by omega)] at hlt
        omega
      · have hle := hmatched _ (List.mem_map_of_mem (List.mem_filter.2 ⟨he, hhit⟩))
        omega

end

/-! ## A call of either -/

section

variable [FloatModel F]

/-- The call ends, and what it deletes is older than the days. -/
def TwSpares (checked : Bool) (now : Int) (memory : InMemoryStore F) (query : String) (rest : List (Value F)) : Prop :=
  ∃ memory', forgetTw checked now memory (.string query :: rest) = some (.ok memory') ∧
    ∀ e ∈ memory.entries, e ∉ memory'.entries → Older now (daysOf rest) e.timestamp

def VmSpares (toLowercase : String → String) (checked : Bool) (now : Int) (mem : List (VmMemoryEntry F)) (query : String)
    (rest : List (Value F)) : Prop :=
  ∃ mem', forgetVm toLowercase checked now mem (.string query :: rest) = some (.ok mem') ∧
    ∀ e ∈ mem, e ∉ mem' → Older now (daysOf rest) e.timestamp

/-- When the two functions spare what is young. -/
theorem forget_young_iff {checked : Bool} {now : Int} (hnow : 0 ≤ now) (hnow' : now < 2 ^ 63)
    {rest : List (Value F)} (hdays : 0 < daysOf rest) {memory : InMemoryStore F}
    (hmemory : ∀ e ∈ memory.entries, -2 ^ 63 ≤ e.timestamp) {mem : List (VmMemoryEntry F)}
    (hmem : ∀ e ∈ mem, -2 ^ 63 ≤ e.timestamp) (toLowercase : String → String) (query : String) :
    (TwSpares checked now memory query rest ↔ Safe checked now (daysOf rest)
      ((memory.entries.filter fun e => contains e.value query).map (·.timestamp))) ∧
    (VmSpares toLowercase checked now mem query rest ↔ Safe checked now (daysOf rest)
      ((mem.filter fun e => contains (toLowercase e.value) (toLowercase query)).map (·.timestamp))) := by
  constructor
  · rw [← spares_iff hnow hnow' hdays hmemory]
    unfold TwSpares forgetTw
    dsimp only
    rw [if_neg (by omega)]
    constructor
    · rintro ⟨memory', hcall, hold⟩
      obtain ⟨cutoff, hcut, heq⟩ := Option.map_eq_some_iff.1 hcall
      cases heq
      exact ⟨cutoff, hcut, hold⟩
    · rintro ⟨cutoff, hcut, hold⟩
      exact ⟨_, Option.map_eq_some_iff.2 ⟨cutoff, hcut, rfl⟩, hold⟩
  · rw [← spares_iff hnow hnow' hdays hmem]
    unfold VmSpares forgetVm
    dsimp only
    constructor
    · rintro ⟨mem', hcall, hold⟩
      obtain ⟨cutoff, hcut, heq⟩ := Option.map_eq_some_iff.1 hcall
      cases heq
      exact ⟨cutoff, hcut, hold⟩
    · rintro ⟨cutoff, hcut, hold⟩
      exact ⟨_, Option.map_eq_some_iff.2 ⟨cutoff, hcut, rfl⟩, hold⟩

end

/-! ## Instances -/

def freshEntry : MemoryEntry Int := ⟨none, "tea", 1, 1700000000, 0, 1, [], ""⟩

def freshVmEntry : VmMemoryEntry Int := ⟨"tea", 1, 1700000000, 0, ""⟩

theorem forget_young_week : TwSpares false 1700000000 ⟨[freshEntry]⟩ "tea" [.float (7 : Int)] ∧
    VmSpares id false 1700000000 [freshVmEntry] "tea" [.float (7 : Int)] := by
  have hboth := @forget_young_iff Int _ false 1700000000 (by decide) (by decide) [.float 7] (by decide) ⟨[freshEntry]⟩
    (by decide) [freshVmEntry] (by decide) id "tea"
  exact ⟨hboth.1.2 (.inl (by decide)), hboth.2.2 (.inl (by decide))⟩

/-- A day count at the upper end moves the cutoff a day into the future. -/
theorem forget_deletes_young : ¬ ∀ (checked : Bool) (now : Int) (memory : InMemoryStore Int) (mem : List (VmMemoryEntry Int))
    (query : String) (rest : List (Value Int)), 0 ≤ now → now < 2 ^ 63 → 0 < daysOf rest →
    TwSpares checked now memory query rest ∧ VmSpares id checked now mem query rest := by
  intro hall
  obtain ⟨⟨memory', hcall, hold⟩, -⟩ := hall false 1700000000 ⟨[freshEntry]⟩ [freshVmEntry] "tea" [.float (2 ^ 63)]
    (by decide) (by decide) (by decide)
  have hcut : forgetTw false 1700000000 ⟨[freshEntry]⟩ [.string "tea", .float (2 ^ 63 : Int)] = some (.ok ⟨[]⟩) := by
    unfold forgetTw
    dsimp only
    rw [if_neg (by decide), cutoffOf_wrapping]
    rfl
  rw [hcut] at hcall
  cases hcall
  have hyoung := hold freshEntry (by simp) (by simp)
  unfold Older at hyoung
  revert hyoung
  decide

end Metalogos.Recall
