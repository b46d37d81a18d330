import Mathlib.Data.List.Dedup
import Mathlib.Data.Char
import Mathlib.Data.List.Lex
import Mathlib.Data.List.Sort
import Metalogos.Cron.Window
import Metalogos.Lib.Text

/-!
# The jurisdiction matrix

`src/jurisdiction.rs`: rows that allow, limit or deny a carrier in a jurisdiction, appended and never removed. The
effect over a carrier is computed twice: `effect_for` folds over the rows, `compile_jurisdiction_policy` sorts the
carriers into three lists that `effect_of` asks in turn. SHA-256 is a parameter.

`jurisdiction_strictest`: the two agree, on the strictest effect among the rows that name the carrier, whatever the
order of the rows, and a further row never makes it less strict.
-/
namespace Metalogos.Jurisdiction

open Metalogos.Lib

/-- mirrors src/jurisdiction.rs:45-60 -/
def isJurisdictionCode (code : String) : Bool :=
  match code.toList with
  | [a, b] => a.isUpper && b.isUpper
  | [a, b, '-', c, d] => a.isUpper && b.isUpper && c.isUpper && d.isUpper
  | _ => false

inductive PolicyEffect where
  | allow
  | deny
  | limit
  deriving DecidableEq, Repr

def PolicyEffect.asStr : PolicyEffect → String
  | .allow => "allow"
  | .deny => "deny"
  | .limit => "limit"

structure JurisdictionRule where
  jurisdiction : String
  carrier : String
  effect : PolicyEffect
  normRef : String
  checkedAt : String
  source : String
  rowDigest : String
  deriving DecidableEq, Repr

/-- A text with a character of more than one byte has no numbers where a date has them.
mirrors src/jurisdiction.rs:117-141 -/
def isIsoDate (s : String) : Bool :=
  let b := s.toList
  if b.length ≠ 10 ∨ b[4]? ≠ some '-' ∨ b[7]? ≠ some '-' then false
  else match Cron.parseU32 (b.take 4), Cron.parseU32 ((b.drop 5).take 2), Cron.parseU32 (b.drop 8) with
    | some y, some m, some d =>
      if ¬ (1 ≤ y ∧ y ≤ 9999) ∨ ¬ (1 ≤ m ∧ m ≤ 12) ∨ ¬ (1 ≤ d ∧ d ≤ 31) then false
      else
        let leap := (y % 4 = 0 ∧ y % 100 ≠ 0) ∨ y % 400 = 0
        let max := if m = 2 then (if leap then 29 else 28) else if m = 4 ∨ m = 6 ∨ m = 9 ∨ m = 11 then 30 else 31
        decide (d ≤ max)
    | _, _, _ => false

def isBlank (s : String) : Bool := trim s.toList = []

/-- mirrors src/jurisdiction.rs:205-216 -/
def canonicalRule (rule : JurisdictionRule) : String :=
  "\x1f".intercalate
    ["v1", rule.jurisdiction, rule.carrier, rule.effect.asStr, rule.normRef, rule.checkedAt, rule.source]

variable (sha256Hex : String → String)

def canonicalRuleDigest (rule : JurisdictionRule) : String := sha256Hex (canonicalRule rule)

/-! ## The matrix -/

structure JurisdictionMatrix where
  rows : List JurisdictionRule
  deriving DecidableEq, Repr

namespace JurisdictionMatrix

/-- mirrors src/jurisdiction.rs:244-253 -/
def issue (m : JurisdictionMatrix) (rule : JurisdictionRule) : Except String (JurisdictionMatrix × Nat) :=
  if m.rows.any fun r => r.rowDigest = rule.rowDigest then
    let digest := rule.rowDigest
    .error s!"jurisdiction matrix: the exact row {digest} is already in the matrix (append-only, no duplicates)"
  else .ok (⟨m.rows ++ [rule]⟩, m.rows.length)

/-- A run of issues; one that is refused changes nothing. -/
def issueAll (m : JurisdictionMatrix) (rules : List JurisdictionRule) : JurisdictionMatrix :=
  rules.foldl (fun m rule => match m.issue rule with
    | .ok (m', _) => m'
    | .error _ => m) m

/-- The sorted codes, each once.
mirrors src/jurisdiction.rs:271-276 -/
def jurisdictions (m : JurisdictionMatrix) : List String :=
  ((m.rows.map (·.jurisdiction)).insertionSort fun a b => a.toList ≤ b.toList).dedup

def rulesFor (m : JurisdictionMatrix) (jurisdiction : String) : List JurisdictionRule :=
  m.rows.filter fun r => r.jurisdiction = jurisdiction

end JurisdictionMatrix

def PolicyEffect.rank : PolicyEffect → Nat
  | .deny => 3
  | .limit => 2
  | .allow => 1

/-- How strict; 0 where no row names the carrier. -/
def rankOf (e : Option PolicyEffect) : Nat := (e.map PolicyEffect.rank).getD 0

namespace JurisdictionMatrix

/-- mirrors src/jurisdiction.rs:291-316 -/
def effectFor (m : JurisdictionMatrix) (jurisdiction carrier : String) : Option PolicyEffect :=
  (m.rows.filter fun r => r.jurisdiction = jurisdiction ∧ r.carrier = carrier).foldl
    (fun strictest r => if rankOf strictest < r.effect.rank then some r.effect else strictest) none

/-- mirrors src/jurisdiction.rs:321-335 -/
def digest (m : JurisdictionMatrix) : String := sha256Hex ("\x1f".intercalate (m.rows.map (·.rowDigest)))

end JurisdictionMatrix

/-! ## The compiled view -/

structure Buckets where
  deny : List String
  limit : List String
  allow : List String
  deriving DecidableEq, Repr

structure JurisdictionPolicy extends Buckets where
  jurisdiction : String
  matrixDigest : String
  deriving DecidableEq, Repr

/-- mirrors src/jurisdiction.rs:354-366 -/
def Buckets.effectOf (p : Buckets) (carrier : String) : Option PolicyEffect :=
  if carrier ∈ p.deny then some .deny
  else if carrier ∈ p.limit then some .limit
  else if carrier ∈ p.allow then some .allow
  else none

def pushNew (bucket : List String) (carrier : String) : List String :=
  if carrier ∈ bucket then bucket else bucket ++ [carrier]

def Buckets.push (b : Buckets) (r : JurisdictionRule) : Buckets :=
  match r.effect with
  | .deny => { b with deny := pushNew b.deny r.carrier }
  | .limit => { b with limit := pushNew b.limit r.carrier }
  | .allow => { b with allow := pushNew b.allow r.carrier }

def isComplete (r : JurisdictionRule) : Bool := !isBlank r.normRef && isIsoDate r.checkedAt

/-- The loop over the rules of the jurisdiction.
mirrors src/jurisdiction.rs:412-430 -/
def compileRules : List JurisdictionRule → Buckets → Except String Buckets
  | [], b => .ok b
  | r :: rs, b =>
    if !isComplete r then
      let carrier := r.carrier
      let jurisdiction := r.jurisdiction
      .error s!"jurisdiction: the rule over '{carrier}' in {jurisdiction} is incomplete (norm_ref/checked_at) — the compilation refuses before any run (fail-closed, KPI C10)"
    else compileRules rs (b.push r)

/-- mirrors src/jurisdiction.rs:398-438 -/
def compileJurisdictionPolicy (m : JurisdictionMatrix) (jurisdiction : String) : Except String JurisdictionPolicy :=
  if jurisdiction ∉ m.jurisdictions then
    .error s!"jurisdiction: '{jurisdiction}' is not in the matrix — an unknown jurisdiction refuses (fail-closed)"
  else match compileRules (m.rulesFor jurisdiction) ⟨[], [], []⟩ with
    | .error e => .error e
    | .ok b =>
      if !isJurisdictionCode jurisdiction then
        .error s!"jurisdiction: '{jurisdiction}' is not a valid jurisdiction code (the form is AB or AB-CD, uppercase)"
      else .ok ⟨b, jurisdiction, m.digest sha256Hex⟩

/-! ## The strictest effect -/

/-- The effect is one that a row names for the carrier, and no row names a stricter one; `none` where no row names
the carrier. -/
structure Strictest (rows : List JurisdictionRule) (jurisdiction carrier : String) (e : Option PolicyEffect) : Prop where
  named : ∀ e' ∈ e, ∃ r ∈ rows, r.jurisdiction = jurisdiction ∧ r.carrier = carrier ∧ r.effect = e'
  upper : ∀ r ∈ rows, r.jurisdiction = jurisdiction → r.carrier = carrier → r.effect.rank ≤ rankOf e

theorem rank_inj {e e' : Option PolicyEffect} (h : rankOf e = rankOf e') : e = e' := by
  cases e with
  | none =>
    cases e' with
    | none => rfl
    | some b => cases b <;> cases h
  | some a =>
    cases e' with
    | none => cases a <;> cases h
    | some b => cases a <;> cases b <;> first | rfl | cases h

section

variable {rows rows' : List JurisdictionRule} {j c : String} {e e' : Option PolicyEffect}

theorem Strictest.le (h : Strictest rows j c e) (h' : Strictest rows' j c e') (hsub : rows ⊆ rows') :
    rankOf e ≤ rankOf e' := by
  cases e with
  | none => exact Nat.zero_le _
  | some a =>
    obtain ⟨r, hr, hj, hc, rfl⟩ := h.named a rfl
    exact h'.upper r (hsub hr) hj hc

theorem Strictest.unique (h : Strictest rows j c e) (h' : Strictest rows j c e') : e = e' :=
  rank_inj (Nat.le_antisymm (h.le h' (List.Subset.refl rows)) (h'.le h (List.Subset.refl rows)))

/-- The fold: what it holds is the strictest of the start and the rows passed. -/
theorem foldl_strictest (l : List JurisdictionRule) : ∀ e : Option PolicyEffect,
    let s := l.foldl (fun strictest r => if rankOf strictest < r.effect.rank then some r.effect else strictest) e
    (s = e ∨ ∃ r ∈ l, s = some r.effect) ∧ rankOf e ≤ rankOf s ∧ ∀ r ∈ l, r.effect.rank ≤ rankOf s := by
  induction l with
  | nil =>
    intro e
    exact ⟨.inl rfl, Nat.le_refl _, by simp⟩
  | cons r l ih =>
    intro e
    rw [List.foldl_cons]
    by_cases hr : rankOf e < r.effect.rank
    · rw [if_pos hr]
      obtain ⟨hone, hle, hall⟩ := ih (some r.effect)
      have hr' : r.effect.rank ≤ rankOf (some r.effect) := Nat.le_refl _
      refine ⟨.inr ?_, by omega, List.forall_mem_cons.2 ⟨Nat.le_trans hr' hle, hall⟩⟩
      rcases hone with heq | ⟨r', hr', heq⟩
      · exact ⟨r, List.mem_cons_self, heq⟩
      · exact ⟨r', List.mem_cons_of_mem _ hr', heq⟩
    · rw [if_neg hr]
      obtain ⟨hone, hle, hall⟩ := ih e
      refine ⟨?_, hle, List.forall_mem_cons.2 ⟨by omega, hall⟩⟩
      rcases hone with heq | ⟨r', hr', heq⟩
      · exact .inl heq
      · exact .inr ⟨r', List.mem_cons_of_mem _ hr', heq⟩

theorem effectFor_strictest (m : JurisdictionMatrix) (j c : String) : Strictest m.rows j c (m.effectFor j c) := by
  obtain ⟨hone, -, hall⟩ := foldl_strictest (m.rows.filter fun r => r.jurisdiction = j ∧ r.carrier = c) none
  constructor
  · intro e' he'
    rcases hone with heq | ⟨r, hr, heq⟩
    · have hnone : m.effectFor j c = none := heq
      rw [hnone] at he'
      cases he'
    · have hsome : m.effectFor j c = some r.effect := heq
      rw [hsome] at he'
      cases he'
      simp only [List.mem_filter, decide_eq_true_eq] at hr
      exact ⟨r, hr.1, hr.2.1, hr.2.2, rfl⟩
  · intro r hr hj hc
    refine hall r ?_
    simp only [List.mem_filter, decide_eq_true_eq]
    exact ⟨hr, hj, hc⟩

end

/-! ## The three lists -/

def Buckets.of (b : Buckets) : PolicyEffect → List String
  | .deny => b.deny
  | .limit => b.limit
  | .allow => b.allow

theorem mem_pushNew {l : List String} {a c : String} : c ∈ pushNew l a ↔ c ∈ l ∨ c = a := by
  unfold pushNew
  split_ifs with h
  · constructor
    · exact Or.inl
    · rintro (hc | rfl)
      · exact hc
      · exact h
  · simp

theorem mem_push {b : Buckets} {r : JurisdictionRule} {e : PolicyEffect} {c : String} :
    c ∈ (b.push r).of e ↔ c ∈ b.of e ∨ (r.effect = e ∧ r.carrier = c) := by
  obtain ⟨j, a, re, n, d, s, g⟩ := r
  cases re <;> cases e <;> simp [Buckets.push, Buckets.of, mem_pushNew, eq_comm]

theorem compileRules_ok_iff {rs : List JurisdictionRule} : ∀ {b : Buckets},
    (∃ b', compileRules rs b = .ok b') ↔ ∀ r ∈ rs, isComplete r = true := by
  induction rs with
  | nil =>
    intro b
    exact ⟨fun _ => by simp, fun _ => ⟨b, rfl⟩⟩
  | cons r rs ih =>
    intro b
    unfold compileRules
    cases hr : isComplete r with
    | false => simp [hr]
    | true => simp [hr, ih]

theorem mem_compileRules {rs : List JurisdictionRule} : ∀ {b b' : Buckets}, compileRules rs b = .ok b' →
    ∀ e c, c ∈ b'.of e ↔ c ∈ b.of e ∨ ∃ r ∈ rs, r.effect = e ∧ r.carrier = c := by
  induction rs with
  | nil =>
    intro b b' h e c
    cases h
    simp
  | cons r rs ih =>
    intro b b' h e c
    unfold compileRules at h
    split_ifs at h
    rw [ih h, mem_push, or_assoc]
    simp

section

variable {sha256Hex} {m m' : JurisdictionMatrix} {j : String} {p : JurisdictionPolicy}

theorem mem_jurisdictions : j ∈ m.jurisdictions ↔ ∃ r ∈ m.rows, r.jurisdiction = j := by
  unfold JurisdictionMatrix.jurisdictions
  rw [List.mem_dedup, List.mem_insertionSort, List.mem_map]

/-- When a matrix compiles, and what the lists hold. -/
theorem compile_ok_iff : (∃ p, compileJurisdictionPolicy sha256Hex m j = .ok p) ↔
    (∃ r ∈ m.rows, r.jurisdiction = j) ∧ (∀ r ∈ m.rows, r.jurisdiction = j → isComplete r = true) ∧
      isJurisdictionCode j = true := by
  have hrules : (∀ r ∈ m.rulesFor j, isComplete r = true) ↔ ∀ r ∈ m.rows, r.jurisdiction = j → isComplete r = true := by
    simp [JurisdictionMatrix.rulesFor]
  rw [← hrules, ← compileRules_ok_iff (b := ⟨[], [], []⟩), ← mem_jurisdictions]
  unfold compileJurisdictionPolicy
  by_cases hknown : j ∈ m.jurisdictions
  · cases hc : compileRules (m.rulesFor j) ⟨[], [], []⟩ with
    | error e => simp [hknown]
    | ok b => cases hj : isJurisdictionCode j <;> simp [hknown]
  · simp [hknown]

theorem compile_spec (h : compileJurisdictionPolicy sha256Hex m j = .ok p) :
    p.matrixDigest = m.digest sha256Hex ∧
      ∀ e c, c ∈ p.toBuckets.of e ↔ ∃ r ∈ m.rows, r.jurisdiction = j ∧ r.carrier = c ∧ r.effect = e := by
  unfold compileJurisdictionPolicy at h
  by_cases hknown : j ∉ m.jurisdictions
  · rw [if_pos hknown] at h
    cases h
  rw [if_neg hknown] at h
  cases hc : compileRules (m.rulesFor j) ⟨[], [], []⟩ with
  | error e =>
    rw [hc] at h
    cases h
  | ok b =>
    rw [hc] at h
    cases hj : isJurisdictionCode j with
    | false =>
      simp only [hj] at h
      cases h
    | true =>
    simp only [hj] at h
    cases h
    refine ⟨rfl, fun e c => ?_⟩
    rw [mem_compileRules hc]
    constructor
    · rintro (hin | ⟨r, hr, he, hcar⟩)
      · cases e <;> cases hin
      · simp only [JurisdictionMatrix.rulesFor, List.mem_filter, decide_eq_true_eq] at hr
        exact ⟨r, hr.1, hr.2, hcar, he⟩
    · rintro ⟨r, hr, hj, hcar, he⟩
      refine .inr ⟨r, ?_, he, hcar⟩
      simp only [JurisdictionMatrix.rulesFor, List.mem_filter, decide_eq_true_eq]
      exact ⟨hr, hj⟩

theorem effectOf_cases (b : Buckets) (c : String) :
    (∀ e ∈ b.effectOf c, c ∈ b.of e) ∧ ∀ e, c ∈ b.of e → e.rank ≤ rankOf (b.effectOf c) := by
  unfold Buckets.effectOf
  split_ifs with hd hl ha
  · exact ⟨fun e he => by cases he; exact hd, fun e _ => by cases e <;> decide⟩
  · refine ⟨fun e he => by cases he; exact hl, fun e hin => ?_⟩
    cases e with
    | deny => exact absurd hin hd
    | limit => decide
    | allow => decide
  · refine ⟨fun e he => by cases he; exact ha, fun e hin => ?_⟩
    cases e with
    | deny => exact absurd hin hd
    | limit => exact absurd hin hl
    | allow => decide
  · refine ⟨fun e he => (by cases he), fun e hin => ?_⟩
    cases e with
    | deny => exact absurd hin hd
    | limit => exact absurd hin hl
    | allow => exact absurd hin ha

theorem effectOf_strictest (h : compileJurisdictionPolicy sha256Hex m j = .ok p) (c : String) :
    Strictest m.rows j c (p.toBuckets.effectOf c) := by
  obtain ⟨-, hmem⟩ := compile_spec h
  obtain ⟨hone, hall⟩ := effectOf_cases p.toBuckets c
  constructor
  · intro e he
    exact (hmem e c).1 (hone e he)
  · intro r hr hj hc
    exact hall r.effect ((hmem _ _).2 ⟨r, hr, hj, hc, rfl⟩)

theorem strictest_perm {e : Option PolicyEffect} {c : String} (hperm : m'.rows.Perm m.rows)
    (h : Strictest m.rows j c e) : Strictest m'.rows j c e := by
  constructor
  · intro e' he'
    obtain ⟨r, hr, hrest⟩ := h.named e' he'
    exact ⟨r, hperm.mem_iff.2 hr, hrest⟩
  · intro r hr
    exact h.upper r (hperm.mem_iff.1 hr)

theorem rows_issue {rule : JurisdictionRule} {n : Nat} (h : m.issue rule = .ok (m', n)) : m'.rows = m.rows ++ [rule] := by
  unfold JurisdictionMatrix.issue at h
  split_ifs at h
  cases h
  rfl

end

/-- The compiled effect is the one of the matrix and the strictest that a row names; it does not depend on the
order of the rows, and a further row does not make it less strict. -/
theorem jurisdiction_strictest {rules : List JurisdictionRule} {j : String} {p : JurisdictionPolicy}
    (h : compileJurisdictionPolicy sha256Hex (JurisdictionMatrix.issueAll ⟨[]⟩ rules) j = .ok p) :
    (∀ c, p.toBuckets.effectOf c = (JurisdictionMatrix.issueAll ⟨[]⟩ rules).effectFor j c ∧
      Strictest (JurisdictionMatrix.issueAll ⟨[]⟩ rules).rows j c (p.toBuckets.effectOf c)) ∧
    (∀ m' : JurisdictionMatrix, m'.rows.Perm (JurisdictionMatrix.issueAll ⟨[]⟩ rules).rows →
      ∃ p', compileJurisdictionPolicy sha256Hex m' j = .ok p' ∧
        ∀ c, p'.toBuckets.effectOf c = p.toBuckets.effectOf c ∧ m'.effectFor j c = p.toBuckets.effectOf c) ∧
    ∀ rule m' n, (JurisdictionMatrix.issueAll ⟨[]⟩ rules).issue rule = .ok (m', n) →
      (∀ c, rankOf (p.toBuckets.effectOf c) ≤ rankOf (m'.effectFor j c)) ∧
      ∀ p', compileJurisdictionPolicy sha256Hex m' j = .ok p' →
        ∀ c, rankOf (p.toBuckets.effectOf c) ≤ rankOf (p'.toBuckets.effectOf c) := by
  generalize JurisdictionMatrix.issueAll ⟨[]⟩ rules = m at h
  have hof := effectOf_strictest h
  refine ⟨fun c => ⟨(hof c).unique (effectFor_strictest m j c), hof c⟩, fun m' hperm => ?_, fun rule m' n hissue => ?_⟩
  · obtain ⟨hknown, hall, hcode⟩ := compile_ok_iff.1 ⟨p, h⟩
    have hok : ∃ p', compileJurisdictionPolicy sha256Hex m' j = .ok p' := by
      refine compile_ok_iff.2 ⟨?_, fun r hr => hall r (hperm.mem_iff.1 hr), hcode⟩
      obtain ⟨r, hr, hj⟩ := hknown
      exact ⟨r, hperm.mem_iff.2 hr, hj⟩
    obtain ⟨p', hp'⟩ := hok
    refine ⟨p', hp', fun c => ⟨?_, ?_⟩⟩
    · exact (effectOf_strictest hp' c).unique (strictest_perm hperm (hof c))
    · exact (effectFor_strictest m' j c).unique (strictest_perm hperm (hof c))
  · have hsub : m.rows ⊆ m'.rows := by
      rw [rows_issue hissue]
      exact List.subset_append_left _ _
    exact ⟨fun c => (hof c).le (effectFor_strictest m' j c) hsub,
      fun p' hp' c => (hof c).le (effectOf_strictest hp' c) hsub⟩

def erasureRows : List JurisdictionRule :=
  [⟨"EU", "forget", .allow, "Art. 17", "2026-11-03", "seed", "r1"⟩, ⟨"EU", "forget", .deny, "Art. 18", "2026-11-03", "seed", "r2"⟩]

theorem jurisdiction_strictest_erasure :
    ∃ p, compileJurisdictionPolicy id (JurisdictionMatrix.issueAll ⟨[]⟩ erasureRows) "EU" = .ok p ∧
      p.toBuckets.effectOf "forget" = some .deny := by
  obtain ⟨p, hp⟩ : ∃ p, compileJurisdictionPolicy id (JurisdictionMatrix.issueAll ⟨[]⟩ erasureRows) "EU" = .ok p :=
    compile_ok_iff.2 ⟨by decide +kernel, by decide +kernel, by decide +kernel⟩
  refine ⟨p, hp, ?_⟩
  rw [((jurisdiction_strictest id hp).1 "forget").1]
  decide +kernel

end Metalogos.Jurisdiction
