import Metalogos.Machine.Labels
import Mathlib.Data.List.Basic
import Mathlib.Data.List.Sort
import Mathlib.Data.List.Lex
import Mathlib.Data.Char

/-!
# The label lattice

The three components of a label (`src/labels.rs:68-288`): confidentiality, integrity, and the set of
consent scopes. Data that is combined takes the `join` of the labels; `flowsTo` is the test in front
of a sink. The axes point in different directions: a join rises in confidentiality, falls in
integrity and keeps the scopes both sides have.

Results:
* `flowsTo_combined`: however labels are combined, the result passes a sink exactly when each of
  them does, and a sink that asks for less lets through what a stricter one lets through.
* `flowsTo_foldl_bottom`: a fold that starts at `bottom` passes only sinks that name no scope:
  `bottom` has no consent, and is no unit of `join`.
-/
namespace Metalogos.Labels
open Metalogos.Machine (Conf Integrity)

/-- A scope name, as its characters; names are ordered by code points, as their bytes are. -/
abbrev Scope := List Char

/-! ## The axes -/

def integrityRank : Integrity → Nat
  | .untrusted => 0 | .trusted => 1

/-- A `BTreeSet<String>`: its names in order, none twice.
mirrors src/labels.rs:180-181 -/
structure ConsentScope where
  scopes : List Scope
  sorted : scopes.Pairwise (· < ·)

namespace ConsentScope

@[ext] theorem ext_mem {a b : ConsentScope} (h : ∀ s, s ∈ a.scopes ↔ s ∈ b.scopes) : a = b := by
  obtain ⟨as, ha⟩ := a
  obtain ⟨bs, hb⟩ := b
  have hperm : as.Perm bs := (List.perm_ext_iff_of_nodup (ha.imp fun h => ne_of_lt h)
    (hb.imp fun h => ne_of_lt h)).2 h
  obtain rfl : as = bs := hperm.eq_of_pairwise (fun _ _ _ _ h₁ h₂ => absurd h₂ (not_lt_of_gt h₁)) ha hb
  rfl

/-- mirrors src/labels.rs:184-186 -/
def empty : ConsentScope := ⟨[], List.Pairwise.nil⟩

/-- `BTreeSet::insert`. -/
def insertScope (s : Scope) : List Scope → List Scope
  | [] => [s]
  | t :: ts => if s < t then s :: t :: ts else if s = t then t :: ts else t :: insertScope s ts

theorem mem_insertScope {s t : Scope} {ts : List Scope} : t ∈ insertScope s ts ↔ t = s ∨ t ∈ ts := by
  induction ts with
  | nil => simp [insertScope]
  | cons u ts ih =>
    unfold insertScope
    split_ifs with hlt heq
    · simp
    · subst heq
      simp
    · rw [List.mem_cons, ih, List.mem_cons]
      tauto

theorem pairwise_insertScope {s : Scope} {ts : List Scope} (h : ts.Pairwise (· < ·)) :
    (insertScope s ts).Pairwise (· < ·) := by
  induction ts with
  | nil => simp [insertScope]
  | cons u ts ih =>
    obtain ⟨hu, hts⟩ := List.pairwise_cons.1 h
    unfold insertScope
    split_ifs with hlt heq
    · refine List.pairwise_cons.2 ⟨fun t ht => ?_, h⟩
      rcases List.mem_cons.1 ht with rfl | ht
      · exact hlt
      · exact lt_trans hlt (hu t ht)
    · exact h
    · refine List.pairwise_cons.2 ⟨fun t ht => ?_, ih hts⟩
      rcases mem_insertScope.1 ht with rfl | ht
      · exact lt_of_le_of_ne (not_lt.1 hlt) (Ne.symm heq)
      · exact hu t ht

/-- mirrors src/labels.rs:188-194 -/
def fromScopes (ss : List Scope) : ConsentScope where
  scopes := ss.foldr insertScope []
  sorted := by
    induction ss with
    | nil => exact List.Pairwise.nil
    | cons s ss ih => exact pairwise_insertScope ih

@[simp] theorem mem_fromScopes {s : Scope} {ss : List Scope} : s ∈ (fromScopes ss).scopes ↔ s ∈ ss := by
  show s ∈ ss.foldr insertScope [] ↔ s ∈ ss
  induction ss with
  | nil => rfl
  | cons t ss ih => rw [List.foldr_cons, mem_insertScope, ih, List.mem_cons]

theorem fromScopes_scopes (c : ConsentScope) : fromScopes c.scopes = c := by
  ext s
  simp

/-- mirrors src/labels.rs:206-208 -/
def join (a b : ConsentScope) : ConsentScope where
  scopes := a.scopes.filter (· ∈ b.scopes)
  sorted := a.sorted.filter _

@[simp] theorem mem_join {s : Scope} {a b : ConsentScope} :
    s ∈ (a.join b).scopes ↔ s ∈ a.scopes ∧ s ∈ b.scopes := by
  simp [join]

end ConsentScope

/-! ## Labels -/

/-- mirrors src/labels.rs:233-238 -/
structure Label where
  conf : Conf
  integrity : Integrity
  consent : ConsentScope

namespace Label

/-- mirrors src/labels.rs:242-244 -/
def bottom : Label := ⟨.public_, .trusted, .empty⟩

/-- mirrors src/labels.rs:247-253 -/
def join (a b : Label) : Label := ⟨a.conf.join b.conf, a.integrity.join b.integrity, a.consent.join b.consent⟩

/-- mirrors src/labels.rs:277-288 -/
def flowsTo (l requirement : Label) : Bool :=
  if l.conf = .poisoned then false
  else decide (l.conf.rank ≤ requirement.conf.rank)
    && decide (integrityRank requirement.integrity ≤ integrityRank l.integrity)
    && requirement.consent.scopes.all (· ∈ l.consent.scopes)

/-- The label as the machine keeps it, which never looks at the order of the scopes. -/
def erase (l : Label) : Machine.Label := ⟨l.conf, l.integrity, l.consent.scopes.map String.ofList⟩

@[simp] theorem erase_join (a b : Label) : (a.join b).erase = a.erase.join b.erase := by
  have hinj : Function.Injective String.ofList := fun _ _ h => String.ofList_injective h
  simp only [erase, join, Machine.Label.join, ConsentScope.join, Machine.Label.mk.injEq, true_and,
    List.filter_map]
  congr 1
  refine List.filter_congr fun s _ => ?_
  simp [hinj.eq_iff]

end Label

open Label

@[simp] theorem rank_join (a b : Conf) : (a.join b).rank = max a.rank b.rank := by
  unfold Conf.join
  split <;> omega

theorem integrityRank_join (a b : Integrity) :
    integrityRank (a.join b) = min (integrityRank a) (integrityRank b) := by
  cases a <;> cases b <;> rfl

/-- The quarantine level is the one no level is above. -/
theorem poisoned_iff {c : Conf} : c = .poisoned ↔ 3 ≤ c.rank := by
  cases c <;> simp [Conf.rank]

theorem flowsTo_iff {l r : Label} : l.flowsTo r = true ↔ l.conf.rank < 3 ∧ l.conf.rank ≤ r.conf.rank ∧
    integrityRank r.integrity ≤ integrityRank l.integrity ∧ ∀ s ∈ r.consent.scopes, s ∈ l.consent.scopes := by
  unfold flowsTo
  by_cases hp : l.conf = .poisoned
  · have := poisoned_iff.1 hp
    rw [if_pos hp]
    constructor
    · intro h
      cases h
    · intro h
      omega
  · have hlt : l.conf.rank < 3 := not_le.1 fun h => hp (poisoned_iff.2 h)
    rw [if_neg hp]
    simp [hlt, and_assoc]

theorem flowsTo_join {a b r : Label} : (a.join b).flowsTo r = true ↔ a.flowsTo r = true ∧ b.flowsTo r = true := by
  simp only [flowsTo_iff, join, rank_join, integrityRank_join, ConsentScope.mem_join]
  constructor
  · rintro ⟨hp, hc, hi, hs⟩
    exact ⟨⟨by omega, by omega, by omega, fun s h => (hs s h).1⟩, by omega, by omega, by omega, fun s h => (hs s h).2⟩
  · rintro ⟨⟨hp, hc, hi, hs⟩, hp', hc', hi', hs'⟩
    exact ⟨by omega, by omega, by omega, fun s h => ⟨hs s h, hs' s h⟩⟩

/-! ## Combining many -/

/-- A way to combine labels: the order at the leaves, the association in the nodes. -/
inductive Combined where
  | one (l : Label)
  | both (a b : Combined)

namespace Combined

def leaves : Combined → List Label
  | .one l => [l]
  | .both a b => a.leaves ++ b.leaves

def label : Combined → Label
  | .one l => l
  | .both a b => a.label.join b.label

theorem flowsTo_label {r : Label} (t : Combined) : t.label.flowsTo r = true ↔ ∀ l ∈ t.leaves, l.flowsTo r = true := by
  induction t with
  | one l => simp [label, leaves]
  | both a b iha ihb =>
    rw [label, flowsTo_join, iha, ihb, leaves]
    simp only [List.mem_append, or_imp, forall_and]

end Combined

/-- `r₂` asks for less than `r` on each axis. -/
structure Weaker (r₂ r : Label) : Prop where
  conf : r.conf.rank ≤ r₂.conf.rank
  integrity : integrityRank r₂.integrity ≤ integrityRank r.integrity
  consent : ∀ s ∈ r₂.consent.scopes, s ∈ r.consent.scopes

theorem Weaker.flowsTo {l r r₂ : Label} (h : Weaker r₂ r) (hl : l.flowsTo r = true) : l.flowsTo r₂ = true := by
  obtain ⟨hp, hc, hi, hs⟩ := flowsTo_iff.1 hl
  exact flowsTo_iff.2 ⟨hp, le_trans hc h.conf, le_trans h.integrity hi, fun s hr => hs s (h.consent s hr)⟩

/-- The flow test is sound for joins, and monotone in the requirement. -/
theorem flowsTo_combined :
    (∀ (ls : List Label) (t : Combined), t.leaves.Perm ls → ∀ r : Label,
      (t.label.flowsTo r = true ↔ ∀ l ∈ ls, l.flowsTo r = true)) ∧
    ∀ r₂ r : Label, Weaker r₂ r → ∀ l : Label, l.flowsTo r = true → l.flowsTo r₂ = true := by
  constructor
  · intro ls t hperm r
    rw [t.flowsTo_label]
    constructor
    · intro h l hl
      exact h l (hperm.mem_iff.2 hl)
    · intro h l hl
      exact h l (hperm.mem_iff.1 hl)
  · intro r₂ r hw l hl
    exact hw.flowsTo hl

/-- Two labels that carry a scope each, against the same requirement in both orders. -/
theorem flowsTo_combined_two :
    (Combined.both (.one ⟨.private_, .trusted, .fromScopes [['g'], ['a']]⟩)
        (.one ⟨.public_, .trusted, .fromScopes [['g']]⟩)).label.flowsTo
          ⟨.private_, .untrusted, .fromScopes [['g']]⟩ = true ∧
      (⟨.private_, .trusted, .fromScopes [['g'], ['a']]⟩ : Label).flowsTo ⟨.private_, .untrusted, .empty⟩ = true := by
  constructor
  · refine (flowsTo_combined.1 [⟨.public_, .trusted, .fromScopes [['g']]⟩,
      ⟨.private_, .trusted, .fromScopes [['g'], ['a']]⟩] (.both (.one _) (.one _)) (List.Perm.swap _ _ []) _).2 ?_
    decide
  · exact flowsTo_combined.2 _ ⟨.private_, .trusted, .fromScopes [['g']]⟩
      ⟨le_refl _, by decide, by decide⟩ _ (by decide)

/-- What the callers do with a list: a fold from `bottom`. -/
theorem flowsTo_foldl_bottom (ls : List Label) (r : Label) :
    (ls.foldl Label.join bottom).flowsTo r = true ↔ r.consent = .empty ∧ ∀ l ∈ ls, l.flowsTo r = true := by
  have hfold (a : Label) : (ls.foldl Label.join a).flowsTo r = true ↔
      a.flowsTo r = true ∧ ∀ l ∈ ls, l.flowsTo r = true := by
    induction ls generalizing a with
    | nil => simp
    | cons l ls ih => rw [List.foldl_cons, ih, flowsTo_join, List.forall_mem_cons, and_assoc]
  have hbottom : bottom.flowsTo r = true ↔ r.consent = .empty := by
    rw [flowsTo_iff]
    constructor
    · rintro ⟨-, -, -, hs⟩
      ext s
      simpa [bottom, ConsentScope.empty] using hs s
    · intro h
      refine ⟨by decide, Nat.zero_le _, ?_, by simp [h, ConsentScope.empty]⟩
      cases r.integrity <;> decide
  rw [hfold, hbottom]

end Metalogos.Labels
