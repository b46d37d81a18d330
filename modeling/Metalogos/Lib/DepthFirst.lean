import Mathlib.Data.List.Basic
import Mathlib.Logic.Relation

/-!
# Depth-first scan

A recursive scan that goes on only at keys it has not met, with what it met as its state. Where several
elements have one key, only the first that the scan comes to is met (`scan`); the others are passed over. The
scan has a budget of nested calls. When everything that follows has a key among `names`, a budget of more than
the names not met yet is enough, and then every key that the scan can come to is met (`scan_covers`), and
nothing that it cannot come to (`scan_reach`).
-/
namespace Metalogos.Lib

open Relation

variable {α κ : Type} [DecidableEq κ] {key : α → κ} {next : α → List α} {names : List κ}

/-- What was met after `a`. -/
def scan (key : α → κ) (next : α → List α) : Nat → List α → α → List α
  | 0, met, _ => met
  | fuel + 1, met, a =>
    if key a ∈ met.map key then met else (next a).foldl (scan key next fuel) (met ++ [a])

/-- The names that are left. -/
def unmet (names seen : List κ) : Nat := (names.filter fun n => decide (n ∉ seen)).length

theorem unmet_le_length {seen : List κ} : unmet names seen ≤ names.length := List.length_filter_le _ _

theorem unmet_mono {seen seen' : List κ} (h : seen ⊆ seen') : unmet names seen' ≤ unmet names seen := by
  refine (List.monotone_filter_right names fun n hn => ?_).length_le
  simp only [decide_eq_true_eq] at hn ⊢
  exact fun hmem => hn (h hmem)

theorem unmet_lt {seen : List κ} {n : κ} (hn : n ∈ names) (hnew : n ∉ seen) :
    unmet names (seen ++ [n]) < unmet names seen := by
  have hsub : (names.filter fun k => decide (k ∉ seen ++ [n])).Sublist
      ((names.filter fun k => decide (k ∉ seen)).filter fun k => decide (k ≠ n)) := by
    rw [List.filter_filter]
    refine List.monotone_filter_right names fun k hk => ?_
    simpa [not_or, and_comm] using hk
  refine Nat.lt_of_le_of_lt hsub.length_le ?_
  exact List.length_filter_lt_length_iff_exists.2 ⟨n, List.mem_filter.2 ⟨hn, by simpa using hnew⟩, by simp⟩

/-! ## What a scan keeps -/

theorem foldl_keeps {β : Type} {step : β → α → β} {P : β → Prop} {as : List α} {b : β}
    (keep : ∀ b, ∀ a ∈ as, P b → P (step b a)) (hb : P b) : P (as.foldl step b) := by
  induction as generalizing b with
  | nil => exact hb
  | cons a as ih =>
    exact ih (fun b x hx => keep b x (List.mem_cons_of_mem a hx)) (keep b a List.mem_cons_self hb)

theorem scan_subset {fuel : Nat} {met : List α} {a : α} : met ⊆ scan key next fuel met a := by
  induction fuel generalizing met a with
  | zero => exact List.Subset.refl met
  | succ fuel ih =>
    unfold scan
    split
    · exact List.Subset.refl met
    · exact foldl_keeps (P := fun b => met ⊆ b) (fun b x _ hb => List.Subset.trans hb ih) (List.subset_append_left met [a])

theorem foldl_scan_subset {fuel : Nat} {as met : List α} : met ⊆ as.foldl (scan key next fuel) met :=
  foldl_keeps (P := fun b => met ⊆ b) (fun _ _ _ hb => List.Subset.trans hb scan_subset) (List.Subset.refl met)

/-- What is met was met before, or the scan comes to it. -/
theorem scan_reach {fuel : Nat} {met : List α} {a x : α} (hx : x ∈ scan key next fuel met a) :
    x ∈ met ∨ ReflTransGen (fun y z => z ∈ next y) a x := by
  induction fuel generalizing met a x with
  | zero => exact .inl hx
  | succ fuel ih =>
    unfold scan at hx
    split at hx
    · exact .inl hx
    · refine foldl_keeps (P := fun b => ∀ x ∈ b, x ∈ met ∨ ReflTransGen (fun y z => z ∈ next y) a x)
        (fun b c hc hb y hy => ?_) (fun y hy => ?_) x hx
      · rcases ih hy with hy | hy
        · exact hb y hy
        · exact .inr (.head hc hy)
      · rcases List.mem_append.1 hy with hy | hy
        · exact .inl hy
        · obtain rfl := List.mem_singleton.1 hy
          exact .inr .refl

/-! ## What a scan covers -/

/-- All that follows `x` is met. -/
def Covered (key : α → κ) (next : α → List α) (met : List α) (x : α) : Prop := ∀ y ∈ next x, key y ∈ met.map key

omit [DecidableEq κ] in
theorem Covered.mono {met met' : List α} {x : α} (h : Covered key next met x) (hsub : met ⊆ met') :
    Covered key next met' x := fun y hy => List.map_subset key hsub (h y hy)

/-- The names that are left, and one call that finds nothing left. -/
def Suffices (names : List κ) (fuel : Nat) (seen : List κ) (n : κ) : Prop :=
  unmet names seen + (if n ∈ names then 1 else 2) ≤ fuel

theorem Suffices.push {fuel : Nat} {seen : List κ} {n k : κ} (h : Suffices names (fuel + 1) seen n)
    (hnew : n ∉ seen) (hk : k ∈ names) : Suffices names fuel (seen ++ [n]) k := by
  unfold Suffices at h ⊢
  rw [if_pos hk]
  split at h
  · rename_i hn
    have hlt := unmet_lt hn hnew
    omega
  · have hle : unmet names (seen ++ [n]) ≤ unmet names seen := unmet_mono (List.subset_append_left seen [n])
    omega

theorem Suffices.mono {fuel : Nat} {seen seen' : List κ} {n : κ} (h : Suffices names fuel seen n)
    (hsub : seen ⊆ seen') : Suffices names fuel seen' n :=
  Nat.le_trans (Nat.add_le_add_right (unmet_mono hsub) _) h

theorem suffices_all {fuel : Nat} (h : names.length + 2 ≤ fuel) (seen : List κ) (n : κ) :
    Suffices names fuel seen n := by
  have hle : unmet names seen ≤ names.length := unmet_le_length
  unfold Suffices
  split <;> omega

theorem not_suffices_zero {seen : List κ} {n : κ} : ¬ Suffices names 0 seen n := by
  unfold Suffices
  split <;> omega

/-- What a scan leaves. -/
structure Covers (key : α → κ) (next : α → List α) (as met met' : List α) : Prop where
  found : ∀ a ∈ as, key a ∈ met'.map key
  covered : ∀ x ∈ met', x ∈ met ∨ Covered key next met' x

theorem foldl_covers {fuel : Nat} {as met : List α}
    (hscan : ∀ met, ∀ a ∈ as, Suffices names fuel (met.map key) (key a) → Covers key next [a] met (scan key next fuel met a))
    (hfuel : ∀ a ∈ as, Suffices names fuel (met.map key) (key a)) :
    Covers key next as met (as.foldl (scan key next fuel) met) := by
  induction as generalizing met with
  | nil => exact ⟨fun _ ha => (nomatch ha), fun x hx => .inl hx⟩
  | cons a as ih =>
    have hfirst := hscan met a List.mem_cons_self (hfuel a List.mem_cons_self)
    have hmono : met ⊆ scan key next fuel met a := scan_subset
    have hrest := ih (fun b x hx => hscan b x (List.mem_cons_of_mem a hx))
      (fun x hx => (hfuel x (List.mem_cons_of_mem a hx)).mono (List.map_subset key hmono))
    have hsub : scan key next fuel met a ⊆ as.foldl (scan key next fuel) (scan key next fuel met a) :=
      foldl_scan_subset
    constructor
    · intro x hx
      rcases List.mem_cons.1 hx with rfl | hx
      · exact List.map_subset key hsub (hfirst.found x (List.mem_singleton_self x))
      · exact hrest.found x hx
    · intro x hx
      rcases hrest.covered x hx with hx | hx
      · exact (hfirst.covered x hx).imp_right fun h => h.mono hsub
      · exact .inr hx

theorem scan_covers (hnames : ∀ x, ∀ y ∈ next x, key y ∈ names) {fuel : Nat} {met : List α} {a : α}
    (hfuel : Suffices names fuel (met.map key) (key a)) : Covers key next [a] met (scan key next fuel met a) := by
  induction fuel generalizing met a with
  | zero => exact absurd hfuel not_suffices_zero
  | succ fuel ih =>
    unfold scan
    split
    · rename_i hmet
      refine ⟨fun x hx => ?_, fun x hx => .inl hx⟩
      rwa [List.mem_singleton.1 hx]
    · rename_i hnew
      have hinner : ∀ y ∈ next a, Suffices names fuel ((met ++ [a]).map key) (key y) := by
        intro y hy
        rw [List.map_append, List.map_singleton]
        exact hfuel.push hnew (hnames a y hy)
      have hcov : Covers key next (next a) (met ++ [a]) ((next a).foldl (scan key next fuel) (met ++ [a])) :=
        foldl_covers (fun met y _ => ih) hinner
      have hsub : met ++ [a] ⊆ (next a).foldl (scan key next fuel) (met ++ [a]) := foldl_scan_subset
      constructor
      · intro x hx
        obtain rfl := List.mem_singleton.1 hx
        exact List.mem_map_of_mem (hsub (by simp))
      · intro x hx
        rcases hcov.covered x hx with hx | hx
        · rcases List.mem_append.1 hx with hx | hx
          · exact .inl hx
          · obtain rfl := List.mem_singleton.1 hx
            exact .inr hcov.found
        · exact .inr hx

/-! ## A scan from several elements -/

/-- The elements that are met first, each for its key. -/
def scanAll (key : α → κ) (next : α → List α) (fuel : Nat) (as : List α) : List α :=
  as.foldl (scan key next fuel) []

theorem scanAll_reach {fuel : Nat} {as : List α} {x : α} (hx : x ∈ scanAll key next fuel as) :
    ∃ a ∈ as, ReflTransGen (fun y z => z ∈ next y) a x := by
  refine foldl_keeps (P := fun b => ∀ x ∈ b, ∃ a ∈ as, ReflTransGen (fun y z => z ∈ next y) a x)
    (fun b a ha hb y hy => ?_) (fun y hy => absurd hy List.not_mem_nil) x hx
  exact (scan_reach hy).elim (hb y) fun h => ⟨a, ha, h⟩

/-- Every key that the scan can come to is met, where elements of one key are followed by the same. -/
theorem scanAll_covers (hnames : ∀ x, ∀ y ∈ next x, key y ∈ names) (hkey : ∀ x y, key x = key y → next x = next y)
    {fuel : Nat} (hfuel : names.length + 2 ≤ fuel) {as : List α} {a x : α} (ha : a ∈ as)
    (hx : ReflTransGen (fun y z => z ∈ next y) a x) : ∃ y ∈ scanAll key next fuel as, key y = key x := by
  have hcov : Covers key next as [] (scanAll key next fuel as) :=
    foldl_covers (fun _ _ _ => scan_covers hnames) fun y _ => suffices_all hfuel _ (key y)
  induction hx with
  | refl => exact List.mem_map.1 (hcov.found a ha)
  | @tail x z _ hz ih =>
    obtain ⟨y, hy, hyx⟩ := ih
    rcases hcov.covered y hy with hy | hy
    · cases hy
    · exact List.mem_map.1 (hy z (hkey y x hyx ▸ hz))

end Metalogos.Lib
