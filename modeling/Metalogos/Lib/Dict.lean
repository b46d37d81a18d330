import Mathlib.Data.List.Lookmap
import Mathlib.Data.List.Nodup

/-!
# Finite maps

A map with finitely many keys, as the list of its pairs: what a hash map or a table with a primary key
holds. All reasoning goes through `get`: each operation has one lemma that says what `get` finds after
it, and `select` (the keys whose value passes a test, in the order of the pairs) has its membership.
-/
namespace Metalogos.Lib

structure Dict (κ α : Type) where
  pairs : List (κ × α)
  deriving DecidableEq

namespace Dict

variable {κ α : Type} [DecidableEq κ]

def empty : Dict κ α := ⟨[]⟩

def get (d : Dict κ α) (k : κ) : Option α := d.pairs.lookup k

def has (d : Dict κ α) (k : κ) : Bool := (d.get k).isSome

def erase (d : Dict κ α) (k : κ) : Dict κ α := ⟨d.pairs.filter (·.1 ≠ k)⟩

/-- The value of a key, new or replaced. -/
def set (d : Dict κ α) (k : κ) (v : α) : Dict κ α := ⟨(d.erase k).pairs ++ [(k, v)]⟩

/-- A value changed in place, if the key is there. -/
def modify (d : Dict κ α) (k : κ) (f : α → α) : Dict κ α :=
  ⟨d.pairs.map fun p => if p.1 = k then (p.1, f p.2) else p⟩

def keys (d : Dict κ α) : List κ := d.pairs.map (·.1)

/-- The keys whose value passes. -/
def select (d : Dict κ α) (p : κ → α → Bool) : List κ := d.keys.filter fun k => (d.get k).any (p k)

/-- The keys whose value passes, with their values. -/
def retain (d : Dict κ α) (p : κ → α → Bool) : Dict κ α := (d.select fun k v => !p k v).foldl erase d

variable (d : Dict κ α) (k k' : κ) (v : α) (f : α → α)

@[simp] theorem get_empty : (empty : Dict κ α).get k = none := rfl

theorem has_eq_true : d.has k = true ↔ ∃ v, d.get k = some v := by
  rw [has, Option.isSome_iff_exists]

theorem has_eq_false : d.has k = false ↔ d.get k = none := by
  simp [has]

theorem get_erase : (d.erase k).get k' = if k' = k then none else d.get k' := by
  obtain ⟨ps⟩ := d
  simp only [get, erase]
  induction ps with
  | nil => simp
  | cons p ps ih =>
    obtain ⟨q, w⟩ := p
    by_cases hq : q = k
    · rw [List.filter_cons_of_neg (by simpa using hq), ih]
      by_cases hk : k' = k
      · simp [hk]
      · have hne : (k' == q) = false := beq_eq_false_iff_ne.2 (hq ▸ hk)
        rw [if_neg hk, if_neg hk, List.lookup_cons, hne]
    · rw [List.filter_cons_of_pos (by simpa using hq), List.lookup_cons, List.lookup_cons, ih]
      by_cases hk : k' = k
      · have hne : (k' == q) = false := beq_eq_false_iff_ne.2 fun h => hq (h ▸ hk)
        simp only [hne, if_pos hk]
      · simp only [if_neg hk]

theorem get_set : (d.set k v).get k' = if k' = k then some v else d.get k' := by
  have happ (ps : List (κ × α)) :
      (ps ++ [(k, v)]).lookup k' = (ps.lookup k').or (if k' = k then some v else none) := by
    induction ps with
    | nil =>
      by_cases hk : k' = k
      · simp [hk]
      · have hne : (k' == k) = false := beq_eq_false_iff_ne.2 hk
        simp [List.lookup_cons, hne, hk]
    | cons p ps ih =>
      rw [List.cons_append, List.lookup_cons, List.lookup_cons, ih]
      cases k' == p.1 <;> rfl
  have herase := get_erase d k k'
  simp only [get] at herase
  simp only [get, set, happ, herase]
  by_cases hk : k' = k
  · simp [hk]
  · simp [hk]

theorem get_modify : (d.modify k f).get k' = if k' = k then (d.get k').map f else d.get k' := by
  obtain ⟨ps⟩ := d
  simp only [get, modify]
  induction ps with
  | nil => simp
  | cons p ps ih =>
    obtain ⟨q, w⟩ := p
    by_cases hq : q = k
    · subst hq
      by_cases hk : k' = q
      · subst hk
        simp
      · have hne : (k' == q) = false := beq_eq_false_iff_ne.2 hk
        simp only [List.map_cons, if_true, List.lookup_cons, hne, ih]
    · simp only [List.map_cons, hq, if_false, List.lookup_cons, ih]
      by_cases hk : k' = k
      · have hne : (k' == q) = false := beq_eq_false_iff_ne.2 fun h => hq (h ▸ hk)
        rw [hne, if_pos hk]
      · simp only [if_neg hk]

theorem mem_keys : k ∈ d.keys ↔ ∃ v, d.get k = some v := by
  obtain ⟨ps⟩ := d
  simp only [keys, get]
  induction ps with
  | nil => simp
  | cons p ps ih =>
    obtain ⟨q, w⟩ := p
    rw [List.map_cons, List.mem_cons, ih, List.lookup_cons]
    by_cases hk : k = q
    · simp [hk]
    · have hne : (k == q) = false := beq_eq_false_iff_ne.2 hk
      simp [hne, hk]

theorem keys_modify : (d.modify k f).keys = d.keys := by
  simp only [keys, modify, List.map_map]
  refine List.map_congr_left fun p _ => ?_
  simp only [Function.comp_apply]
  split <;> rfl

variable {d k v} in
theorem mem_pairs_of_get (h : d.get k = some v) : (k, v) ∈ d.pairs := by
  obtain ⟨ps⟩ := d
  simp only [get] at h
  induction ps with
  | nil => cases h
  | cons p ps ih =>
    obtain ⟨q, w⟩ := p
    rw [List.lookup_cons] at h
    by_cases hk : k = q
    · subst hk
      obtain rfl : w = v := by simpa using h
      exact List.mem_cons_self
    · have hne : (k == q) = false := beq_eq_false_iff_ne.2 hk
      rw [hne] at h
      exact List.mem_cons_of_mem _ (ih h)

variable {d k v} in
theorem get_of_mem_pairs (hnodup : d.keys.Nodup) (h : (k, v) ∈ d.pairs) : d.get k = some v := by
  obtain ⟨w, hw⟩ := (d.mem_keys k).1 (List.mem_map_of_mem h)
  have hpair := List.inj_on_of_nodup_map hnodup h (mem_pairs_of_get hw) rfl
  rw [hw, (Prod.mk.inj hpair).2]

variable {d k} in
theorem modify_of_get_none (h : d.get k = none) : d.modify k f = d := by
  have hk : ∀ p ∈ d.pairs, p.1 ≠ k := by
    rintro p hp rfl
    obtain ⟨w, hw⟩ := (d.mem_keys p.1).1 (List.mem_map_of_mem hp)
    rw [h] at hw
    cases hw
  obtain ⟨ps⟩ := d
  simp only [modify, Dict.mk.injEq]
  have hid : ps.map (fun p => if p.1 = k then (p.1, f p.2) else p) = ps.map id :=
    List.map_congr_left fun p hp => if_neg (hk p hp)
  rw [hid, List.map_id]

theorem modify_erase : (d.modify k f).erase k' = (d.erase k').modify k f := by
  obtain ⟨ps⟩ := d
  simp only [modify, erase, Dict.mk.injEq]
  rw [List.filter_map]
  congr 1
  refine List.filter_congr fun p _ => ?_
  by_cases hp : p.1 = k <;> simp [hp]

variable {d k} in
theorem keys_set_fresh (h : d.get k = none) : (d.set k v).keys = d.keys ++ [k] := by
  have hne : ∀ p ∈ d.pairs, (decide (p.1 ≠ k)) = true := by
    intro p hp
    have hpk : p.1 ≠ k := by
      rintro rfl
      obtain ⟨w, hw⟩ := (d.mem_keys p.1).1 (List.mem_map_of_mem hp)
      rw [h] at hw
      cases hw
    simpa using hpk
  simp only [keys, set, erase, List.filter_eq_self.2 hne, List.map_append, List.map_singleton]

theorem nodup_keys_set (h : d.keys.Nodup) : (d.set k v).keys.Nodup := by
  have hkeys : (d.set k v).keys = d.keys.filter (· ≠ k) ++ [k] := by
    simp [keys, set, erase, List.filter_map, Function.comp_def]
  rw [hkeys, List.nodup_append]
  refine ⟨h.filter _, by simp, fun a ha b hb => ?_⟩
  rw [List.mem_singleton.1 hb]
  simpa using (List.mem_filter.1 ha).2

theorem mem_select {p : κ → α → Bool} : k ∈ d.select p ↔ ∃ v, d.get k = some v ∧ p k v = true := by
  rw [select, List.mem_filter, mem_keys]
  cases d.get k <;> simp

theorem get_foldl_erase (ks : List κ) : (ks.foldl erase d).get k = if k ∈ ks then none else d.get k := by
  induction ks generalizing d with
  | nil => rfl
  | cons j ks ih =>
    rw [List.foldl_cons, ih, get_erase]
    by_cases hk : k = j <;> simp [hk]

theorem get_retain {p : κ → α → Bool} : (d.retain p).get k = (d.get k).filter (p k) := by
  unfold retain
  rw [get_foldl_erase]
  by_cases hk : k ∈ d.select fun k v => !p k v
  · obtain ⟨v, hv, hp⟩ := (d.mem_select k).1 hk
    rw [if_pos hk, hv, Option.filter_some, if_neg (by simpa using hp)]
  · rw [if_neg hk]
    cases hv : d.get k with
    | none => rfl
    | some v =>
      have hp : p k v = true := by
        by_contra hp
        exact hk ((d.mem_select k).2 ⟨v, hv, by simpa using hp⟩)
      rw [Option.filter_some, if_pos hp]

end Dict

end Metalogos.Lib
