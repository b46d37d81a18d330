import Mathlib.Data.List.Nodup
import Mathlib.Logic.Function.Basic

/-!
# One flight at a time

Work of a key is handed over by whoever took the mark of the key and is marked until it is done: `holder i` is the
key whose mark the party `i` holds and has not handed over, `flights` the keys of the work handed over. Each
operation has one rule, and `SingleFlight.nodup` says what the mark is for.
-/
namespace Metalogos.Lib

structure SingleFlight {κ ι : Type} (marks : List κ) (holder : ι → Option κ) (flights : List κ) : Prop where
  held : ∀ {i k}, holder i = some k → k ∈ marks
  alone : ∀ {i j k}, holder i = some k → holder j = some k → i = j
  marked : ∀ k ∈ flights, k ∈ marks
  apart : ∀ {i k}, holder i = some k → k ∉ flights
  nodup : flights.Nodup

namespace SingleFlight

variable {κ ι : Type} {marks flights : List κ} {holder : ι → Option κ} {i : ι} {k : κ}

theorem start : SingleFlight ([] : List κ) (fun _ : ι => none) [] where
  held h := by cases h
  alone h := by cases h
  marked k h := by cases h
  apart h := by cases h
  nodup := List.nodup_nil

variable [DecidableEq ι]

theorem update_eq_some {j : ι} {k' : κ} {o : Option κ} (h : Function.update holder i o j = some k') :
    j = i ∧ o = some k' ∨ j ≠ i ∧ holder j = some k' := by
  by_cases hj : j = i
  · subst hj
    exact .inl ⟨rfl, by rwa [Function.update_self] at h⟩
  · exact .inr ⟨hj, by rwa [Function.update_of_ne hj] at h⟩

/-- The mark of a key that has none is taken. -/
theorem take (h : SingleFlight marks holder flights) (hfree : k ∉ marks) :
    SingleFlight (k :: marks) (Function.update holder i (some k)) flights where
  held hk := by
    cases update_eq_some hk with
    | inl own =>
      cases own.2
      exact List.mem_cons_self
    | inr other => exact List.mem_cons_of_mem k (h.held other.2)
  alone {i' j' k'} hi hj := by
    cases update_eq_some hi with
    | inl own =>
      cases own.2
      cases update_eq_some hj with
      | inl own' => rw [own.1, own'.1]
      | inr other => exact absurd (h.held other.2) hfree
    | inr other =>
      cases update_eq_some hj with
      | inl own =>
        cases own.2
        exact absurd (h.held other.2) hfree
      | inr other' => exact h.alone other.2 other'.2
  marked k' hk := List.mem_cons_of_mem k (h.marked k' hk)
  apart hk := by
    cases update_eq_some hk with
    | inl own =>
      cases own.2
      exact fun hmem => hfree (h.marked k hmem)
    | inr other => exact h.apart other.2
  nodup := h.nodup

/-- The party that holds the mark hands its work over. -/
theorem hand (h : SingleFlight marks holder flights) (hk : holder i = some k) :
    SingleFlight marks (Function.update holder i none) (flights ++ [k]) where
  held hk' := by
    cases update_eq_some hk' with
    | inl own => cases own.2
    | inr other => exact h.held other.2
  alone hi hj := by
    cases update_eq_some hi with
    | inl own => cases own.2
    | inr other =>
      cases update_eq_some hj with
      | inl own => cases own.2
      | inr other' => exact h.alone other.2 other'.2
  marked k' hmem := by
    cases List.mem_append.1 hmem with
    | inl hold => exact h.marked k' hold
    | inr hnew =>
      cases List.mem_singleton.1 hnew
      exact h.held hk
  apart {j k'} hk' hmem := by
    cases update_eq_some hk' with
    | inl own => cases own.2
    | inr other =>
      cases List.mem_append.1 hmem with
      | inl hold => exact h.apart other.2 hold
      | inr hnew =>
        cases List.mem_singleton.1 hnew
        exact other.1 (h.alone other.2 hk)
  nodup := by
    refine List.Nodup.append h.nodup (List.nodup_singleton k) fun k' hold hnew => ?_
    cases List.mem_singleton.1 hnew
    exact h.apart hk hold

variable [DecidableEq κ]

/-- The party that holds the mark gives it back. -/
theorem drop (h : SingleFlight marks holder flights) (hk : holder i = some k) :
    SingleFlight (marks.filter (· ≠ k)) (Function.update holder i none) flights where
  held {j k'} hk' := by
    cases update_eq_some hk' with
    | inl own => cases own.2
    | inr other =>
      have hne : k' ≠ k := fun heq => other.1 (h.alone (heq ▸ other.2) hk)
      exact List.mem_filter.2 ⟨h.held other.2, by simpa using hne⟩
  alone hi hj := by
    cases update_eq_some hi with
    | inl own => cases own.2
    | inr other =>
      cases update_eq_some hj with
      | inl own => cases own.2
      | inr other' => exact h.alone other.2 other'.2
  marked k' hmem := by
    have hne : k' ≠ k := fun heq => h.apart hk (heq ▸ hmem)
    exact List.mem_filter.2 ⟨h.marked k' hmem, by simpa using hne⟩
  apart hk' := by
    cases update_eq_some hk' with
    | inl own => cases own.2
    | inr other => exact h.apart other.2
  nodup := h.nodup

omit [DecidableEq ι] in
/-- Work that is done gives the mark back. -/
theorem land (h : SingleFlight marks holder (k :: flights)) :
    SingleFlight (marks.filter (· ≠ k)) holder flights where
  held {j k'} hk' := by
    have hne : k' ≠ k := fun heq => h.apart hk' (heq ▸ List.mem_cons_self)
    exact List.mem_filter.2 ⟨h.held hk', by simpa using hne⟩
  alone hi hj := h.alone hi hj
  marked k' hmem := by
    have hne : k' ≠ k := fun heq => (List.nodup_cons.1 h.nodup).1 (heq ▸ hmem)
    exact List.mem_filter.2 ⟨h.marked k' (List.mem_cons_of_mem k hmem), by simpa using hne⟩
  apart hk' hmem := h.apart hk' (List.mem_cons_of_mem k hmem)
  nodup := (List.nodup_cons.1 h.nodup).2

omit [DecidableEq ι] [DecidableEq κ] in
/-- Work that is lost leaves its mark. -/
theorem lost (h : SingleFlight marks holder flights) : SingleFlight marks holder [] where
  held hk := h.held hk
  alone hi hj := h.alone hi hj
  marked k hk := by cases hk
  apart _ hk := by cases hk
  nodup := List.nodup_nil

end SingleFlight

end Metalogos.Lib
