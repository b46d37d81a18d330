import Mathlib.Data.List.Nodup
import Mathlib.Logic.Function.Basic

/-!
# Read, modify, write

Calls on one shared store, each in two atomic steps: it reads the store, and what it makes of that it
writes back later; or it sees on reading that it has nothing to write. Any steps of other calls may come
between. Where every write finds the store as its call read it, the store is what the completed calls
make of it one after another (`serial_of_undisturbed`).
-/
namespace Metalogos.Lib

variable {ι σ : Type} [DecidableEq ι]

/-- What a call has done. -/
inductive Phase (σ : Type) where
  | fresh
  | holds (seen new : σ)
  | done

/-- The store and the phase of every call. -/
structure Shared (ι σ : Type) where
  store : σ
  phase : ι → Phase σ

inductive Access (ι : Type) where
  | get (i : ι)
  | save (i : ι)

/-- `plan i s` is what call `i` writes when it has read `s`, if anything. -/
def Shared.step (plan : ι → σ → Option σ) (s : Shared ι σ) : Access ι → Shared ι σ
  | .get i =>
    match s.phase i with
    | .fresh =>
      match plan i s.store with
      | some new => { s with phase := Function.update s.phase i (.holds s.store new) }
      | none => { s with phase := Function.update s.phase i .done }
    | _ => s
  | .save i =>
    match s.phase i with
    | .holds _ new => ⟨new, Function.update s.phase i .done⟩
    | _ => s

def Shared.start (store : σ) : Shared ι σ := ⟨store, fun _ => .fresh⟩

def Shared.run (plan : ι → σ → Option σ) (s : Shared ι σ) (as : List (Access ι)) : Shared ι σ :=
  as.foldl (Shared.step plan) s

/-- A call by itself. -/
def alone (plan : ι → σ → Option σ) (s : σ) (i : ι) : σ := (plan i s).getD s

/-- The store is what the completed calls make of it in some order. -/
def Serial (plan : ι → σ → Option σ) (store : σ) (s : Shared ι σ) : Prop :=
  ∃ order : List ι, order.Nodup ∧ (∀ i, i ∈ order ↔ s.phase i = .done) ∧
    s.store = order.foldl (alone plan) store

/-- The write of a call finds what the call read. -/
def Shared.Undisturbed (s : Shared ι σ) : Access ι → Prop
  | .get _ => True
  | .save i => ∀ seen new, s.phase i = .holds seen new → s.store = seen

def UndisturbedAll (plan : ι → σ → Option σ) : Shared ι σ → List (Access ι) → Prop
  | _, [] => True
  | s, a :: as => s.Undisturbed a ∧ UndisturbedAll plan (s.step plan a) as

variable {plan : ι → σ → Option σ} {store : σ} {s : Shared ι σ}

/-- What a call holds is what it makes of what it read. -/
def Held (plan : ι → σ → Option σ) (s : Shared ι σ) : Prop :=
  ∀ i seen new, s.phase i = .holds seen new → plan i seen = some new

theorem Held.step (h : Held plan s) (a : Access ι) : Held plan (s.step plan a) := by
  have hupdate {i : ι} {p : Phase σ} {store : σ} (hp : ∀ seen new, p = .holds seen new → plan i seen = some new) :
      Held plan ⟨store, Function.update s.phase i p⟩ := by
    intro j seen new hj
    by_cases hji : j = i
    · subst hji
      exact hp seen new (by simpa using hj)
    · exact h j seen new (by simpa [hji] using hj)
  cases a with
  | get i =>
    simp only [Shared.step]
    split
    · split
      · rename_i new hnew
        refine hupdate fun seen new' he => ?_
        obtain ⟨rfl, rfl⟩ : s.store = seen ∧ new = new' := by simpa using he
        exact hnew
      · exact hupdate nofun
    · exact h
  | save i =>
    simp only [Shared.step]
    split
    · exact hupdate nofun
    · exact h

/-- A call that completes comes last. -/
theorem Serial.complete {i : ι} {new : σ} (h : Serial plan store s) (hi : s.phase i ≠ .done)
    (hnew : alone plan s.store i = new) : Serial plan store ⟨new, Function.update s.phase i .done⟩ := by
  obtain ⟨order, hnodup, hdone, hstore⟩ := h
  have hnot : i ∉ order := fun hmem => hi ((hdone i).1 hmem)
  refine ⟨order ++ [i], ?_, fun j => ?_, ?_⟩
  · exact List.nodup_append.2 ⟨hnodup, List.nodup_singleton i, fun a ha b hb he =>
      hnot (by simp_all)⟩
  · by_cases hji : j = i
    · simp [hji]
    · simp [hji, hdone]
  · rw [List.foldl_append, ← hstore]
    exact hnew.symm

/-- A call that is under way completes nothing. -/
theorem Serial.hold {i : ι} {p : Phase σ} (h : Serial plan store s) (hi : s.phase i ≠ .done) (hp : p ≠ .done) :
    Serial plan store { s with phase := Function.update s.phase i p } := by
  obtain ⟨order, hnodup, hdone, hstore⟩ := h
  refine ⟨order, hnodup, fun j => ?_, hstore⟩
  rw [hdone]
  by_cases hji : j = i
  · simp [hji, hi, hp]
  · simp [hji]

theorem Serial.step {a : Access ι} (h : Serial plan store s) (hheld : Held plan s) (ha : s.Undisturbed a) :
    Serial plan store (s.step plan a) := by
  cases a with
  | get i =>
    simp only [Shared.step]
    split
    · rename_i hfresh
      have hi : s.phase i ≠ .done := by
        rw [hfresh]
        exact nofun
      split
      · exact h.hold hi nofun
      · rename_i hnone
        exact h.complete hi (by rw [alone, hnone]; rfl)
    · exact h
  | save i =>
    simp only [Shared.step]
    split
    · rename_i seen new hholds
      have hi : s.phase i ≠ .done := by
        rw [hholds]
        exact nofun
      have hsame := ha seen new hholds
      exact h.complete hi (by rw [alone, hsame, hheld i seen new hholds]; rfl)
    · exact h

omit [DecidableEq ι] in
theorem serial_start : Serial plan store (Shared.start store : Shared ι σ) := by
  refine ⟨[], List.nodup_nil, fun i => ?_, rfl⟩
  constructor
  · exact nofun
  · exact nofun

theorem Serial.run {as : List (Access ι)} (h : Serial plan store s) (hheld : Held plan s)
    (has : UndisturbedAll plan s as) : Serial plan store (s.run plan as) := by
  induction as generalizing s with
  | nil => exact h
  | cons a as ih => exact ih (h.step hheld has.1) (hheld.step a) has.2

/-- Undisturbed writes are serial. -/
theorem serial_of_undisturbed (as : List (Access ι)) (has : UndisturbedAll plan (Shared.start store) as) :
    Serial plan store ((Shared.start store).run plan as) := by
  refine serial_start.run (fun i seen new h => ?_) has
  cases h

end Metalogos.Lib
