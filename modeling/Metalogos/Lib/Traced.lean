import Mathlib.Data.List.Basic

/-!
# Observed computations

`Traced ε W α`: a computation that threads a world `W`, may fail with a text, and is observed: it
yields the list of events `ε` of its run. Events change nothing; they are how a property of a run
is stated. A sub-computation in a special position is wrapped (`wrap`), so that an event says where
it happened.
-/
namespace Metalogos.Lib

def Traced (ε W α : Type) : Type := W → Except String α × W × List ε

variable {ε W α β : Type}

namespace Traced

protected def pure (a : α) : Traced ε W α := fun w => (.ok a, w, [])

protected def bind (x : Traced ε W α) (f : α → Traced ε W β) : Traced ε W β := fun w =>
  match x w with
  | (.ok a, w', t) =>
    let r := f a w'
    (r.1, r.2.1, t ++ r.2.2)
  | (.error e, w', t) => (.error e, w', t)

instance : Monad (Traced ε W) where
  pure := Traced.pure
  bind := Traced.bind

/-- `Err(e)`. -/
def fail (e : String) : Traced ε W α := fun w => (.error e, w, [])

/-- A fallible pure computation. -/
def lift (r : Except String α) : Traced ε W α := fun w => (r, w, [])

/-- Observe an event. -/
def tell (e : ε) : Traced ε W Unit := fun w => (.ok (), w, [e])

/-- Change the world. -/
def update (f : W → W) : Traced ε W Unit := fun w => (.ok (), f w, [])

/-- A call that leaves the computation. -/
def host (f : W → Except String α × W) : Traced ε W α := fun w => ((f w).1, (f w).2, [])

/-- Run in a special position: the events are wrapped. -/
def wrap (g : ε → ε) (x : Traced ε W α) : Traced ε W α := fun w =>
  let r := x w
  (r.1, r.2.1, r.2.2.map g)

/-- A failure is a result. -/
def catching (g : Except String α → β) (x : Traced ε W α) : Traced ε W β := fun w =>
  let r := x w
  (.ok (g r.1), r.2.1, r.2.2)

variable {x : Traced ε W α} {f : α → Traced ε W β} {w w' : W} {t : List ε} {r : Except String β}

/-- A bind that finished: either its first part failed, or both parts ran and the traces add up. -/
theorem bind_inv (h : (x >>= f) w = (r, w', t)) :
    (∃ e, r = .error e ∧ x w = (.error e, w', t)) ∨
    ∃ a w₁ t₁ t₂, x w = (.ok a, w₁, t₁) ∧ f a w₁ = (r, w', t₂) ∧ t = t₁ ++ t₂ := by
  change Traced.bind x f w = _ at h
  unfold Traced.bind at h
  split at h
  · rename_i a w₁ t₁ hx
    refine .inr ⟨a, w₁, t₁, (f a w₁).2.2, hx, ?_, ?_⟩
    · obtain ⟨h1, h2, -⟩ := Prod.mk.inj h |>.imp_right Prod.mk.inj
      rw [← h1, ← h2]
    · exact (Prod.mk.inj (Prod.mk.inj h).2).2.symm
  · rename_i e w₁ t₁ hx
    obtain ⟨h1, h2, h3⟩ := Prod.mk.inj h |>.imp_right Prod.mk.inj
    exact .inl ⟨e, h1.symm, by rw [hx, h2, h3]⟩

/-- A bind whose first part returned goes on with its second part. -/
theorem bind_ok {a : α} (h : x w = (.ok a, w', t)) :
    (x >>= f) w = ((f a w').1, (f a w').2.1, t ++ (f a w').2.2) := by
  change Traced.bind x f w = _
  unfold Traced.bind
  rw [h]

/-! ## Computations that leave the world alone -/

/-- Every run yields `r` and leaves the world as it was. -/
def Yields (x : Traced ε W α) (r : Except String α) : Prop := ∀ w, ∃ t, x w = (r, w, t)

namespace Yields

theorem pure (a : α) : Yields (Pure.pure a : Traced ε W α) (.ok a) := fun _ => ⟨[], rfl⟩

theorem lift (r : Except String α) : Yields (Traced.lift r : Traced ε W α) r := fun _ => ⟨[], rfl⟩

theorem bind {r : Except String α} {g : α → Except String β} (hx : Yields x r)
    (hf : ∀ a, r = .ok a → Yields (f a) (g a)) : Yields (x >>= f) (r >>= g) := by
  intro w
  obtain ⟨t, ht⟩ := hx w
  change ∃ t, Traced.bind x f w = _
  unfold Traced.bind
  rw [ht]
  cases r with
  | error e => exact ⟨t, rfl⟩
  | ok a =>
    obtain ⟨t', ht'⟩ := hf a rfl w
    simp only [ht']
    exact ⟨t ++ t', rfl⟩

end Yields

/-! ## What a computation can emit -/

/-- Every event of every run satisfies `P`. -/
def Emits (P : ε → Prop) (x : Traced ε W α) : Prop := ∀ w, ∀ e ∈ (x w).2.2, P e

namespace Emits

variable {P Q : ε → Prop}

theorem pure {a : α} : Emits P (Pure.pure a : Traced ε W α) := by
  intro w e h
  simp [Pure.pure, Traced.pure] at h

theorem fail {e : String} : Emits P (Traced.fail e : Traced ε W α) := by
  intro w e h
  simp [Traced.fail] at h

theorem lift {r : Except String α} : Emits P (Traced.lift r : Traced ε W α) := by
  intro w e h
  simp [Traced.lift] at h

theorem update {g : W → W} : Emits P (Traced.update g : Traced ε W Unit) := by
  intro w e h
  simp [Traced.update] at h

theorem host {g : W → Except String α × W} : Emits P (Traced.host g : Traced ε W α) := by
  intro w e h
  simp [Traced.host] at h

theorem tell {e : ε} (h : P e) : Emits P (Traced.tell e : Traced ε W Unit) := by
  intro w e' he
  obtain rfl : e' = e := by simpa [Traced.tell] using he
  exact h

theorem bind (hx : Emits P x) (hf : ∀ a, Emits P (f a)) : Emits P (x >>= f) := by
  intro w e he
  rcases hr : (x >>= f) w with ⟨r, w', t⟩
  rw [hr] at he
  rcases bind_inv hr with ⟨_, -, h⟩ | ⟨a, w₁, t₁, t₂, h₁, h₂, rfl⟩
  · exact hx w e (by rw [h]; exact he)
  · rcases List.mem_append.1 he with he | he
    · exact hx w e (by rw [h₁]; exact he)
    · exact hf a w₁ e (by rw [h₂]; exact he)

theorem wrap {g : ε → ε} (h : Emits (fun e => P (g e)) x) : Emits P (Traced.wrap g x) := by
  intro w e he
  obtain ⟨e', he', rfl⟩ := List.mem_map.1 he
  exact h w e' he'

theorem catching {g : Except String α → β} (h : Emits P x) : Emits P (Traced.catching g x) := h

theorem mono (h : Emits P x) (hpq : ∀ e, P e → Q e) : Emits Q x := fun w e he => hpq e (h w e he)

end Emits

/-! ## What a computation can return -/

/-- Every run that returns, returns a value with `Q`. -/
def Ensures (Q : α → Prop) (x : Traced ε W α) : Prop := ∀ w a w' t, x w = (.ok a, w', t) → Q a

namespace Ensures

variable {Q : α → Prop} {R : β → Prop}

theorem pure {a : α} (h : Q a) : Ensures Q (Pure.pure a : Traced ε W α) := by
  intro w b w' t hrun
  cases hrun
  exact h

theorem fail {e : String} : Ensures Q (Traced.fail e : Traced ε W α) := by
  intro w a w' t hrun
  cases hrun

theorem trivial (x : Traced ε W α) : Ensures (fun _ => True) x := fun _ _ _ _ _ => True.intro

theorem bind (hx : Ensures Q x) (hf : ∀ a, Q a → Ensures R (f a)) : Ensures R (x >>= f) := by
  intro w b w' t hrun
  rcases bind_inv hrun with ⟨e, he, -⟩ | ⟨a, w₁, t₁, t₂, h₁, h₂, -⟩
  · cases he
  · exact hf a (hx w a w₁ t₁ h₁) w₁ b w' t₂ h₂

/-- What the first part returns does not matter. -/
theorem after (hf : ∀ a, Ensures R (f a)) : Ensures R (x >>= f) := bind (trivial x) fun a _ => hf a

theorem wrap {g : ε → ε} (h : Ensures Q x) : Ensures Q (Traced.wrap g x) := by
  intro w a w' t hrun
  obtain ⟨hr, hw⟩ := Prod.mk.inj hrun
  exact h w a w' (x w).2.2 (by rw [← hr, ← (Prod.mk.inj hw).1])

theorem mono {Q' : α → Prop} (h : Ensures Q x) (himp : ∀ a, Q a → Q' a) : Ensures Q' x :=
  fun w a w' t hrun => himp a (h w a w' t hrun)

end Ensures

/-- The same for the runs from one world. The rule for a bind hands on the run of its first part. -/
def EnsuresFrom (w : W) (Q : α → Prop) (x : Traced ε W α) : Prop := ∀ a w' t, x w = (.ok a, w', t) → Q a

namespace EnsuresFrom

variable {Q : α → Prop} {R : β → Prop} {w : W}

theorem pure {a : α} (h : Q a) : EnsuresFrom w Q (Pure.pure a : Traced ε W α) := Ensures.pure h w

theorem fail {e : String} : EnsuresFrom w Q (Traced.fail e : Traced ε W α) := Ensures.fail w

theorem bind (h : ∀ a w₁ t, x w = (.ok a, w₁, t) → EnsuresFrom w₁ R (f a)) : EnsuresFrom w R (x >>= f) := by
  intro b w' t hrun
  rcases bind_inv hrun with ⟨e, he, -⟩ | ⟨a, w₁, t₁, t₂, h₁, h₂, -⟩
  · cases he
  · exact h a w₁ t₁ h₁ b w' t₂ h₂

theorem lift_bind {r : Except String α} (h : ∀ a, r = .ok a → EnsuresFrom w R (f a)) :
    EnsuresFrom w R (Traced.lift r >>= f) := by
  refine bind fun a w₁ t hrun => ?_
  obtain ⟨hr, hw⟩ := Prod.mk.inj hrun
  rw [← (Prod.mk.inj hw).1]
  exact h a hr

theorem tell_bind {e : ε} {f : Unit → Traced ε W β} (h : EnsuresFrom w R (f ())) :
    EnsuresFrom w R (Traced.tell e >>= f) := by
  refine bind fun _ w₁ t hrun => ?_
  rw [← (Prod.mk.inj (Prod.mk.inj hrun).2).1]
  exact h

theorem wrap_bind {g : ε → ε} (h : ∀ a w₁ t, x w = (.ok a, w₁, t) → EnsuresFrom w₁ R (f a)) :
    EnsuresFrom w R (Traced.wrap g x >>= f) := by
  refine bind fun a w₁ t hrun => ?_
  obtain ⟨hr, hw⟩ := Prod.mk.inj hrun
  exact h a w₁ (x w).2.2 (by rw [← hr, ← (Prod.mk.inj hw).1])

end EnsuresFrom

end Traced

end Metalogos.Lib
