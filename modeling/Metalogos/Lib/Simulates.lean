import Metalogos.Lib.Budget
import Metalogos.Lib.Traced

/-!
# A machine that simulates an observed computation

`Simulates M Ok x w o Q E`: started with world `w`, the computation `x` is simulated by the machine
`M` standing at `o`, as long as every event of the run satisfies `Ok`. If `x` ends with `a`, the
machine gets to a place `o'` with `Q a w' o'`; if it fails with `e`, to one with `E e w' o'`.
A place is a state, or the result of a machine that has halted (`Sum.inr`).

The rules are those of a program logic, one per constructor of `Traced`: `bind` composes, `tell`
hands out what `Ok` says of the event, `wrap` moves `Ok` inside, `pre` and `post` put machine steps
before and after.
-/
namespace Metalogos.Lib

/-- A machine whose step depends on a budget. -/
structure Budgeted (σ ρ : Type) where
  next : Nat → σ → Option σ
  fin : Nat → σ → Option ρ

variable {σ ρ ε W α β : Type}

/-- From one place to another; a halted machine stays where it is. -/
def Budgeted.Gets (M : Budgeted σ ρ) : σ ⊕ ρ → σ ⊕ ρ → Prop
  | .inl s, .inl s' => Reaches M.next s s'
  | .inl s, .inr r => Halts M.next M.fin s r
  | .inr r, .inr r' => r = r'
  | .inr _, .inl _ => False

namespace Budgeted.Gets

variable {M : Budgeted σ ρ} {o o' o'' : σ ⊕ ρ}

theorem refl (o : σ ⊕ ρ) : M.Gets o o := by
  cases o with
  | inl s => exact Reaches.refl s
  | inr r => exact rfl

theorem trans (h : M.Gets o o') (h' : M.Gets o' o'') : M.Gets o o'' := by
  cases o with
  | inr r =>
    cases o' with
    | inl s => exact h.elim
    | inr r' => obtain rfl : r = r' := h; exact h'
  | inl s =>
    cases o' with
    | inl s' =>
      cases o'' with
      | inl s'' => exact Reaches.trans h h'
      | inr r => exact Reaches.halts h h'
    | inr r =>
      cases o'' with
      | inl s'' => exact h'.elim
      | inr r' => obtain rfl : r = r' := h'; exact h

end Budgeted.Gets

def Simulates (M : Budgeted σ ρ) (Ok : ε → Prop) (x : Traced ε W α) (w : W) (o : σ ⊕ ρ)
    (Q : α → W → σ ⊕ ρ → Prop) (E : String → W → σ ⊕ ρ → Prop) : Prop :=
  ∀ r w' t, x w = (r, w', t) → (∀ e ∈ t, Ok e) →
    ∃ o', M.Gets o o' ∧ match r with
      | .ok a => Q a w' o'
      | .error e => E e w' o'

namespace Simulates

variable {M : Budgeted σ ρ} {Ok : ε → Prop} {x : Traced ε W α} {f : α → Traced ε W β} {w : W}
  {o o' : σ ⊕ ρ} {Q Q' : α → W → σ ⊕ ρ → Prop} {R : β → W → σ ⊕ ρ → Prop}
  {E E' : String → W → σ ⊕ ρ → Prop}

theorem pure {a : α} (h : Q a w o) : Simulates M Ok (Pure.pure a) w o Q E := by
  intro r w' t hx _
  obtain ⟨rfl, rfl, rfl⟩ : Except.ok a = r ∧ w = w' ∧ [] = t := by
    simpa [Pure.pure, Traced.pure] using hx
  exact ⟨o, .refl o, h⟩

/-- What a simulation of nothing says: the machine gets from `o` to the end. -/
theorem gets {a : α} (h : Simulates M Ok (Pure.pure a) w o Q E) : ∃ o', M.Gets o o' ∧ Q a w o' :=
  h _ _ _ rfl (by simp)

theorem fail {e : String} (h : E e w o) :
    Simulates M Ok (Traced.fail e : Traced ε W α) w o Q E := by
  intro r w' t hx _
  obtain ⟨rfl, rfl, rfl⟩ : Except.error e = r ∧ w = w' ∧ [] = t := by
    simpa [Traced.fail] using hx
  exact ⟨o, .refl o, h⟩

theorem bind (h : Simulates M Ok x w o Q E')
    (hok : ∀ a w' o', Q a w' o' → Simulates M Ok (f a) w' o' R E)
    (herr : ∀ e w' o', E' e w' o' → E e w' o') : Simulates M Ok (x >>= f) w o R E := by
  intro r w' t hx ht
  rcases Traced.bind_inv hx with ⟨e, rfl, h₁⟩ | ⟨a, w₁, t₁, t₂, h₁, hf, rfl⟩
  · obtain ⟨o', hg, he⟩ := h _ _ _ h₁ ht
    exact ⟨o', hg, herr _ _ _ he⟩
  · obtain ⟨o₁, hg, hq⟩ := h _ _ _ h₁ fun e he => ht e (List.mem_append_left _ he)
    obtain ⟨o₂, hg', hr⟩ := hok _ _ _ hq _ _ _ hf fun e he => ht e (List.mem_append_right _ he)
    exact ⟨o₂, hg.trans hg', hr⟩

/-- The rule for an event: what is known of it can be used from here on. -/
theorem tell {e : ε} {f : Unit → Traced ε W β} (h : Ok e → Simulates M Ok (f ()) w o R E) :
    Simulates M Ok (Traced.tell e >>= f) w o R E := by
  intro r w' t hx ht
  rcases Traced.bind_inv hx with ⟨e', rfl, h₁⟩ | ⟨a, w₁, t₁, t₂, h₁, hf, rfl⟩
  · simp [Traced.tell] at h₁
  · obtain ⟨rfl, rfl⟩ : w = w₁ ∧ [e] = t₁ := by simpa [Traced.tell] using h₁
    exact h (ht e (by simp)) _ _ _ hf fun e' he => ht e' (List.mem_append_right _ he)

theorem lift {r : Except String α} (hok : ∀ a, r = .ok a → ∃ o', M.Gets o o' ∧ Q a w o')
    (herr : ∀ e, r = .error e → ∃ o', M.Gets o o' ∧ E e w o') :
    Simulates M Ok (Traced.lift r : Traced ε W α) w o Q E := by
  intro r' w' t hx _
  obtain ⟨rfl, rfl, rfl⟩ : r = r' ∧ w = w' ∧ [] = t := by simpa [Traced.lift] using hx
  cases r with
  | ok a => exact hok a rfl
  | error e => exact herr e rfl

/-- A fallible pure computation, and what comes after it when it has a value. -/
theorem lift_bind {r : Except String α} (hok : ∀ a, r = .ok a → Simulates M Ok (f a) w o R E)
    (herr : ∀ e, r = .error e → ∃ o', M.Gets o o' ∧ E e w o') :
    Simulates M Ok (Traced.lift r >>= f) w o R E := by
  intro r' w' t hx ht
  rcases Traced.bind_inv hx with ⟨e', rfl, h₁⟩ | ⟨a, w₁, t₁, t₂, h₁, hf, rfl⟩
  · obtain ⟨rfl, rfl, rfl⟩ : r = .error e' ∧ w = w' ∧ [] = t := by simpa [Traced.lift] using h₁
    exact herr e' rfl
  · obtain ⟨rfl, rfl, rfl⟩ : r = .ok a ∧ w = w₁ ∧ [] = t₁ := by simpa [Traced.lift] using h₁
    exact hok a rfl _ _ _ hf (by simpa using ht)

theorem host {g : W → Except String α × W}
    (h : ∃ o', M.Gets o o' ∧ match (g w).1 with
      | .ok a => Q a (g w).2 o'
      | .error e => E e (g w).2 o') :
    Simulates M Ok (Traced.host g : Traced ε W α) w o Q E := by
  intro r w' t hx _
  obtain ⟨rfl, rfl, rfl⟩ : (g w).1 = r ∧ (g w).2 = w' ∧ [] = t := by simpa [Traced.host] using hx
  exact h

theorem update {g : W → W} {f : Unit → Traced ε W β} (h : M.Gets o o')
    (hf : Simulates M Ok (f ()) (g w) o' R E) :
    Simulates M Ok (Traced.update g >>= f) w o R E := by
  intro r w' t hx ht
  rcases Traced.bind_inv hx with ⟨e', rfl, h₁⟩ | ⟨a, w₁, t₁, t₂, h₁, hf', rfl⟩
  · simp [Traced.update] at h₁
  · obtain ⟨rfl, rfl⟩ : g w = w₁ ∧ [] = t₁ := by simpa [Traced.update] using h₁
    obtain ⟨o₂, hg, hr⟩ := hf _ _ _ hf' (by simpa using ht)
    exact ⟨o₂, h.trans hg, hr⟩

theorem wrap {g : ε → ε} (h : Simulates M (fun e => Ok (g e)) x w o Q E) :
    Simulates M Ok (Traced.wrap g x) w o Q E := by
  intro r w' t hx ht
  obtain ⟨rfl, rfl, rfl⟩ : (x w).1 = r ∧ (x w).2.1 = w' ∧ (x w).2.2.map g = t := by
    have hw : ((x w).1, (x w).2.1, (x w).2.2.map g) = (r, w', t) := hx
    exact ⟨congrArg Prod.fst hw, congrArg (fun p => p.2.1) hw, congrArg (fun p => p.2.2) hw⟩
  exact h _ _ _ rfl fun e he => ht _ (List.mem_map_of_mem he)

/-- Machine steps before. -/
theorem pre (h : M.Gets o o') (hx : Simulates M Ok x w o' Q E) : Simulates M Ok x w o Q E := by
  intro r w' t hr ht
  obtain ⟨o₂, hg, hp⟩ := hx r w' t hr ht
  exact ⟨o₂, h.trans hg, hp⟩

/-- Machine steps after, and consequence. -/
theorem post (h : Simulates M Ok x w o Q E)
    (hok : ∀ a w' o', Q a w' o' → ∃ o'', M.Gets o' o'' ∧ Q' a w' o'')
    (herr : ∀ e w' o', E e w' o' → E' e w' o') : Simulates M Ok x w o Q' E' := by
  intro r w' t hr ht
  obtain ⟨o₁, hg, hp⟩ := h r w' t hr ht
  cases r with
  | ok a =>
    obtain ⟨o₂, hg', hq⟩ := hok _ _ _ hp
    exact ⟨o₂, hg.trans hg', hq⟩
  | error e => exact ⟨o₁, hg, herr _ _ _ hp⟩

end Simulates

end Metalogos.Lib
