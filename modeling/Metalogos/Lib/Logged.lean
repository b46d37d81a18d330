import Mathlib.Data.List.Basic

/-!
# Computations with a log

`Logged ε α` is a value with what was told on the way. A program written for every monad can be run in it, and from
the logged run every other one is read off: `MonadMap` is a map between monads that keeps `pure` and `bind`, and the
two maps out of `Logged` forget the log (`unlogged`) and fail if an entry of it does not pass (`checked`).
-/
namespace Metalogos.Lib

structure Logged (ε α : Type) where
  value : α
  log : List ε

structure MonadMap (M N : Type → Type) [Monad M] [Monad N] where
  app : {α : Type} → M α → N α
  app_pure : ∀ {α : Type} (a : α), app (pure a) = pure a
  app_bind : ∀ {α β : Type} (x : M α) (f : α → M β), app (x >>= f) = app x >>= fun a => app (f a)

attribute [simp] MonadMap.app_pure MonadMap.app_bind

namespace Logged

variable {ε α β : Type}

instance : Monad (Logged ε) where
  pure a := ⟨a, []⟩
  bind x f := ⟨(f x.value).value, x.log ++ (f x.value).log⟩

def tell (e : ε) : Logged ε Unit := ⟨(), [e]⟩

/-- The value. -/
def unlogged : MonadMap (Logged ε) Id where
  app x := x.value
  app_pure _ := rfl
  app_bind _ _ := rfl

/-- The value, if all entries pass. -/
def checked (p : ε → Bool) : MonadMap (Logged ε) Option where
  app x := if x.log.all p then some x.value else none
  app_pure _ := rfl
  app_bind x f := by
    show (if (x.log ++ (f x.value).log).all p then some (f x.value).value else none) =
      (if x.log.all p then some x.value else none) >>= fun a => if (f a).log.all p then some (f a).value else none
    rw [List.all_append]
    cases x.log.all p with
    | true => rw [Bool.true_and]; rfl
    | false => rfl

theorem checked_eq_some {p : ε → Bool} {x : Logged ε α} {a : α} :
    (checked p).app x = some a ↔ (∀ e ∈ x.log, p e = true) ∧ x.value = a := by
  rw [← List.all_eq_true]
  simp only [checked]
  cases x.log.all p <;> simp

theorem checked_eq_none {p : ε → Bool} {x : Logged ε α} :
    (checked p).app x = none ↔ ∃ e ∈ x.log, p e = false := by
  have hfalse : x.log.all p = false ↔ ∃ e ∈ x.log, p e = false := by simp
  rw [← hfalse]
  simp only [checked]
  cases x.log.all p <;> simp

end Logged

end Metalogos.Lib
