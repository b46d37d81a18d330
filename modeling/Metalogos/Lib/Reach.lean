import Mathlib.Algebra.Order.BigOperators.Group.List
import Mathlib.Algebra.Order.Group.Nat
import Mathlib.Logic.Relation
import Mathlib.Algebra.GroupWithZero.Nat

/-!
# Reachability in forests

`Relation.ReflTransGen` over links that lead to nodes of smaller rank. `total_le_of_split` is the rule for
budgets handed down a forest: where every node keeps what it spends itself and what it hands to its
children within its own budget, a whole subtree spends no more than its root was given.
-/
namespace Metalogos.Lib

open Relation

variable {α : Type} {R : α → α → Prop} {kids : α → List α}

/-- What reaches a node is the node, or reaches one of its children. -/
theorem reach_cases {x y : α} (hkids : ∀ x p, R x p → x ∈ kids p) (h : ReflTransGen R x y) :
    x = y ∨ ∃ c ∈ kids y, ReflTransGen R x c := by
  cases h with
  | refl => exact .inl rfl
  | tail hx hs => exact .inr ⟨_, hkids _ _ hs, hx⟩

open Classical in
/-- How many of the listed nodes reach `y`. -/
noncomputable def reachCount (R : α → α → Prop) (us : List α) (y : α) : Nat :=
  us.countP fun u => ReflTransGen R u y

theorem reachCount_cons_le (u : α) (us : List α) (y : α) :
    reachCount R us y ≤ reachCount R (u :: us) y := by
  simp only [reachCount, List.countP_cons]
  omega

theorem reachCount_cons_of_reach {u y : α} (us : List α) (h : ReflTransGen R u y) :
    reachCount R (u :: us) y = reachCount R us y + 1 := by
  simp [reachCount, h]

variable [DecidableEq α]

/-- The count over a subtree is at most the node's own and those of its children's subtrees. -/
theorem reachCount_le (hkids : ∀ x p, R x p → x ∈ kids p) (us : List α) (y : α) :
    reachCount R us y ≤ us.count y + ((kids y).map (reachCount R us)).sum := by
  induction us with
  | nil => simp [reachCount]
  | cons u us ih =>
    have hmono : ((kids y).map (reachCount R us)).sum ≤ ((kids y).map (reachCount R (u :: us))).sum :=
      List.sum_le_sum fun c _ => reachCount_cons_le u us c
    by_cases h : ReflTransGen R u y
    · rw [reachCount_cons_of_reach us h]
      rcases reach_cases hkids h with rfl | ⟨c, hc, hreach⟩
      · rw [List.count_cons_self]
        omega
      · have hlt : ((kids y).map (reachCount R us)).sum < ((kids y).map (reachCount R (u :: us))).sum := by
          refine List.sum_lt_sum _ _ (fun c _ => reachCount_cons_le u us c) ⟨c, hc, ?_⟩
          rw [reachCount_cons_of_reach us hreach]
          exact Nat.lt_succ_self _
        have hcount := List.count_le_count_cons (a := y) (b := u) (l := us)
        omega
    · have heq : reachCount R (u :: us) y = reachCount R us y := by
        simp [reachCount, h]
      have hcount := List.count_le_count_cons (a := y) (b := u) (l := us)
      omega

/-- Budgets handed down a forest of bounded rank. `Good` marks the subtrees that have budgets. -/
theorem total_le_of_split {Good : α → Prop} {budget rank : α → Nat} {bound : Nat} {us : List α}
    (hkids : ∀ x p, R x p → x ∈ kids p) (hgood : ∀ p, Good p → ∀ c ∈ kids p, Good c)
    (hrank : ∀ p, ∀ c ∈ kids p, rank p < rank c) (hbound : ∀ p, Good p → rank p < bound)
    (hlaw : ∀ p, Good p → us.count p + ((kids p).map budget).sum ≤ budget p) (y : α) (hy : Good y) :
    reachCount R us y ≤ budget y := by
  -- on how far the rank of the root is below the bound
  induction hn : bound - rank y using Nat.strong_induction_on generalizing y with
  | _ n ih =>
    have hchild : ((kids y).map (reachCount R us)).sum ≤ ((kids y).map budget).sum := by
      refine List.sum_le_sum fun c hc => ih (bound - rank c) ?_ c (hgood y hy c hc) rfl
      have h₁ := hrank y c hc
      have h₂ := hbound y hy
      omega
    have hsplit := reachCount_le (R := R) hkids us y
    have hown := hlaw y hy
    omega

end Metalogos.Lib
