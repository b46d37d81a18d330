import Mathlib.Logic.Relation
import Mathlib.Data.List.Nodup

/-!
# Dependency order

A list with the latest element first, in which everything an element needs comes before it: the post-order of
a depth-first search. Such a list is closed under what its elements reach, and an element that it has once
does not reach itself (`Settled.acyclic`). The path of the search is the other half: `Leads` says that every
element on it reaches the node at hand, so a node that is on its own path reaches itself.
-/
namespace Metalogos.Lib

open Relation

variable {α : Type} {R : α → α → Prop}

/-- Everything that an element needs comes before it. -/
def Settled (R : α → α → Prop) : List α → Prop
  | [] => True
  | x :: l => (∀ y, R x y → y ∈ l) ∧ Settled R l

theorem Settled.closed {l : List α} (h : Settled R l) {x y : α} (hx : x ∈ l) (hxy : R x y) : y ∈ l := by
  induction l with
  | nil => cases hx
  | cons a l ih =>
    rcases List.mem_cons.1 hx with rfl | hx
    · exact List.mem_cons_of_mem _ (h.1 y hxy)
    · exact List.mem_cons_of_mem _ (ih h.2 hx)

theorem Settled.reach {l : List α} (h : Settled R l) {x y : α} (hx : x ∈ l) (hxy : ReflTransGen R x y) :
    y ∈ l := by
  induction hxy with
  | refl => exact hx
  | tail _ hs ih => exact h.closed ih hs

theorem Settled.acyclic {l : List α} (h : Settled R l) (hnodup : l.Nodup) {x : α} (hx : x ∈ l) :
    ¬ TransGen R x x := by
  induction l with
  | nil => cases hx
  | cons a l ih =>
    rcases List.mem_cons.1 hx with rfl | hx
    · intro hcycle
      obtain ⟨y, hy, hback⟩ := TransGen.head'_iff.1 hcycle
      exact (List.nodup_cons.1 hnodup).1 (h.2.reach (h.1 y hy) hback)
    · exact ih h.2 (List.nodup_cons.1 hnodup).2 hx

/-- Every element of the path reaches `x`. -/
def Leads (R : α → α → Prop) (path : List α) (x : α) : Prop := ∀ y ∈ path, TransGen R y x

theorem leads_nil (x : α) : Leads R [] x := fun _ hy => nomatch hy

theorem Leads.step {path : List α} {x y : α} (h : Leads R path x) (hxy : R x y) : Leads R (path ++ [x]) y := by
  intro z hz
  rcases List.mem_append.1 hz with hz | hz
  · exact (h z hz).tail hxy
  · obtain rfl := List.mem_singleton.1 hz
    exact .single hxy

end Metalogos.Lib
