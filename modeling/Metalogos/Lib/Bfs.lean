import Mathlib.Data.List.Nodup
import Mathlib.Data.List.Perm.Subperm
import Mathlib.Logic.Relation

/-!
# Breadth-first search

A queue and the set of nodes seen, as a worklist loop writes it: a node is taken from the front of the
queue and its unseen children are put at the back. What was taken, followed by what is queued, is what was
seen, so one list holds all three. The loop has a budget of rounds; a budget of as many rounds as there are
nodes is enough, and then the nodes taken are those reachable from the start, each once (`mem_bfs`,
`nodup_bfs`).
-/
namespace Metalogos.Lib

open Relation

variable {α : Type} [DecidableEq α]

/-- The children that were not seen, each once. -/
def unseen (seen : List α) : List α → List α
  | [] => []
  | k :: ks => if k ∈ seen then unseen seen ks else k :: unseen (seen ++ [k]) ks

def visit (kids : α → List α) : Nat → List α → List α → List α
  | 0, taken, _ => taken
  | _ + 1, taken, [] => taken
  | n + 1, taken, x :: queue =>
    visit kids n (taken ++ [x]) (queue ++ unseen (taken ++ x :: queue) (kids x))

/-- The nodes in the order they are taken. -/
def bfs (kids : α → List α) (fuel : Nat) (start : α) : List α := visit kids fuel [] [start]

/-- One link of the search. -/
def Links (kids : α → List α) (x y : α) : Prop := y ∈ kids x

theorem mem_unseen {seen ks : List α} {k : α} : k ∈ unseen seen ks ↔ k ∈ ks ∧ k ∉ seen := by
  induction ks generalizing seen with
  | nil => simp [unseen]
  | cons a ks ih =>
    unfold unseen
    by_cases ha : a ∈ seen
    · rw [if_pos ha, ih, List.mem_cons]
      constructor
      · rintro ⟨hk, hn⟩
        exact ⟨.inr hk, hn⟩
      · rintro ⟨rfl | hk, hn⟩
        · exact absurd ha hn
        · exact ⟨hk, hn⟩
    · rw [if_neg ha, List.mem_cons, ih, List.mem_cons]
      by_cases hka : k = a
      · simp [hka, ha]
      · simp [hka]

theorem nodup_unseen {seen : List α} (ks : List α) (h : seen.Nodup) : (seen ++ unseen seen ks).Nodup := by
  induction ks generalizing seen with
  | nil => simpa [unseen] using h
  | cons a ks ih =>
    unfold unseen
    by_cases ha : a ∈ seen
    · rw [if_pos ha]
      exact ih h
    · rw [if_neg ha]
      have hsnoc : (seen ++ [a]).Nodup := by
        refine List.nodup_append.2 ⟨h, List.nodup_singleton a, ?_⟩
        rintro x hx y hy rfl
        obtain rfl : x = a := by simpa using hy
        exact ha hx
      have hcons := ih hsnoc
      simpa [List.append_assoc] using hcons

variable {kids : α → List α}

/-- What the loop keeps: the nodes seen are distinct and reachable, and the children of those taken are
among them. -/
structure Searching (kids : α → List α) (start : α) (taken queue : List α) : Prop where
  nodup : (taken ++ queue).Nodup
  mem_start : start ∈ taken ++ queue
  reach : ∀ x ∈ taken ++ queue, ReflTransGen (Links kids) start x
  closed : ∀ x ∈ taken, ∀ k ∈ kids x, k ∈ taken ++ queue

theorem Searching.round {start x : α} {taken queue : List α} (h : Searching kids start taken (x :: queue)) :
    Searching kids start (taken ++ [x]) (queue ++ unseen (taken ++ x :: queue) (kids x)) := by
  have hsplit : (taken ++ [x]) ++ (queue ++ unseen (taken ++ x :: queue) (kids x)) =
      (taken ++ x :: queue) ++ unseen (taken ++ x :: queue) (kids x) := by simp
  constructor
  · rw [hsplit]
    exact nodup_unseen _ h.nodup
  · rw [hsplit]
    exact List.mem_append_left _ h.mem_start
  · intro y hy
    rw [hsplit, List.mem_append] at hy
    rcases hy with hy | hy
    · exact h.reach y hy
    · exact .tail (h.reach x (by simp)) (mem_unseen.1 hy).1
  · intro y hy k hk
    rw [hsplit, List.mem_append]
    rcases List.mem_append.1 hy with hy | hy
    · exact .inl (h.closed y hy k hk)
    · obtain rfl : y = x := by simpa using hy
      by_cases hseen : k ∈ taken ++ y :: queue
      · exact .inl hseen
      · exact .inr (mem_unseen.2 ⟨hk, hseen⟩)

/-- The loop ends with an empty queue if the budget covers the nodes not taken yet. -/
theorem visit_spec {start : α} {nodes : List α} (huniv : ∀ x, ReflTransGen (Links kids) start x → x ∈ nodes)
    (n : Nat) {taken queue : List α} (h : Searching kids start taken queue)
    (hn : nodes.length ≤ n + taken.length) : Searching kids start (visit kids n taken queue) [] := by
  induction n generalizing taken queue with
  | zero =>
    -- every node is taken, so nothing is left to queue
    have hlen : (taken ++ queue).length ≤ nodes.length :=
      (List.subperm_of_subset h.nodup fun x hx => huniv x (h.reach x hx)).length_le
    rw [List.length_append] at hlen
    have hnil : queue = [] := List.eq_nil_of_length_eq_zero (by omega)
    subst hnil
    exact h
  | succ n ih =>
    cases queue with
    | nil => exact h
    | cons x queue =>
      refine ih h.round ?_
      rw [List.length_append, List.length_singleton]
      omega

theorem bfs_searching {start : α} {nodes : List α}
    (huniv : ∀ x, ReflTransGen (Links kids) start x → x ∈ nodes) {fuel : Nat}
    (hfuel : nodes.length ≤ fuel) : Searching kids start (bfs kids fuel start) [] := by
  refine visit_spec huniv fuel ⟨by simp, by simp, ?_, by simp⟩ (by simpa using hfuel)
  intro x hx
  obtain rfl : x = start := by simpa using hx
  exact .refl

variable {start : α} {nodes : List α} {fuel : Nat}

theorem mem_bfs (huniv : ∀ x, ReflTransGen (Links kids) start x → x ∈ nodes)
    (hfuel : nodes.length ≤ fuel) {x : α} :
    x ∈ bfs kids fuel start ↔ ReflTransGen (Links kids) start x := by
  have h := bfs_searching huniv hfuel
  constructor
  · intro hx
    exact h.reach x (by simpa using hx)
  · intro hx
    induction hx with
    | refl => simpa using h.mem_start
    | tail _ hs ih => simpa using h.closed _ ih _ hs

theorem nodup_bfs (huniv : ∀ x, ReflTransGen (Links kids) start x → x ∈ nodes)
    (hfuel : nodes.length ≤ fuel) : (bfs kids fuel start).Nodup := by
  simpa using (bfs_searching huniv hfuel).nodup

end Metalogos.Lib
