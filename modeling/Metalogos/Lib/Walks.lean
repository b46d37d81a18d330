import Mathlib.Algebra.Order.BigOperators.Group.Finset
import Mathlib.Data.List.Chain
import Mathlib.Data.Nat.Find
import Mathlib.Data.Set.Card
import Mathlib.Logic.Relation
import Metalogos.Lib.Bfs
import Metalogos.Lib.Dict
import Metalogos.Lib.Layers

/-!
# Walks and components

A search with unit costs leaves a map of scores; a walk from the goal that steps to a neighbour with a score one less
comes to the start, and read backwards it is a shortest way (`walkBack_spec`). A search over the nodes of one graph is
one over those of another that names them (`Renamed`).

A stack and the nodes visited: a node is taken from the stack, passed over if it was visited, else visited and those of
its neighbours that were not are pushed. A node may stand on the stack more than once, so not every round visits; there
are no more rounds than the start and the neighbours of all nodes together (`Draining.run`). Started at every node that
is left, the searches count the classes of the equivalence that the neighbours generate (`countFrom_spec`).
-/
namespace Metalogos.Lib

open Relation

section

variable {α : Type} {adj : α → α → Prop} {start : α}

theorem exists_within {v : α} : (∃ n, Within adj start n v) ↔ ReflTransGen adj start v := by
  constructor
  · rintro ⟨n, hn⟩
    induction n generalizing v with
    | zero =>
      obtain rfl : v = start := hn
      exact .refl
    | succ n ih =>
      rcases hn with hn | ⟨u, hu, hadj⟩
      · exact ih hn
      · exact (ih hu).tail hadj
  · intro h
    induction h with
    | refl => exact ⟨0, rfl⟩
    | tail _ hadj ih =>
      obtain ⟨n, hn⟩ := ih
      exact ⟨n + 1, .inr ⟨_, hn, hadj⟩⟩

theorem exists_distance {v : α} : (∃ n, Distance adj start n v) ↔ ReflTransGen adj start v := by
  rw [← exists_within]
  constructor
  · rintro ⟨n, hn, -⟩
    exact ⟨n, hn⟩
  · intro h
    classical
    exact ⟨Nat.find h, Nat.find_spec h, fun m hm => Nat.find_min h hm⟩

theorem Distance.unique {v : α} {m n : Nat} (hm : Distance adj start m v) (hn : Distance adj start n v) : m = n := by
  rcases Nat.lt_trichotomy m n with hlt | heq | hgt
  · exact absurd hm.1 (hn.2 m hlt)
  · exact heq
  · exact absurd hn.1 (hm.2 n hgt)

/-- What is not the start lies one step behind something nearer. -/
theorem Distance.pred {v : α} {n : Nat} (h : Distance adj start (n + 1) v) : ∃ u, Distance adj start n u ∧ adj u v := by
  rcases h.1 with hwithin | ⟨u, hu, hadj⟩
  · exact absurd hwithin (h.2 n (Nat.lt_succ_self n))
  · exact ⟨u, ⟨hu, fun m hm hwithin => h.2 (m + 1) (Nat.succ_lt_succ hm) (.inr ⟨u, hwithin, hadj⟩)⟩, hadj⟩

/-! ## Scores -/

/-- What a search with unit costs that stops at its goal leaves: the distance of the goal and of all that is nearer; what
else it has a score for is not farther than that. -/
structure Scored [DecidableEq α] (adj : α → α → Prop) (start goal : α) (scores : Dict α Nat) : Prop where
  reached : ∀ n, scores.get goal = some n ↔ Distance adj start n goal
  near : ∀ d n v, scores.get goal = some d → n < d → Distance adj start n v → scores.get v = some n
  way : ∀ v n, scores.get v = some n → Within adj start n v

/-- Steps back until the start is reached; `parents` lists what leads to a node, and no score is below that of the
start. -/
def walkBack [DecidableEq α] (parents : α → List α) (scores : Dict α Nat) (start : α) : Nat → α → List α → Option (List α)
  | 0, current, path => if current = start then some path else none
  | score + 1, current, path =>
    if current = start then some path
    else
      match (parents current).find? fun u => scores.get u = some score with
      | none => none
      | some u => walkBack parents scores start score u (path ++ [u])

/-- The walk back from a node finds the start in as many steps as its distance. -/
theorem walkBack_spec [DecidableEq α] {parents : α → List α} (hparents : ∀ u v, u ∈ parents v ↔ adj u v) {goal : α}
    {scores : Dict α Nat} (h : Scored adj start goal scores) {d : Nat} (hd : scores.get goal = some d) {score : Nat}
    (hle : score ≤ d) {current : α} (hcurrent : Distance adj start score current) (path : List α) :
    ∃ steps, walkBack parents scores start score current path = some (path ++ steps) ∧ steps.length = score ∧
      (current :: steps).IsChain (fun v u => adj u v) ∧ (current :: steps).getLast? = some start := by
  induction score generalizing current path with
  | zero =>
    obtain rfl : current = start := hcurrent.1
    exact ⟨[], by rw [walkBack, if_pos rfl, List.append_nil], rfl, List.isChain_singleton _, rfl⟩
  | succ score ih =>
    have hne : current ≠ start := by
      rintro rfl
      exact hcurrent.2 0 (Nat.succ_pos score) rfl
    rw [walkBack, if_neg hne]
    obtain ⟨u, hu, hadj⟩ := hcurrent.pred
    have hscore : scores.get u = some score := h.near d score u hd hle hu
    cases hfind : (parents current).find? fun u => scores.get u = some score with
    | none =>
      have hnot := List.find?_eq_none.1 hfind u ((hparents u current).2 hadj)
      exact absurd (decide_eq_true hscore) hnot
    | some p =>
      have hp : adj p current := (hparents p current).1 (List.mem_of_find?_eq_some hfind)
      have htest := List.find?_some hfind
      have hpscore : scores.get p = some score := of_decide_eq_true htest
      have hpdist : Distance adj start score p := by
        refine ⟨h.way p score hpscore, fun m hm hwithin => ?_⟩
        exact hcurrent.2 (m + 1) (Nat.succ_lt_succ hm) (.inr ⟨p, hwithin, hp⟩)
      obtain ⟨steps, hwalk, hlen, hchain, hlast⟩ := ih (Nat.le_of_succ_le hle) hpdist (path ++ [p])
      refine ⟨p :: steps, ?_, congrArg Nat.succ hlen, List.isChain_cons_cons.2 ⟨hp, hchain⟩, ?_⟩
      · simp only
        rw [hwalk, List.append_assoc, List.singleton_append]
      · rw [List.getLast?_cons_cons]
        exact hlast

/-! ## Names -/

/-- The nodes of one graph have the nodes of another as their names, and the edges go with them. -/
structure Renamed {ι κ : Type} (name : ι → Option κ) (A : ι → ι → Prop) (B : κ → κ → Prop) : Prop where
  inj : ∀ i j a, name i = some a → name j = some a → i = j
  forth : ∀ i j a, name i = some a → A i j → ∃ b, name j = some b ∧ B a b
  back : ∀ i a b, name i = some a → B a b → ∃ j, name j = some b ∧ A i j

namespace Renamed

variable {ι κ : Type} {name : ι → Option κ} {A : ι → ι → Prop} {B : κ → κ → Prop} {i j : ι} {a b : κ}

theorem within_forth (h : Renamed name A B) (hi : name i = some a) (n : Nat) {j : ι} (hj : Within A i n j) :
    ∃ b, name j = some b ∧ Within B a n b := by
  induction n generalizing j with
  | zero =>
    obtain rfl : j = i := hj
    exact ⟨a, hi, rfl⟩
  | succ n ih =>
    rcases hj with hj | ⟨u, hu, hadj⟩
    · obtain ⟨b, hb, hw⟩ := ih hj
      exact ⟨b, hb, .inl hw⟩
    · obtain ⟨c, hc, hw⟩ := ih hu
      obtain ⟨b, hb, hcb⟩ := h.forth u j c hc hadj
      exact ⟨b, hb, .inr ⟨c, hw, hcb⟩⟩

theorem within_back (h : Renamed name A B) (hi : name i = some a) (n : Nat) {b : κ} (hb : Within B a n b) :
    ∃ j, name j = some b ∧ Within A i n j := by
  induction n generalizing b with
  | zero =>
    obtain rfl : b = a := hb
    exact ⟨i, hi, rfl⟩
  | succ n ih =>
    rcases hb with hb | ⟨c, hc, hadj⟩
    · obtain ⟨j, hj, hw⟩ := ih hb
      exact ⟨j, hj, .inl hw⟩
    · obtain ⟨u, hu, hw⟩ := ih hc
      obtain ⟨j, hj, huj⟩ := h.back u c b hu hadj
      exact ⟨j, hj, .inr ⟨u, hw, huj⟩⟩

theorem within_iff (h : Renamed name A B) (hi : name i = some a) (hj : name j = some b) (n : Nat) :
    Within A i n j ↔ Within B a n b := by
  constructor
  · intro hw
    obtain ⟨b', hb', hw'⟩ := h.within_forth hi n hw
    obtain rfl : b = b' := Option.some.inj (hj.symm.trans hb')
    exact hw'
  · intro hw
    obtain ⟨j', hj', hw'⟩ := h.within_back hi n hw
    exact h.inj j' j b hj' hj ▸ hw'

theorem distance_iff (h : Renamed name A B) (hi : name i = some a) (hj : name j = some b) (n : Nat) :
    Distance A i n j ↔ Distance B a n b := by
  unfold Distance
  rw [h.within_iff hi hj n]
  refine and_congr_right fun _ => forall₂_congr fun m _ => ?_
  rw [h.within_iff hi hj m]

theorem reach_iff (h : Renamed name A B) (hi : name i = some a) (hj : name j = some b) :
    ReflTransGen A i j ↔ ReflTransGen B a b := by
  rw [← exists_within, ← exists_within]
  exact exists_congr fun n => h.within_iff hi hj n

end Renamed

end

/-! ## Components -/

section

variable {α : Type} [DecidableEq α]

/-- `none`: the stack is not empty after so many rounds. -/
def drain (adj : α → List α) : Nat → List α → List α → Option (List α)
  | _, visited, [] => some visited
  | 0, _, _ :: _ => none
  | n + 1, visited, x :: stack =>
    if x ∈ visited then drain adj n visited stack
    else drain adj n (visited ++ [x]) (((adj x).filter fun y => y ∉ visited ++ [x]).reverse ++ stack)

/-- The number of searches that are started. -/
def countFrom (adj : α → List α) (rounds : Nat) : List α → List α → Nat → Option Nat
  | [], _, components => some components
  | start :: starts, visited, components =>
    if start ∈ visited then countFrom adj rounds starts visited components
    else (drain adj rounds visited [start]).bind fun visited => countFrom adj rounds starts visited (components + 1)

variable {adj : α → List α} {before visited stack nodes : List α} {start x : α}

/-! ## One search -/

/-- What the loop keeps. -/
structure Draining (adj : α → List α) (before : List α) (start : α) (visited stack : List α) : Prop where
  kept : before ⊆ visited
  reach : ∀ x ∈ visited, x ∈ before ∨ ReflTransGen (Links adj) start x
  pending : ∀ x ∈ stack, ReflTransGen (Links adj) start x
  closed : ∀ x ∈ visited, ∀ y ∈ adj x, y ∈ visited ∨ y ∈ stack
  origin : start ∈ visited ∨ start ∈ stack

omit [DecidableEq α] in
theorem Draining.skip (h : Draining adj before start visited (x :: stack)) (hx : x ∈ visited) :
    Draining adj before start visited stack := by
  have hpop : ∀ y, y ∈ visited ∨ y ∈ x :: stack → y ∈ visited ∨ y ∈ stack := by
    rintro y (hy | hy)
    · exact .inl hy
    · rcases List.mem_cons.1 hy with rfl | hy
      · exact .inl hx
      · exact .inr hy
  exact ⟨h.kept, h.reach, fun y hy => h.pending y (List.mem_cons_of_mem _ hy), fun z hz y hy => hpop y (h.closed z hz y hy),
    hpop start h.origin⟩

theorem Draining.visit (h : Draining adj before start visited (x :: stack)) :
    Draining adj before start (visited ++ [x]) (((adj x).filter fun y => y ∉ visited ++ [x]).reverse ++ stack) := by
  have hreach : ReflTransGen (Links adj) start x := h.pending x List.mem_cons_self
  have hpop : ∀ y, y ∈ visited ∨ y ∈ x :: stack →
      y ∈ visited ++ [x] ∨ y ∈ ((adj x).filter fun y => y ∉ visited ++ [x]).reverse ++ stack := by
    rintro y (hy | hy)
    · exact .inl (List.mem_append_left _ hy)
    · rcases List.mem_cons.1 hy with rfl | hy
      · exact .inl (List.mem_append_right _ (List.mem_singleton_self y))
      · exact .inr (List.mem_append_right _ hy)
  constructor
  · exact List.Subset.trans h.kept (List.subset_append_left visited [x])
  · intro y hy
    rcases List.mem_append.1 hy with hy | hy
    · exact h.reach y hy
    · exact .inr (List.mem_singleton.1 hy ▸ hreach)
  · intro y hy
    rcases List.mem_append.1 hy with hy | hy
    · exact hreach.tail (List.mem_filter.1 (List.mem_reverse.1 hy)).1
    · exact h.pending y (List.mem_cons_of_mem _ hy)
  · intro z hz y hy
    rcases List.mem_append.1 hz with hz | hz
    · exact hpop y (h.closed z hz y hy)
    · obtain rfl := List.mem_singleton.1 hz
      by_cases hin : y ∈ visited ++ [z]
      · exact .inl hin
      · exact .inr (List.mem_append_left _ (List.mem_reverse.2 (List.mem_filter.2 ⟨hy, decide_eq_true hin⟩)))
  · exact hpop start h.origin

/-- The rounds that can be left: what is on the stack, and what can still be pushed. -/
def toDo (adj : α → List α) (nodes visited stack : List α) : Nat :=
  stack.length + ∑ y ∈ nodes.toFinset \ visited.toFinset, (adj y).length

theorem toDo_visit (hx : x ∈ nodes) (hnew : x ∉ visited) :
    toDo adj nodes (visited ++ [x]) (((adj x).filter fun y => y ∉ visited ++ [x]).reverse ++ stack) <
      toDo adj nodes visited (x :: stack) := by
  have herase : nodes.toFinset \ (visited ++ [x]).toFinset = (nodes.toFinset \ visited.toFinset).erase x := by
    ext y
    simp only [Finset.mem_sdiff, List.mem_toFinset, List.mem_append, List.mem_singleton, Finset.mem_erase, not_or]
    tauto
  have hmem : x ∈ nodes.toFinset \ visited.toFinset := by
    rw [Finset.mem_sdiff, List.mem_toFinset, List.mem_toFinset]
    exact ⟨hx, hnew⟩
  have hsum := Finset.add_sum_erase (nodes.toFinset \ visited.toFinset) (fun y => (adj y).length) hmem
  have hle : ((adj x).filter fun y => y ∉ visited ++ [x]).length ≤ (adj x).length := List.length_filter_le _ _
  unfold toDo
  rw [herase, List.length_append, List.length_reverse, List.length_cons]
  omega

theorem Draining.run (hnodes : ∀ x, ReflTransGen (Links adj) start x → x ∈ nodes)
    (h : Draining adj before start visited stack) {n : Nat} (hn : toDo adj nodes visited stack ≤ n) :
    ∃ visited', drain adj n visited stack = some visited' ∧ Draining adj before start visited' [] := by
  induction n generalizing visited stack with
  | zero =>
    cases stack with
    | nil => exact ⟨visited, rfl, h⟩
    | cons x stack =>
      rw [toDo, List.length_cons] at hn
      omega
  | succ n ih =>
    cases stack with
    | nil => exact ⟨visited, rfl, h⟩
    | cons x stack =>
      rw [drain]
      split_ifs with hx
      · refine ih (h.skip hx) ?_
        rw [toDo, List.length_cons] at hn
        rw [toDo]
        omega
      · have hlt : toDo adj nodes (visited ++ [x]) _ < toDo adj nodes visited (x :: stack) :=
          toDo_visit (hnodes x (h.pending x List.mem_cons_self)) hx
        exact ih h.visit (by omega)

/-! ## All searches -/

/-- What was visited is made of the classes of the nodes that searches started from. -/
structure Searched (adj : α → List α) (visited roots : List α) : Prop where
  covered : ∀ x, x ∈ visited ↔ ∃ r ∈ roots, EqvGen (Links adj) r x
  apart : roots.Pairwise fun r s => ¬EqvGen (Links adj) r s

omit [DecidableEq α] in
theorem searched_nil (adj : α → List α) : Searched adj [] [] := ⟨by simp, List.Pairwise.nil⟩

section

variable {roots : List α} (hsymm : ∀ x y, y ∈ adj x → x ∈ adj y)

include hsymm

omit [DecidableEq α] in
theorem eqvGen_links {x y : α} : EqvGen (Links adj) x y ↔ ReflTransGen (Links adj) x y := by
  have hlinks : Std.Symm (Links adj) := ⟨hsymm⟩
  rw [EqvGen.eqvGen_eq_reflTransGen]

omit [DecidableEq α] in
/-- A search that is through has added the class of its start. -/
theorem Searched.grow (h : Searched adj before roots) (hnew : start ∉ before)
    (hdone : Draining adj before start visited []) : Searched adj visited (roots ++ [start]) := by
  have hall : ∀ x, ReflTransGen (Links adj) start x → x ∈ visited := by
    intro x hx
    induction hx with
    | refl => exact hdone.origin.resolve_right List.not_mem_nil
    | tail _ hlink ih => exact (hdone.closed _ ih _ hlink).resolve_right List.not_mem_nil
  constructor
  · intro x
    constructor
    · intro hx
      rcases hdone.reach x hx with hx | hx
      · obtain ⟨r, hr, hrx⟩ := (h.covered x).1 hx
        exact ⟨r, List.mem_append_left _ hr, hrx⟩
      · exact ⟨start, by simp, (eqvGen_links hsymm).2 hx⟩
    · rintro ⟨r, hr, hrx⟩
      rcases List.mem_append.1 hr with hr | hr
      · exact hdone.kept ((h.covered x).2 ⟨r, hr, hrx⟩)
      · obtain rfl := List.mem_singleton.1 hr
        exact hall x ((eqvGen_links hsymm).1 hrx)
  · rw [List.pairwise_append]
    refine ⟨h.apart, List.pairwise_singleton _ _, fun r hr s hs => ?_⟩
    obtain rfl := List.mem_singleton.1 hs
    exact fun hrs => hnew ((h.covered s).2 ⟨r, hr, hrs⟩)

theorem countFrom_spec (hnodes : ∀ x ∈ nodes, adj x ⊆ nodes) {rounds : Nat}
    (hrounds : 1 + ∑ y ∈ nodes.toFinset, (adj y).length ≤ rounds) {starts : List α} (hstarts : starts ⊆ nodes)
    (h : Searched adj visited roots) : ∃ visited' roots', countFrom adj rounds starts visited roots.length =
      some roots'.length ∧ Searched adj visited' roots' ∧ visited ⊆ visited' ∧ starts ⊆ visited' ∧
        roots' ⊆ roots ++ starts := by
  induction starts generalizing visited roots with
  | nil => exact ⟨visited, roots, rfl, h, List.Subset.refl _, List.nil_subset _, List.subset_append_left _ _⟩
  | cons start starts ih =>
    rw [List.cons_subset] at hstarts
    rw [countFrom]
    split_ifs with hin
    · obtain ⟨visited', roots', hcount, hcounted, hkept, hcovered, hroots⟩ := ih hstarts.2 h
      refine ⟨visited', roots', hcount, hcounted, hkept, List.cons_subset.2 ⟨hkept hin, hcovered⟩, fun r hr => ?_⟩
      exact (List.mem_append.1 (hroots hr)).elim (List.mem_append_left _)
        fun hr => List.mem_append_right _ (List.mem_cons_of_mem _ hr)
    · have hinner : ∀ x, ReflTransGen (Links adj) start x → x ∈ nodes := by
        intro x hx
        induction hx with
        | refl => exact hstarts.1
        | tail _ hlink ih => exact hnodes _ ih hlink
      have hbegin : Draining adj visited start visited [start] := by
        refine ⟨List.Subset.refl _, fun x hx => .inl hx, fun x hx => ?_, fun x hx y hy => .inl ?_, by simp⟩
        · obtain rfl := List.mem_singleton.1 hx
          exact .refl
        · obtain ⟨r, hr, hrx⟩ := (h.covered x).1 hx
          exact (h.covered y).2 ⟨r, hr, hrx.trans _ _ _ (.rel _ _ hy)⟩
      have hbudget : toDo adj nodes visited [start] ≤ rounds := by
        have hle := Finset.sum_le_sum_of_subset (f := fun y => (adj y).length)
          (Finset.sdiff_subset (s := nodes.toFinset) (t := visited.toFinset))
        rw [toDo, List.length_singleton]
        omega
      obtain ⟨visited₁, hdrain, hdone⟩ := hbegin.run hinner hbudget
      have hgrown := h.grow hsymm hin hdone
      obtain ⟨visited', roots', hcount, hcounted, hkept, hcovered, hroots⟩ := ih hstarts.2 hgrown
      rw [List.length_append, List.length_singleton] at hcount
      rw [hdrain, Option.bind_some]
      refine ⟨visited', roots', hcount, hcounted, List.Subset.trans hdone.kept hkept, ?_, ?_⟩
      · exact List.cons_subset.2 ⟨hkept (hdone.origin.resolve_right List.not_mem_nil), hcovered⟩
      · rwa [List.append_assoc, List.singleton_append] at hroots

end

/-! ## Classes -/

omit [DecidableEq α] in
/-- A system of representatives has as many members as there are classes. -/
theorem ncard_classes {R : α → α → Prop} {roots : List α} {S : Set α} (hin : ∀ r ∈ roots, r ∈ S)
    (hall : ∀ x ∈ S, ∃ r ∈ roots, EqvGen R r x) (hapart : roots.Pairwise fun r s => ¬EqvGen R r s) :
    (Quot.mk R '' S).ncard = roots.length := by
  classical
  have hclasses : Quot.mk R '' S = ((roots.map (Quot.mk R)).toFinset : Set (Quot R)) := by
    ext q
    rw [Set.mem_image, Finset.mem_coe, List.mem_toFinset, List.mem_map]
    constructor
    · rintro ⟨x, hx, rfl⟩
      obtain ⟨r, hr, hrx⟩ := hall x hx
      exact ⟨r, hr, Quot.eqvGen_sound hrx⟩
    · rintro ⟨r, hr, rfl⟩
      exact ⟨r, hin r hr, rfl⟩
  have hnodup : (roots.map (Quot.mk R)).Nodup := by
    rw [List.Nodup, List.pairwise_map]
    exact hapart.imp fun hne heq => hne (Quot.eqvGen_exact heq)
  rw [hclasses, Set.ncard_coe_finset, List.toFinset_card_of_nodup hnodup, List.length_map]

end

end Metalogos.Lib
