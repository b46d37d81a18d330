import Metalogos.Lib.Bfs
import Metalogos.Lib.Expanded

/-!
# Breadth-first search with distances

A queue of nodes with their depth, and a bound from which on a node is taken and not expanded. What was taken,
followed by what is queued, is what was visited. With as many rounds as there are nodes, the nodes taken are those at
a distance up to the bound, each once and with that distance (`mem_layers`, `nodup_layers`).
-/
namespace Metalogos.Lib

variable {α : Type} [DecidableEq α]

def expand (kids : α → List α) (bound : Nat) : Nat → List (α × Nat) → List (α × Nat) → List (α × Nat)
  | 0, taken, _ => taken
  | _ + 1, taken, [] => taken
  | n + 1, taken, (x, d) :: queue =>
    if bound ≤ d then expand kids bound n (taken ++ [(x, d)]) queue
    else
      let fresh := unseen ((taken ++ (x, d) :: queue).map Prod.fst) (kids x)
      expand kids bound n (taken ++ [(x, d)]) (queue ++ fresh.map fun k => (k, d + 1))

/-- The nodes with their depth, in the order they are taken. -/
def layers (kids : α → List α) (bound fuel : Nat) (start : α) : List (α × Nat) := expand kids bound fuel [] [(start, 0)]

/-- The distance: within `n` steps and not within fewer. -/
def Distance (adj : α → α → Prop) (start : α) (n : Nat) (v : α) : Prop :=
  Within adj start n v ∧ ∀ m < n, ¬ Within adj start m v

/-- What the loop keeps. The queue holds one depth, and after it the next. -/
structure Layered (kids : α → List α) (bound : Nat) (start : α) (taken queue : List (α × Nat)) : Prop where
  nodup : ((taken ++ queue).map Prod.fst).Nodup
  origin : (start, 0) ∈ taken ++ queue
  exact : ∀ p ∈ taken ++ queue, Distance (Links kids) start p.2 p.1
  bounded : ∀ p ∈ taken ++ queue, p.2 ≤ bound
  sorted : queue.Pairwise fun p q => p.2 ≤ q.2
  spread : ∀ p ∈ queue, ∀ q ∈ queue, q.2 ≤ p.2 + 1
  closed : ∀ p ∈ taken, p.2 < bound → ∀ k ∈ kids p.1, k ∈ (taken ++ queue).map Prod.fst

variable {kids : α → List α} {bound : Nat} {start : α} {taken queue : List (α × Nat)}

namespace Layered

omit [DecidableEq α] in
/-- What lies nearer than everything queued was visited, and what lies one step farther too. -/
theorem visited (h : Layered kids bound start taken queue) {d : Nat} (hqueue : ∀ p ∈ queue, d ≤ p.2) (hd : d ≤ bound) :
    ∀ k ≤ d, ∀ v, Within (Links kids) start k v → v ∈ (taken ++ queue).map Prod.fst := by
  intro k
  induction k with
  | zero =>
    intro _ v hv
    obtain rfl : v = start := hv
    exact List.mem_map_of_mem h.origin
  | succ k ih =>
    intro hk v hv
    rcases hv with hv | ⟨u, hu, hadj⟩
    · exact ih (by omega) v hv
    · obtain ⟨p, hp, rfl⟩ := List.mem_map.1 (ih (by omega) u hu)
      have hpk : p.2 ≤ k := by
        by_contra hgt
        exact (h.exact p hp).2 k (by omega) hu
      rcases List.mem_append.1 hp with hp | hp
      · exact h.closed p hp (by omega) v hadj
      · have hdp := hqueue p hp
        omega

omit [DecidableEq α] in
theorem start_only (kids : α → List α) (bound : Nat) (start : α) : Layered kids bound start [] [(start, 0)] := by
  refine ⟨by simp, by simp, ?_, by simp, by simp, by simp, by simp⟩
  intro p hp
  obtain rfl : p = (start, 0) := by simpa using hp
  refine ⟨rfl, fun m hm => ?_⟩
  omega

variable {x : α} {d : Nat}

omit [DecidableEq α] in
theorem skip (h : Layered kids bound start taken ((x, d) :: queue)) (hd : bound ≤ d) :
    Layered kids bound start (taken ++ [(x, d)]) queue := by
  have hsplit : (taken ++ [(x, d)]) ++ queue = taken ++ (x, d) :: queue := by simp
  refine ⟨hsplit ▸ h.nodup, hsplit ▸ h.origin, hsplit ▸ h.exact, hsplit ▸ h.bounded, (List.pairwise_cons.1 h.sorted).2,
    fun p hp q hq => h.spread p (List.mem_cons_of_mem _ hp) q (List.mem_cons_of_mem _ hq), fun p hp hlt => ?_⟩
  rw [hsplit]
  rcases List.mem_append.1 hp with hp | hp
  · exact h.closed p hp hlt
  · obtain rfl : p = (x, d) := by simpa using hp
    exact absurd hd (Nat.not_le.2 hlt)

theorem round (h : Layered kids bound start taken ((x, d) :: queue)) (hd : d < bound) :
    Layered kids bound start (taken ++ [(x, d)])
      (queue ++ (unseen ((taken ++ (x, d) :: queue).map Prod.fst) (kids x)).map fun k => (k, d + 1)) := by
  have hhead : ∀ p ∈ (x, d) :: queue, d ≤ p.2 := by
    intro p hp
    rcases List.mem_cons.1 hp with rfl | hp
    · exact Nat.le_refl _
    · exact (List.pairwise_cons.1 h.sorted).1 p hp
  have hvisited := h.visited hhead (Nat.le_of_lt hd)
  have hx : Distance (Links kids) start d x := h.exact (x, d) (by simp)
  have hnext : ∀ p ∈ queue, p.2 ≤ d + 1 := fun p hp => h.spread (x, d) List.mem_cons_self p (List.mem_cons_of_mem _ hp)
  generalize hfresh : unseen ((taken ++ (x, d) :: queue).map Prod.fst) (kids x) = fresh
  have hsplit : (taken ++ [(x, d)]) ++ (queue ++ fresh.map fun k => (k, d + 1)) =
      (taken ++ (x, d) :: queue) ++ fresh.map fun k => (k, d + 1) := by simp
  have hmem : ∀ k, k ∈ fresh ↔ k ∈ kids x ∧ k ∉ (taken ++ (x, d) :: queue).map Prod.fst := by
    intro k
    rw [← hfresh, mem_unseen]
  have hkeys : (fresh.map fun k => (k, d + 1)).map Prod.fst = fresh := by
    rw [List.map_map]
    exact List.map_id fresh
  constructor
  · rw [hsplit, List.map_append, hkeys, ← hfresh]
    exact nodup_unseen _ h.nodup
  · rw [hsplit]
    exact List.mem_append_left _ h.origin
  · intro p hp
    rw [hsplit] at hp
    rcases List.mem_append.1 hp with hp | hp
    · exact h.exact p hp
    · obtain ⟨k, hk, rfl⟩ := List.mem_map.1 hp
      obtain ⟨hkid, hnew⟩ := (hmem k).1 hk
      refine ⟨.inr ⟨x, hx.1, hkid⟩, fun m hm hwithin => hnew ?_⟩
      exact hvisited m (by omega) k hwithin
  · intro p hp
    rw [hsplit] at hp
    rcases List.mem_append.1 hp with hp | hp
    · exact h.bounded p hp
    · obtain ⟨k, -, rfl⟩ := List.mem_map.1 hp
      exact hd
  · rw [List.pairwise_append]
    refine ⟨(List.pairwise_cons.1 h.sorted).2, ?_, fun p hp q hq => ?_⟩
    · rw [List.pairwise_map]
      exact List.pairwise_of_forall fun _ _ => Nat.le_refl _
    · obtain ⟨k, -, rfl⟩ := List.mem_map.1 hq
      exact hnext p hp
  · have hrange : ∀ p ∈ queue ++ fresh.map (fun k => (k, d + 1)), d ≤ p.2 ∧ p.2 ≤ d + 1 := by
      intro p hp
      rcases List.mem_append.1 hp with hp | hp
      · exact ⟨hhead p (List.mem_cons_of_mem _ hp), hnext p hp⟩
      · obtain ⟨k, -, rfl⟩ := List.mem_map.1 hp
        exact ⟨Nat.le_succ d, Nat.le_refl _⟩
    intro p hp q hq
    have hp' := hrange p hp
    have hq' := hrange q hq
    omega
  · intro p hp hlt k hk
    rw [hsplit, List.map_append, List.mem_append, hkeys]
    rcases List.mem_append.1 hp with hp | hp
    · exact .inl (h.closed p hp hlt k hk)
    · obtain rfl : p = (x, d) := by simpa using hp
      by_cases hseen : k ∈ (taken ++ (x, d) :: queue).map Prod.fst
      · exact .inl hseen
      · exact .inr ((hmem k).2 ⟨hk, hseen⟩)

end Layered

/-- The loop ends with an empty queue if the budget covers the nodes not taken yet. -/
theorem expand_spec {nodes : List α} (huniv : ∀ n v, Within (Links kids) start n v → v ∈ nodes) (n : Nat) :
    ∀ taken queue : List (α × Nat), Layered kids bound start taken queue → nodes.length ≤ n + taken.length →
      Layered kids bound start (expand kids bound n taken queue) [] := by
  induction n with
  | zero =>
    intro taken queue h hn
    have hlen : ((taken ++ queue).map Prod.fst).length ≤ nodes.length := by
      refine (List.subperm_of_subset h.nodup fun v hv => ?_).length_le
      obtain ⟨p, hp, rfl⟩ := List.mem_map.1 hv
      exact huniv p.2 p.1 (h.exact p hp).1
    rw [List.length_map, List.length_append] at hlen
    have hnil : queue = [] := List.eq_nil_of_length_eq_zero (by omega)
    subst hnil
    exact h
  | succ n ih =>
    intro taken queue h hn
    cases queue with
    | nil => exact h
    | cons p queue =>
      obtain ⟨x, d⟩ := p
      unfold expand
      have hlen : (taken ++ [(x, d)]).length = taken.length + 1 := by simp
      by_cases hd : bound ≤ d
      · rw [if_pos hd]
        exact ih _ _ (h.skip hd) (by omega)
      · rw [if_neg hd]
        exact ih _ _ (h.round (by omega)) (by omega)

section

variable {nodes : List α} (huniv : ∀ n v, Within (Links kids) start n v → v ∈ nodes) {fuel : Nat}
  (hfuel : nodes.length ≤ fuel)

include huniv hfuel

theorem layers_spec : Layered kids bound start (layers kids bound fuel start) [] :=
  expand_spec huniv fuel [] _ (Layered.start_only kids bound start) (by simpa using hfuel)

theorem mem_layers {v : α} {n : Nat} :
    (v, n) ∈ layers kids bound fuel start ↔ n ≤ bound ∧ Distance (Links kids) start n v := by
  have h : Layered kids bound start (layers kids bound fuel start) [] := layers_spec huniv hfuel
  constructor
  · intro hmem
    have hmem' : (v, n) ∈ layers kids bound fuel start ++ [] := by simpa using hmem
    exact ⟨h.bounded _ hmem', h.exact _ hmem'⟩
  · rintro ⟨hn, hdist⟩
    have hin := h.visited (fun p hp => by cases hp) (Nat.le_refl bound) n hn v hdist.1
    obtain ⟨p, hp, rfl⟩ := List.mem_map.1 hin
    have hexact := h.exact p hp
    have hpn : p.2 = n := by
      rcases Nat.lt_trichotomy p.2 n with hlt | heq | hgt
      · exact absurd hexact.1 (hdist.2 _ hlt)
      · exact heq
      · exact absurd hdist.1 (hexact.2 _ hgt)
    rw [List.append_nil] at hp
    rw [← hpn]
    exact hp

theorem nodup_layers : ((layers kids bound fuel start).map Prod.fst).Nodup := by
  have h : Layered kids bound start (layers kids bound fuel start) [] := layers_spec huniv hfuel
  simpa using h.nodup

end

end Metalogos.Lib
