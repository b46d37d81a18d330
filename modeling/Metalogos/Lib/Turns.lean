import Mathlib.Data.List.InsertIdx
import Mathlib.Data.List.Nodup
import Mathlib.Data.List.Range

/-!
# A queue by rank

Entries wait in the order they came, and the one to go next is the first of the highest rank. `Turns` is such a queue
with its past: the entries are numbered as they come, and each number is pending or taken, once. A queue that only
holds the entries follows it (`Holds`): `firstBest` finds the place of the one to go next (`firstBest_spec`), and
its removal leaves the others in order (`Holds.take`).
-/
namespace Metalogos.Lib

variable {α : Type}

structure Turns (α : Type) where
  enqueued : List α
  pending : List Nat
  taken : List Nat
  ordered : pending.Pairwise (· < ·)
  each : (pending ++ taken).Perm (List.range enqueued.length)

namespace Turns

def empty : Turns α := ⟨[], [], [], .nil, .refl _⟩

theorem lt_of_pending (q : Turns α) {p : Nat} (h : p ∈ q.pending) : p < q.enqueued.length :=
  List.mem_range.1 (q.each.mem_iff.1 (List.mem_append_left _ h))

def put (q : Turns α) (a : α) : Turns α where
  enqueued := q.enqueued ++ [a]
  pending := q.pending ++ [q.enqueued.length]
  taken := q.taken
  ordered := List.pairwise_append.2 ⟨q.ordered, List.pairwise_singleton _ _, fun p hp n hn => by
    rw [List.mem_singleton.1 hn]
    exact q.lt_of_pending hp⟩
  each := by
    rw [List.length_append, List.length_singleton, List.range_succ, List.append_assoc]
    exact (List.perm_append_comm.append_left _).trans (by rw [← List.append_assoc]; exact q.each.append_right _)

def take (q : Turns α) (p : Nat) (h : p ∈ q.pending) : Turns α where
  enqueued := q.enqueued
  pending := q.pending.erase p
  taken := q.taken ++ [p]
  ordered := q.ordered.sublist (List.erase_sublist)
  each := by
    refine List.Perm.trans ?_ q.each
    have hcons : (p :: (q.pending.erase p ++ q.taken)).Perm (q.pending ++ q.taken) :=
      (List.perm_cons_erase h).symm.append_right q.taken
    rw [← List.append_assoc]
    exact List.perm_append_comm.trans hcons

/-- The pending entry to go next: none ranks above it, and those of its rank came after it. -/
structure Next (rank : α → Nat) (q : Turns α) (p : Nat) (a : α) : Prop where
  mem : p ∈ q.pending
  entry : q.enqueued[p]? = some a
  first : ∀ p' ∈ q.pending, ∀ a', q.enqueued[p']? = some a' → rank a' < rank a ∨ rank a' = rank a ∧ p ≤ p'

/-- A queue of the pending entries. -/
def Holds (q : Turns α) (l : List α) : Prop := l.map some = q.pending.map (q.enqueued[·]?)

/-- The queue was filled from the start. -/
def ofList (l : List α) : Turns α :=
  ⟨l, List.range l.length, [], List.pairwise_lt_range, by rw [List.append_nil]⟩

theorem holds_ofList (l : List α) : (ofList l).Holds l := by
  refine List.ext_getElem? fun i => ?_
  simp only [ofList, List.getElem?_map]
  by_cases hi : i < l.length
  · simp [hi]
  · simp [hi]

end Turns

/-! ## The first of the highest rank -/

/-- The place after a scan. -/
def firstBest (rank : α → Nat) (l : List α) : Nat :=
  l.zipIdx.foldl (fun best x => if (l[best]?).any (fun a => rank a < rank x.1) then x.2 else best) 0

/-- The best place among the first `n`. -/
structure BestBelow (rank : α → Nat) (l : List α) (n best : Nat) : Prop where
  le : best ≤ n
  entry : ∃ a, l[best]? = some a ∧ ∀ i < n, ∀ b, l[i]? = some b → rank b < rank a ∨ rank b = rank a ∧ best ≤ i

theorem bestBelow_scan {rank : α → Nat} {l : List α} : ∀ (post before : List α) (best : Nat), l = before ++ post →
    BestBelow rank l before.length best →
    BestBelow rank l l.length ((post.zipIdx before.length).foldl
      (fun best x => if (l[best]?).any (fun a => rank a < rank x.1) then x.2 else best) best) := by
  intro post
  induction post with
  | nil =>
    intro before best hl h
    rw [List.append_nil] at hl
    rw [hl] at h ⊢
    exact h
  | cons x post ih =>
    intro before best hl h
    obtain ⟨a, ha, hbest⟩ := h.entry
    have hx : l[before.length]? = some x := by simp [hl]
    have hnext : l = (before ++ [x]) ++ post := by simp [hl]
    have hlen : (before ++ [x]).length = before.length + 1 := by simp
    rw [List.zipIdx_cons, List.foldl_cons, ← hlen]
    refine ih _ _ hnext ?_
    rw [hlen, ha]
    by_cases hrank : rank a < rank x
    · rw [if_pos (by simpa using hrank)]
      refine ⟨Nat.le_succ _, x, hx, fun i hi b hb => ?_⟩
      rcases Nat.lt_succ_iff_lt_or_eq.1 hi with hlt | rfl
      · rcases hbest i hlt b hb with h | h <;> omega
      · rw [hx] at hb
        cases hb
        exact .inr ⟨rfl, Nat.le_refl _⟩
    · rw [if_neg (by simpa using hrank)]
      refine ⟨Nat.le_succ_of_le h.le, a, ha, fun i hi b hb => ?_⟩
      rcases Nat.lt_succ_iff_lt_or_eq.1 hi with hlt | rfl
      · exact hbest i hlt b hb
      · rw [hx] at hb
        cases hb
        have hle := h.le
        omega

theorem firstBest_spec (rank : α → Nat) {l : List α} (h : l ≠ []) : ∃ a, l[firstBest rank l]? = some a ∧
    ∀ i b, l[i]? = some b → rank b < rank a ∨ rank b = rank a ∧ firstBest rank l ≤ i := by
  obtain ⟨x, l', rfl⟩ := List.exists_cons_of_ne_nil h
  have hstart : BestBelow rank (x :: l') ([] : List α).length 0 :=
    ⟨Nat.le_refl _, x, rfl, fun i hi => absurd hi (Nat.not_lt_zero i)⟩
  obtain ⟨a, ha, hbest⟩ := (bestBelow_scan (x :: l') [] 0 rfl hstart).entry
  refine ⟨a, ha, fun i b hb => hbest i ?_ b hb⟩
  exact (List.getElem?_eq_some_iff.1 hb).1

namespace Turns

variable {rank : α → Nat} {q : Turns α} {l : List α}

theorem Holds.put (h : q.Holds l) (a : α) : (q.put a).Holds (l ++ [a]) := by
  unfold Holds Turns.put at *
  rw [List.map_append, List.map_append, h]
  congr 1
  · refine List.map_congr_left fun p hp => ?_
    rw [List.getElem?_append_left (q.lt_of_pending hp)]
  · simp

theorem Holds.nil_iff (h : q.Holds l) : l = [] ↔ q.pending = [] := by
  have hlen := congrArg List.length h
  rw [List.length_map, List.length_map] at hlen
  rw [← List.length_eq_zero_iff, hlen, List.length_eq_zero_iff]

/-- The entry at the place found is the one to go next, and without it the queue holds the others. -/
theorem Holds.take (h : q.Holds l) (hne : l ≠ []) : ∃ a p, l[firstBest rank l]? = some a ∧ q.Next rank p a ∧
    ∀ hp : p ∈ q.pending, (q.take p hp).Holds (l.eraseIdx (firstBest rank l)) := by
  obtain ⟨a, ha, hbest⟩ := firstBest_spec rank hne
  have hget : ∀ i : Nat, (l[i]?).map some = (q.pending[i]?).map (q.enqueued[·]?) := by
    intro i
    rw [← List.getElem?_map, ← List.getElem?_map, show l.map some = _ from h]
  generalize firstBest rank l = best at ha hbest ⊢
  obtain ⟨p, hp, hentry⟩ : ∃ p, q.pending[best]? = some p ∧ q.enqueued[p]? = some a := by
    have hbestGet := hget best
    rw [ha] at hbestGet
    obtain ⟨p, hp, hpa⟩ := Option.map_eq_some_iff.1 hbestGet.symm
    exact ⟨p, hp, hpa⟩
  obtain ⟨hlt, hpGet⟩ := List.getElem?_eq_some_iff.1 hp
  refine ⟨a, p, ha, ⟨List.mem_of_getElem? hp, hentry, fun p' hp' a' ha' => ?_⟩, fun hmem => ?_⟩
  · obtain ⟨i, hi⟩ := List.mem_iff_getElem?.1 hp'
    have hiGet := hget i
    rw [hi, Option.map_some, ha'] at hiGet
    obtain ⟨b, hb, hba⟩ := Option.map_eq_some_iff.1 hiGet
    cases hba
    rcases hbest i _ hb with hless | ⟨hsame, hle⟩
    · exact .inl hless
    · refine .inr ⟨hsame, ?_⟩
      obtain ⟨hilt, hiEq⟩ := List.getElem?_eq_some_iff.1 hi
      rcases Nat.lt_or_eq_of_le hle with hlt' | rfl
      · have hord := List.pairwise_iff_getElem.1 q.ordered best i hlt hilt hlt'
        rw [hpGet, hiEq] at hord
        exact Nat.le_of_lt hord
      · rw [← hpGet, ← hiEq]
  · have hnodup : q.pending.Nodup := q.ordered.imp Nat.ne_of_lt
    have hidx : q.pending.idxOf p = best := by
      rw [← hpGet]
      exact hnodup.idxOf_getElem best hlt
    unfold Holds Turns.take
    dsimp only
    rw [List.erase_eq_eraseIdx_of_idxOf hidx, ← List.eraseIdx_map, ← List.eraseIdx_map, show l.map some = _ from h]

end Turns

end Metalogos.Lib
