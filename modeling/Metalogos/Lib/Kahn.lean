import Mathlib.Data.Fintype.Card
import Mathlib.Data.List.Perm.Subperm
import Mathlib.Data.Set.Finite.List
import Metalogos.Lib.DependencyOrder

/-!
# Kahn's algorithm

Elements with lists of needs are done one after the other, once nothing is missing: `missing` counts down from the
length of the list, so an element that lists a need twice is never done (`missing_eq_zero`). Whatever order they are
done in, all of them are done exactly when no list repeats a need and there is no cycle (`Done.covers_iff`). Done in
rounds, the elements of a round are those with a longest chain of needs of its number (`mem_rounds`).
-/
namespace Metalogos.Lib

open Relation

variable {α : Type} (needs : α → List α)

def Needs (x y : α) : Prop := y ∈ needs x

/-- There is a chain of needs of this length below `x`. -/
def HasChain : Nat → α → Prop
  | 0, _ => True
  | k + 1, x => ∃ y ∈ needs x, HasChain k y

variable {needs} in
theorem HasChain.pred {k : Nat} {x : α} (h : HasChain needs (k + 1) x) : HasChain needs k x := by
  induction k generalizing x with
  | zero => trivial
  | succ k ih =>
    obtain ⟨y, hy, hchain⟩ := h
    exact ⟨y, hy, ih hchain⟩

variable [DecidableEq α]

/-- The needs of `x` not met by `done`. -/
def missing (done : List α) (x : α) : Nat := (needs x).length - done.countP (· ∈ needs x)

/-- What can be done in the next round. -/
def ready (ids done : List α) : List α := ids.filter fun x => x ∉ done ∧ missing needs done x = 0

def kahnRounds (ids : List α) : Nat → List α → List (List α)
  | 0, _ => []
  | n + 1, done =>
    let round := ready needs ids done
    if round = [] then [] else round :: kahnRounds ids n (done ++ round)

variable {needs} {ids done : List α} {x : α}

theorem missing_concat (done : List α) (y x : α) :
    missing needs (done ++ [y]) x = missing needs done x - if y ∈ needs x then 1 else 0 := by
  rw [missing, missing, List.countP_append, Nat.sub_add_eq, List.countP_singleton]
  simp only [decide_eq_true_eq]

theorem missing_eq_zero (hdone : done.Nodup) : missing needs done x = 0 ↔ (needs x).Nodup ∧ needs x ⊆ done := by
  have hfilter : (done.filter (· ∈ needs x)).Nodup := hdone.filter _
  have hsub : done.filter (· ∈ needs x) ⊆ needs x := fun y hy => of_decide_eq_true (List.mem_filter.1 hy).2
  rw [missing, List.countP_eq_length_filter]
  constructor
  · intro h
    have hperm := (List.subperm_of_subset hfilter hsub).perm_of_length_le (by omega)
    exact ⟨hperm.nodup_iff.1 hfilter, fun y hy => (List.mem_filter.1 (hperm.mem_iff.2 hy)).1⟩
  · rintro ⟨hnodup, hmet⟩
    have hin : needs x ⊆ done.filter (· ∈ needs x) := fun y hy =>
      List.mem_filter.2 ⟨hmet hy, decide_eq_true hy⟩
    have hle := (List.subperm_of_subset hnodup hin).length_le
    omega

/-! ## What is done -/

/-- What is done one after the other, each with nothing missing. -/
structure Done (needs : α → List α) (ids done : List α) : Prop where
  nodup : done.Nodup
  known : done ⊆ ids
  settled : Settled (Needs needs) done.reverse
  plain : ∀ x ∈ done, (needs x).Nodup

omit [DecidableEq α] in
theorem done_nil (needs : α → List α) (ids : List α) : Done needs ids [] := ⟨List.nodup_nil, List.nil_subset _, trivial, by simp⟩

theorem Done.concat (h : Done needs ids done) (hx : x ∈ ids) (hnew : x ∉ done) (hready : missing needs done x = 0) :
    Done needs ids (done ++ [x]) := by
  obtain ⟨hplain, hmet⟩ := (missing_eq_zero h.nodup).1 hready
  refine ⟨List.concat_eq_append ▸ h.nodup.concat hnew, ?_, ?_, ?_⟩
  · exact List.append_subset.2 ⟨h.known, by simpa using hx⟩
  · rw [List.reverse_append, List.reverse_singleton]
    exact ⟨fun y hy => List.mem_reverse.2 (hmet hy), h.settled⟩
  · intro y hy
    rcases List.mem_append.1 hy with hy | hy
    · exact h.plain y hy
    · rwa [List.mem_singleton.1 hy]

theorem Done.append (h : Done needs ids done) {round : List α} (hnodup : round.Nodup)
    (hround : ∀ x ∈ round, x ∈ ids ∧ x ∉ done ∧ missing needs done x = 0) : Done needs ids (done ++ round) := by
  induction round generalizing done with
  | nil => rwa [List.append_nil]
  | cons x round ih =>
    obtain ⟨hx, hnew, hready⟩ := hround x List.mem_cons_self
    rw [List.nodup_cons] at hnodup
    have hone := h.concat hx hnew hready
    rw [List.append_cons]
    refine ih hone hnodup.2 fun y hy => ?_
    obtain ⟨hyids, hynew, hyready⟩ := hround y (List.mem_cons_of_mem _ hy)
    refine ⟨hyids, ?_, by rw [missing_concat, hyready, Nat.zero_sub]⟩
    rw [List.mem_append, List.mem_singleton]
    rintro (hy' | rfl)
    · exact hynew hy'
    · exact hnodup.1 hy

/-- Where nothing is left to do, everything is done that has no cycle above it. -/
theorem Done.all (h : Done needs ids done) (hknown : ∀ x ∈ ids, needs x ⊆ ids)
    (hplain : ∀ x ∈ ids, (needs x).Nodup) (hacyclic : ∀ x ∈ ids, ¬TransGen (Needs needs) x x)
    (hstop : ∀ x ∈ ids, missing needs done x = 0 → x ∈ done) : ids ⊆ done := by
  let below : {x // x ∈ ids} → {x // x ∈ ids} → Prop := fun a b => TransGen (Needs needs) b.1 a.1
  have hfinite : Finite {x // x ∈ ids} := ids.finite_toSet
  have htrans : IsTrans _ below := ⟨fun _ _ _ hab hbc => hbc.trans hab⟩
  have hirrefl : Std.Irrefl below := ⟨fun a => hacyclic a.1 a.2⟩
  have hall : ∀ a : {x // x ∈ ids}, a.1 ∈ done := fun a => by
    refine (Finite.wellFounded_of_trans_of_irrefl below).induction (C := fun a => a.1 ∈ done) a ?_
    intro a ih
    refine hstop a.1 a.2 ((missing_eq_zero h.nodup).2 ⟨hplain _ a.2, fun y hy => ?_⟩)
    exact ih ⟨y, hknown _ a.2 hy⟩ (.single hy)
  exact fun x hx => hall ⟨x, hx⟩

theorem Done.covers_iff (h : Done needs ids done) (hids : ids.Nodup) (hknown : ∀ x ∈ ids, needs x ⊆ ids)
    (hstop : ∀ x ∈ ids, missing needs done x = 0 → x ∈ done) :
    done.length = ids.length ↔ (∀ x ∈ ids, (needs x).Nodup) ∧ ∀ x ∈ ids, ¬TransGen (Needs needs) x x := by
  have hle := List.subperm_of_subset h.nodup h.known
  constructor
  · intro hlen
    have hperm := hle.perm_of_length_le (Nat.le_of_eq hlen.symm)
    refine ⟨fun x hx => h.plain x (hperm.mem_iff.2 hx), fun x hx => ?_⟩
    exact h.settled.acyclic (List.nodup_reverse.2 h.nodup) (List.mem_reverse.2 (hperm.mem_iff.2 hx))
  · rintro ⟨hplain, hacyclic⟩
    have hall := h.all hknown hplain hacyclic hstop
    exact Nat.le_antisymm hle.length_le (List.subperm_of_subset hids hall).length_le

omit [DecidableEq α] in
theorem Settled.split {R : α → α → Prop} {before after : List α} {x y : α} (h : Settled R (after ++ x :: before))
    (hxy : R x y) : y ∈ before := by
  induction after with
  | nil => exact h.1 y hxy
  | cons z after ih => exact ih h.2

omit [DecidableEq α] in
theorem Done.before (h : Done needs ids done) {before after : List α} (hdone : done = before ++ x :: after) :
    needs x ⊆ before := by
  have hsettled := h.settled
  rw [hdone, List.reverse_append, List.reverse_cons, List.append_assoc] at hsettled
  exact fun y hy => List.mem_reverse.1 (Settled.split hsettled hy)

/-! ## Rounds -/

theorem mem_ready : x ∈ ready needs ids done ↔ x ∈ ids ∧ x ∉ done ∧ missing needs done x = 0 := by
  rw [ready, List.mem_filter, decide_eq_true_eq]

theorem Done.ready (h : Done needs ids done) (hids : ids.Nodup) : Done needs ids (done ++ ready needs ids done) :=
  h.append (hids.filter _) fun _ hx => mem_ready.1 hx

theorem done_rounds (hids : ids.Nodup) (n : Nat) (h : Done needs ids done) :
    Done needs ids (done ++ (kahnRounds needs ids n done).flatten) := by
  induction n generalizing done with
  | zero => rwa [kahnRounds, List.flatten_nil, List.append_nil]
  | succ n ih =>
    rw [kahnRounds]
    split_ifs with hround
    · rwa [List.flatten_nil, List.append_nil]
    · rw [List.flatten_cons, ← List.append_assoc]
      exact ih (h.ready hids)

/-- As many rounds as there are elements are enough. -/
theorem rounds_stop (hids : ids.Nodup) {n : Nat} (h : Done needs ids done) (hn : ids.length ≤ n + done.length) :
    ∀ x ∈ ids, missing needs (done ++ (kahnRounds needs ids n done).flatten) x = 0 →
      x ∈ done ++ (kahnRounds needs ids n done).flatten := by
  induction n generalizing done with
  | zero =>
    intro x hx _
    have hperm := (List.subperm_of_subset h.nodup h.known).perm_of_length_le (by omega)
    exact List.mem_append_left _ (hperm.mem_iff.2 hx)
  | succ n ih =>
    rw [kahnRounds]
    split_ifs with hround
    · intro x hx hready
      rw [List.flatten_nil, List.append_nil] at hready ⊢
      by_contra hnew
      exact List.ne_nil_of_mem (mem_ready.2 ⟨hx, hnew, hready⟩) hround
    · rw [List.flatten_cons, ← List.append_assoc]
      refine ih (h.ready hids) ?_
      have hpos := List.length_pos_iff.2 hround
      rw [List.length_append]
      omega

theorem Done.missing_iff (h : Done needs ids done) (hknown : ∀ x ∈ ids, needs x ⊆ ids)
    (hplain : ∀ x ∈ ids, (needs x).Nodup) {k : Nat} (hdone : ∀ x ∈ ids, x ∈ done ↔ ¬HasChain needs k x)
    (hx : x ∈ ids) : missing needs done x = 0 ↔ ¬HasChain needs (k + 1) x := by
  rw [missing_eq_zero h.nodup, and_iff_right (hplain x hx)]
  constructor
  · rintro hmet ⟨y, hy, hchain⟩
    exact (hdone y (hknown x hx hy)).1 (hmet hy) hchain
  · intro hno y hy
    exact (hdone y (hknown x hx hy)).2 fun hchain => hno ⟨y, hy, hchain⟩

/-- The elements of a round are those with a longest chain of needs of its number. -/
theorem mem_rounds (hids : ids.Nodup) (hknown : ∀ x ∈ ids, needs x ⊆ ids) (hplain : ∀ x ∈ ids, (needs x).Nodup)
    {n k : Nat} (h : Done needs ids done) (hdone : ∀ x ∈ ids, x ∈ done ↔ ¬HasChain needs k x) {j : Nat}
    {round : List α} (hj : (kahnRounds needs ids n done)[j]? = some round) :
    round.Sublist ids ∧ ∀ x, x ∈ round ↔ x ∈ ids ∧ HasChain needs (k + j) x ∧ ¬HasChain needs (k + j + 1) x := by
  induction n generalizing done k j with
  | zero => cases hj
  | succ n ih =>
    rw [kahnRounds] at hj
    split_ifs at hj with hround
    · cases hj
    · cases j with
      | zero =>
        obtain rfl : ready needs ids done = round := Option.some.inj hj
        refine ⟨List.filter_sublist, fun x => ?_⟩
        rw [mem_ready]
        refine and_congr_right fun hx => ?_
        rw [hdone x hx, not_not, h.missing_iff hknown hplain hdone hx]
        rfl
      | succ j =>
        have hgrown : ∀ x ∈ ids, x ∈ done ++ ready needs ids done ↔ ¬HasChain needs (k + 1) x := by
          intro x hx
          rw [List.mem_append, mem_ready, h.missing_iff hknown hplain hdone hx]
          constructor
          · rintro (hin | ⟨-, -, hno⟩)
            · exact fun hchain => (hdone x hx).1 hin hchain.pred
            · exact hno
          · intro hno
            by_cases hin : x ∈ done
            · exact .inl hin
            · exact .inr ⟨hx, hin, hno⟩
        have hmem := ih (h.ready hids) hgrown hj
        rwa [show k + 1 + j = k + (j + 1) by omega] at hmem

end Metalogos.Lib
