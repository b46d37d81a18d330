import Mathlib.Data.List.Induction
import Mathlib.Data.List.Nodup
/-!
# Name tables with shadowing

A table gives each declared name a slot in declaration order; a name declared again
takes the new slot and leaves the old one behind without a name. `names` writes such
a table down as a vector by slot, with `blank` where no name is left, and `ofNames`
reads the vector back.

`Tracks s xs` ties a table to the list of all declarations made: a name has the slot
of its last declaration. Writing down and reading back keeps that for every name but
`blank`.
-/
namespace Metalogos.Lib

variable {α : Type} [DecidableEq α]

/-! ## The last position of an element -/

/-- The position of the last `n` in a list. -/
def lastIdx (n : α) : List α → Option Nat
  | [] => none
  | x :: xs =>
    match lastIdx n xs with
    | some i => some (i + 1)
    | none => if x = n then some 0 else none

theorem lastIdx_append (n : α) (xs ys : List α) :
    lastIdx n (xs ++ ys) =
      match lastIdx n ys with
      | some j => some (xs.length + j)
      | none => lastIdx n xs := by
  induction xs with
  | nil => cases h : lastIdx n ys <;> simp [h, lastIdx]
  | cons x xs ih =>
    rw [List.cons_append, lastIdx, ih]
    cases h : lastIdx n ys with
    | none => rfl
    | some j =>
      simp only [List.length_cons]
      congr 1
      omega

theorem lastIdx_concat (n x : α) (xs : List α) :
    lastIdx n (xs ++ [x]) = if x = n then some xs.length else lastIdx n xs := by
  rw [lastIdx_append]
  by_cases h : x = n <;> simp [lastIdx, h]

omit [DecidableEq α] in
theorem getElem?_concat_of_ne {n x : α} (h : x ≠ n) (xs : List α) (j : Nat) :
    (xs ++ [x])[j]? = some n ↔ xs[j]? = some n := by
  rcases Nat.lt_trichotomy j xs.length with hj | rfl | hj
  · rw [List.getElem?_append_left hj]
  · simp [h]
  · rw [List.getElem?_eq_none (by simp; omega), List.getElem?_eq_none (by omega)]

/-- The last position holds the element, and none after it does. -/
theorem lastIdx_eq_some_iff (n : α) (xs : List α) : ∀ i : Nat,
    lastIdx n xs = some i ↔ xs[i]? = some n ∧ ∀ j, i < j → xs[j]? ≠ some n := by
  induction xs using List.reverseRecOn with
  | nil =>
    intro i
    simp [lastIdx]
  | append_singleton xs x ih =>
    intro i
    rw [lastIdx_concat]
    by_cases hx : x = n
    · subst hx
      rw [if_pos rfl, Option.some.injEq]
      constructor
      · rintro rfl
        refine ⟨by simp, fun j hj => ?_⟩
        rw [List.getElem?_eq_none (by simp; omega)]
        simp
      · rintro ⟨hi, hlast⟩
        rcases Nat.lt_trichotomy i xs.length with hlt | heq | hgt
        · exact absurd (by simp) (hlast xs.length hlt)
        · exact heq.symm
        · rw [List.getElem?_eq_none (by simp; omega)] at hi
          cases hi
    · rw [if_neg hx, ih, getElem?_concat_of_ne hx]
      simp only [ne_eq, getElem?_concat_of_ne hx]

theorem lastIdx_eq_none_iff (n : α) (xs : List α) : lastIdx n xs = none ↔ n ∉ xs := by
  induction xs with
  | nil => simp [lastIdx]
  | cons x xs ih =>
    rw [lastIdx, List.mem_cons, not_or, ← ih]
    cases lastIdx n xs with
    | none => simp [eq_comm]
    | some i => simp

theorem lastIdx_lt {n : α} {xs : List α} {i : Nat} (h : lastIdx n xs = some i) : i < xs.length :=
  (List.getElem?_eq_some_iff.mp ((lastIdx_eq_some_iff n xs i).mp h).1).1

/-- More elements move the last position exactly when they hold the element. -/
theorem lastIdx_append_eq_iff (n : α) (xs ys : List α) :
    lastIdx n xs = lastIdx n (xs ++ ys) ↔ n ∉ ys := by
  rw [lastIdx_append, ← lastIdx_eq_none_iff]
  cases hy : lastIdx n ys with
  | none => simp
  | some j =>
    constructor
    · intro h
      have := lastIdx_lt h
      omega
    · intro h
      cases h

/-- The last position is the first when the element is there at most once. -/
theorem lastIdx_eq_idxOf?_iff (n : α) (xs : List α) :
    lastIdx n xs = xs.idxOf? n ↔ xs.count n ≤ 1 := by
  induction xs with
  | nil => simp [lastIdx]
  | cons x xs ih =>
    rw [lastIdx, List.idxOf?_cons, List.count_cons]
    by_cases hx : x = n
    · subst hx
      rw [beq_self_eq_true, if_pos rfl, if_pos rfl]
      cases hl : lastIdx x xs with
      | none =>
        have := List.count_eq_zero_of_not_mem ((lastIdx_eq_none_iff _ _).mp hl)
        simp [this]
      | some i =>
        have hmem : x ∈ xs := by
          by_contra hn
          rw [(lastIdx_eq_none_iff _ _).mpr hn] at hl
          cases hl
        have := List.count_pos_iff.mpr hmem
        simp
        omega
    · have hb : (x == n) = false := by simpa using hx
      rw [hb]
      simp only [Bool.false_eq_true, if_false, Nat.add_zero, ← ih, if_neg hx]
      cases lastIdx n xs <;> cases xs.idxOf? n <;> simp

theorem lastIdx_eq_idxOf?_of_nodup (n : α) (xs : List α) (h : xs.Nodup) :
    lastIdx n xs = xs.idxOf? n :=
  (lastIdx_eq_idxOf?_iff n xs).mpr (List.nodup_iff_count_le_one.mp h n)

/-! ## The table -/

/-- The slot of each declared name and the next free slot. -/
structure SlotTable (α : Type) where
  entries : List (α × Nat)
  next : Nat

namespace SlotTable

def empty : SlotTable α := ⟨[], 0⟩

def lookup (s : SlotTable α) (n : α) : Option Nat := s.entries.lookup n

/-- The next slot goes to `n`, whatever `n` had before. -/
def declare (s : SlotTable α) (n : α) : SlotTable α :=
  ⟨(n, s.next) :: s.entries.filter fun e => e.1 ≠ n, s.next + 1⟩

def ofNames (names : List α) : SlotTable α := names.foldl declare empty

/-- The table as a vector by slot. -/
def names (blank : α) (s : SlotTable α) : List α :=
  s.entries.foldl (fun v e => if e.2 < v.length then v.set e.2 e.1 else v)
    (List.replicate s.next blank)

/-- No name twice, no slot twice, every slot below the next one. -/
structure Ok (s : SlotTable α) : Prop where
  keys : (s.entries.map Prod.fst).Nodup
  slots : (s.entries.map Prod.snd).Nodup
  lt : ∀ e ∈ s.entries, e.2 < s.next

/-- The table after the declarations `xs`. -/
structure Tracks (s : SlotTable α) (xs : List α) : Prop extends s.Ok where
  next : s.next = xs.length
  last : ∀ n, s.lookup n = lastIdx n xs

theorem lookup_filter_ne (n m : α) (es : List (α × Nat)) (h : m ≠ n) :
    (es.filter fun e => e.1 ≠ n).lookup m = es.lookup m := by
  induction es with
  | nil => rfl
  | cons e es ih =>
    by_cases he : e.1 = n
    · have hm : (m == e.1) = false := by simpa [he] using h
      rw [List.filter_cons_of_neg (by simpa using he), ih, List.lookup_cons, hm]
    · rw [List.filter_cons_of_pos (by simpa using he), List.lookup_cons, List.lookup_cons, ih]

theorem lookup_declare (s : SlotTable α) (n m : α) :
    (s.declare n).lookup m = if n = m then some s.next else s.lookup m := by
  unfold declare lookup
  rw [List.lookup_cons]
  by_cases h : n = m
  · simp [h]
  · have hm : (m == n) = false := by simpa using Ne.symm h
    rw [if_neg h, hm, lookup_filter_ne n m _ (Ne.symm h)]

theorem tracks_empty : Tracks (empty : SlotTable α) [] where
  keys := List.nodup_nil
  slots := List.nodup_nil
  lt := by simp [empty]
  next := rfl
  last n := rfl

theorem Tracks.declare {s : SlotTable α} {xs : List α} (h : s.Tracks xs) (n : α) :
    (s.declare n).Tracks (xs ++ [n]) where
  keys := by
    rw [SlotTable.declare, List.map_cons, List.nodup_cons]
    refine ⟨?_, (h.keys.sublist (List.filter_sublist.map _))⟩
    simp
  slots := by
    rw [SlotTable.declare, List.map_cons, List.nodup_cons]
    refine ⟨?_, (h.slots.sublist (List.filter_sublist.map _))⟩
    intro hm
    obtain ⟨e, he, heq⟩ := List.mem_map.mp hm
    have := h.lt e (List.mem_of_mem_filter he)
    omega
  lt e he := by
    rcases List.mem_cons.mp he with rfl | he
    · exact Nat.lt_succ_self _
    · exact Nat.lt_succ_of_lt (h.lt e (List.mem_of_mem_filter he))
  next := by
    rw [List.length_append, ← h.next]
    rfl
  last m := by
    rw [lookup_declare, lastIdx_concat, h.last, h.next]

theorem Tracks.foldl {s : SlotTable α} {xs : List α} (h : s.Tracks xs) (ys : List α) :
    (ys.foldl SlotTable.declare s).Tracks (xs ++ ys) := by
  induction ys generalizing s xs with
  | nil => simpa using h
  | cons y ys ih =>
    have := ih (h.declare y)
    rwa [List.append_assoc, List.singleton_append] at this

theorem tracks_ofNames (names : List α) : (ofNames names).Tracks names :=
  tracks_empty.foldl names

/-! ### Writing the table down -/

omit [DecidableEq α] in
theorem length_foldl_set (es : List (α × Nat)) (v : List α) :
    (es.foldl (fun v e => if e.2 < v.length then v.set e.2 e.1 else v) v).length = v.length := by
  induction es generalizing v with
  | nil => rfl
  | cons e es ih =>
    rw [List.foldl_cons, ih]
    split <;> simp

omit [DecidableEq α] in
@[simp] theorem length_names (blank : α) (s : SlotTable α) : (s.names blank).length = s.next := by
  rw [names, length_foldl_set, List.length_replicate]

omit [DecidableEq α] in
theorem getElem?_foldl_set_of_notMem (i : Nat) (es : List (α × Nat)) (v : List α)
    (h : i ∉ es.map Prod.snd) :
    (es.foldl (fun v e => if e.2 < v.length then v.set e.2 e.1 else v) v)[i]? = v[i]? := by
  induction es generalizing v with
  | nil => rfl
  | cons e es ih =>
    rw [List.map_cons, List.mem_cons, not_or] at h
    rw [List.foldl_cons, ih _ h.2]
    split
    · rw [List.getElem?_set_ne (Ne.symm h.1)]
    · rfl

omit [DecidableEq α] in
theorem getElem?_foldl_set_of_mem {n : α} {i : Nat} (es : List (α × Nat)) (v : List α)
    (hs : (es.map Prod.snd).Nodup) (hi : i < v.length) (h : (n, i) ∈ es) :
    (es.foldl (fun v e => if e.2 < v.length then v.set e.2 e.1 else v) v)[i]? = some n := by
  induction es generalizing v with
  | nil => cases h
  | cons e es ih =>
    rw [List.map_cons, List.nodup_cons] at hs
    rw [List.foldl_cons]
    rcases List.mem_cons.mp h with rfl | h
    · rw [getElem?_foldl_set_of_notMem i es _ hs.1, if_pos hi, List.getElem?_set_self hi]
    · refine ih _ hs.2 ?_ h
      split <;> simpa using hi

theorem lookup_eq_some_iff_of_nodup (n : α) (i : Nat) : ∀ es : List (α × Nat),
    (es.map Prod.fst).Nodup → (es.lookup n = some i ↔ (n, i) ∈ es) := by
  intro es
  induction es with
  | nil => simp
  | cons e es ih =>
    intro hk
    rw [List.map_cons, List.nodup_cons] at hk
    rw [List.lookup_cons, List.mem_cons]
    by_cases he : n = e.1
    · subst he
      rw [beq_self_eq_true, Option.some.injEq]
      constructor
      · rintro rfl
        exact .inl rfl
      · rintro (hi | hi)
        · rw [← hi]
        · exact absurd (List.mem_map.mpr ⟨_, hi, rfl⟩) hk.1
    · have hb : (n == e.1) = false := by simpa using he
      rw [hb, ih hk.2]
      constructor
      · exact .inr
      · rintro (hi | hi)
        · exact absurd (congrArg Prod.fst hi) he
        · exact hi

theorem Ok.lookup_eq_some_iff {s : SlotTable α} (h : s.Ok) (n : α) (i : Nat) :
    s.lookup n = some i ↔ (n, i) ∈ s.entries :=
  lookup_eq_some_iff_of_nodup n i s.entries h.keys

/-- A name other than `blank` stands in the vector at its slot and nowhere else. -/
theorem Ok.getElem?_names {s : SlotTable α} (h : s.Ok) {blank n : α} (hn : n ≠ blank) (i : Nat) :
    (s.names blank)[i]? = some n ↔ s.lookup n = some i := by
  rw [h.lookup_eq_some_iff]
  by_cases hi : i ∈ s.entries.map Prod.snd
  · obtain ⟨⟨m, j⟩, hm, rfl⟩ := List.mem_map.mp hi
    have hj : j < (List.replicate s.next blank).length := by
      simpa using h.lt _ hm
    have hval := getElem?_foldl_set_of_mem s.entries _ h.slots hj hm
    rw [names, hval, Option.some.injEq]
    constructor
    · rintro rfl
      exact hm
    · intro hn'
      exact (Prod.mk.inj (List.inj_on_of_nodup_map h.slots hm hn' rfl)).1
  · rw [names, getElem?_foldl_set_of_notMem i _ _ hi]
    constructor
    · intro hr
      have := List.mem_of_getElem? hr
      rw [List.mem_replicate] at this
      exact absurd this.2 hn
    · intro hm
      exact absurd (List.mem_map.mpr ⟨_, hm, rfl⟩) hi

/-- Reading the vector back finds the slot of every name but `blank`. -/
theorem Tracks.lastIdx_names {s : SlotTable α} {xs : List α} (h : s.Tracks xs) {blank n : α}
    (hn : n ≠ blank) : lastIdx n (s.names blank) = lastIdx n xs := by
  rw [← h.last]
  cases hl : s.lookup n with
  | some i =>
    refine (lastIdx_eq_some_iff n _ i).mpr ⟨(h.toOk.getElem?_names hn i).mpr hl, fun j hj hc => ?_⟩
    rw [h.toOk.getElem?_names hn, hl] at hc
    cases hc
    exact absurd hj (Nat.lt_irrefl _)
  | none =>
    cases hl' : lastIdx n (s.names blank) with
    | none => rfl
    | some i =>
      have := ((lastIdx_eq_some_iff n _ i).mp hl').1
      rw [h.toOk.getElem?_names hn, hl] at this
      cases this

/-- Without a name declared twice the vector is the list of declarations. -/
theorem Tracks.names_of_nodup {s : SlotTable α} {xs : List α} (h : s.Tracks xs) (hd : xs.Nodup)
    (blank : α) : s.names blank = xs := by
  apply List.ext_getElem?
  intro i
  rcases Nat.lt_or_ge i xs.length with hi | hi
  · have hlast : lastIdx xs[i] xs = some i := by
      refine (lastIdx_eq_some_iff _ _ _).mpr ⟨List.getElem?_eq_getElem hi, fun j hj hc => ?_⟩
      obtain ⟨hj', hc⟩ := List.getElem?_eq_some_iff.mp hc
      have := (hd.getElem_inj_iff).mp hc
      omega
    rw [← h.last, h.toOk.lookup_eq_some_iff] at hlast
    rw [List.getElem?_eq_getElem hi, names]
    exact getElem?_foldl_set_of_mem s.entries _ h.slots (by simpa [h.next] using hi) hlast
  · rw [List.getElem?_eq_none hi, List.getElem?_eq_none (by rw [length_names, h.next]; exact hi)]

end SlotTable

end Metalogos.Lib
