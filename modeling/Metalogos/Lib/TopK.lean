import Mathlib.Data.List.Basic
import Mathlib.Order.Defs.LinearOrder
import Mathlib.Order.Lattice

/-!
# The first `k` of a stable sort

Elements that come in an open order (those of a hash map, say) are sorted by descending score, stably, and
the first `k` are taken. What is taken does not depend on the order they came in exactly when no two
elements of one score reach the first `k` (`topK_indep_iff`): where two do, either may be the one that
comes first.
-/
namespace Metalogos.Lib

variable {β α : Type} [LinearOrder α] (score : β → α)

/-- `sort_by` descending; stable. -/
def sortDesc (l : List β) : List β := l.mergeSort fun a b => decide (score b ≤ score a)

def topK (k : Nat) (l : List β) : List β := (sortDesc score l).take k

/-- How many have a greater score. -/
def above (l : List β) (x : β) : Nat := l.countP fun b => decide (score x < score b)

/-- Two elements of one score have `k` elements above them. -/
def NoTies (k : Nat) (l : List β) : Prop := ∀ a ∈ l, ∀ b ∈ l, a ≠ b → score a = score b → k ≤ above score l a

theorem sortDesc_perm (l : List β) : (sortDesc score l).Perm l := List.mergeSort_perm _ _

theorem descending_trans (a b c : β) (hab : decide (score b ≤ score a) = true) (hbc : decide (score c ≤ score b) = true) :
    decide (score c ≤ score a) = true := by
  simp only [decide_eq_true_eq] at *
  exact le_trans hbc hab

theorem descending_total (a b : β) : (decide (score b ≤ score a) || decide (score a ≤ score b)) = true := by
  simpa using le_total (score b) (score a)

theorem sortDesc_sorted (l : List β) : (sortDesc score l).Pairwise fun a b => score b ≤ score a := by
  have h : (sortDesc score l).Pairwise fun a b => decide (score b ≤ score a) = true :=
    List.pairwise_mergeSort (descending_trans score) (descending_total score) l
  simpa using h

/-- The first of its score stands right behind those above it. -/
theorem topK_cons_getElem (a : β) (l : List β) {k : Nat} (hk : above score (a :: l) a < k) :
    (topK score k (a :: l))[above score (a :: l) a]? = some a := by
  obtain ⟨l₁, l₂, heq, -, hlt⟩ := List.mergeSort_cons (descending_trans score) (descending_total score) a l
  have hsort : sortDesc score (a :: l) = l₁ ++ a :: l₂ := heq
  have hsorted := sortDesc_sorted score (a :: l)
  rw [hsort, List.pairwise_append, List.pairwise_cons] at hsorted
  obtain ⟨-, ⟨hle, -⟩, -⟩ := hsorted
  have hcount : above score (a :: l) a = l₁.length := by
    have h₁ : l₁.countP (fun b => decide (score a < score b)) = l₁.length := by
      refine List.countP_eq_length.2 fun b hb => ?_
      simpa using hlt b hb
    have h₂ : (a :: l₂).countP (fun b => decide (score a < score b)) = 0 := by
      refine List.countP_eq_zero.2 fun b hb => ?_
      rcases List.mem_cons.1 hb with rfl | hb
      · simp
      · simpa using hle b hb
    unfold above
    rw [← (sortDesc_perm score (a :: l)).countP_eq, hsort, List.countP_append, h₁, h₂, Nat.add_zero]
  rw [hcount] at hk ⊢
  unfold topK
  rw [hsort, List.getElem?_take_of_lt hk, List.getElem?_append_right (Nat.le_refl _), Nat.sub_self]
  rfl

variable {score}

/-- Ties are a matter of the names, if the score is. -/
theorem noTies_map {γ : Type} {f : β → γ} {s : γ → α} {k : Nat} {l : List β} (hf : ∀ a ∈ l, ∀ b ∈ l, f a = f b → a = b)
    (hs : ∀ a ∈ l, score a = s (f a)) : NoTies s k (l.map f) ↔ NoTies score k l := by
  have habove (a : β) (ha : a ∈ l) : above s (l.map f) (f a) = above score l a := by
    unfold above
    rw [List.countP_map]
    refine List.countP_congr fun b hb => ?_
    simp only [Function.comp_apply, hs a ha, hs b hb]
  constructor
  · intro h a ha b hb hne heq
    rw [← habove a ha]
    refine h _ (List.mem_map_of_mem ha) _ (List.mem_map_of_mem hb) (fun hab => hne (hf a ha b hb hab)) ?_
    rw [← hs a ha, ← hs b hb, heq]
  · intro h x hx y hy hne heq
    obtain ⟨a, ha, rfl⟩ := List.mem_map.1 hx
    obtain ⟨b, hb, rfl⟩ := List.mem_map.1 hy
    rw [habove a ha]
    refine h a ha b hb (fun hab => hne (by rw [hab])) ?_
    rw [hs a ha, hs b hb, heq]

theorem noTies_perm {k : Nat} {l l' : List β} (h : l.Perm l') : NoTies score k l ↔ NoTies score k l' := by
  unfold NoTies above
  simp only [h.mem_iff, h.countP_eq]

/-- Without ties the order does not matter. -/
theorem topK_eq_of_perm {k : Nat} {l l' : List β} (hnodup : l.Nodup) (hties : NoTies score k l) (h : l.Perm l') :
    topK score k l = topK score k l' := by
  have hp := sortDesc_perm score l
  have hp' := (sortDesc_perm score l').trans h.symm
  have hs := sortDesc_sorted score l
  have hs' := sortDesc_sorted score l'
  have hnd := hp.nodup_iff.2 hnodup
  have hnd' := hp'.nodup_iff.2 hnodup
  have hlen := (hp.trans hp'.symm).length_eq
  unfold topK
  generalize sortDesc score l = s at hp hs hnd hlen ⊢
  generalize sortDesc score l' = s' at hp' hs' hnd' hlen ⊢
  -- the two agree element after element; `i` is the next place
  have hstep : ∀ i ≤ k, s.take i = s'.take i := by
    intro i
    induction i with
    | zero => intro _; rfl
    | succ i ih =>
      intro hi
      have hpre := ih (by omega)
      by_cases hlt : i < s.length
      · have hlt' : i < s'.length := by omega
        rw [List.take_succ_eq_append_getElem hlt, List.take_succ_eq_append_getElem hlt', hpre]
        congr 2
        by_contra hne
        -- each of the two stands behind the other one in the other list
        have hsplit : s = s.take i ++ s[i] :: s.drop (i + 1) := by
          rw [← List.drop_eq_getElem_cons hlt, List.take_append_drop]
        have hsplit' : s' = s'.take i ++ s'[i] :: s'.drop (i + 1) := by
          rw [← List.drop_eq_getElem_cons hlt', List.take_append_drop]
        generalize s[i] = a at hne hsplit
        generalize s'[i] = b at hne hsplit'
        rw [hsplit] at hnd hs
        rw [hsplit'] at hnd' hs'
        obtain ⟨-, hs₂, hs₁⟩ := List.pairwise_append.1 hs
        obtain ⟨-, hs₂', -⟩ := List.pairwise_append.1 hs'
        have hle := (List.pairwise_cons.1 hs₂).1
        have hle' := (List.pairwise_cons.1 hs₂').1
        obtain ⟨-, -, hdis⟩ := List.nodup_append.1 hnd
        obtain ⟨-, -, hdis'⟩ := List.nodup_append.1 hnd'
        have hmem (x : β) : x ∈ s ↔ x ∈ s' := (hp.trans hp'.symm).mem_iff
        have ha : a ∈ s'.drop (i + 1) := by
          have hin : a ∈ s' := (hmem a).1 (by rw [hsplit]; simp)
          rw [hsplit'] at hin
          rcases List.mem_append.1 hin with hin | hin
          · rw [← hpre] at hin
            exact absurd rfl (hdis a hin a List.mem_cons_self)
          · rcases List.mem_cons.1 hin with heq | hin
            · exact absurd heq hne
            · exact hin
        have hb : b ∈ s.drop (i + 1) := by
          have hin : b ∈ s := (hmem b).2 (by rw [hsplit']; simp)
          rw [hsplit] at hin
          rcases List.mem_append.1 hin with hin | hin
          · rw [hpre] at hin
            exact absurd rfl (hdis' b hin b List.mem_cons_self)
          · rcases List.mem_cons.1 hin with heq | hin
            · exact absurd heq.symm hne
            · exact hin
        have heq : score a = score b := le_antisymm (hle' a ha) (hle b hb)
        have hal : a ∈ l := hp.mem_iff.1 (by rw [hsplit]; simp)
        have hbl : b ∈ l := hp.mem_iff.1 (by rw [hsplit]; simp [hb])
        have hmany := hties a hal b hbl hne heq
        -- but only the elements in front of `a` can be above it
        have hfew : above score l a ≤ i := by
          have hrest : (a :: s.drop (i + 1)).countP (fun x => decide (score a < score x)) = 0 := by
            refine List.countP_eq_zero.2 fun x hx => ?_
            rcases List.mem_cons.1 hx with rfl | hx
            · simp
            · simpa using hle x hx
          unfold above
          rw [← hp.countP_eq, hsplit, List.countP_append, hrest, Nat.add_zero]
          refine Nat.le_trans List.countP_le_length ?_
          rw [List.length_take]
          exact Nat.min_le_left _ _
        omega
      · have hge : s.length ≤ i := Nat.le_of_not_lt hlt
        rw [List.take_of_length_le (by omega), List.take_of_length_le (by omega)] at hpre ⊢
        exact hpre
  exact hstep k (Nat.le_refl k)

/-- Where no two elements have one score, the whole list is sorted in one way. -/
theorem sortDesc_eq_of_perm {l l' : List β} (hnodup : l.Nodup) (hinj : ∀ a ∈ l, ∀ b ∈ l, score a = score b → a = b)
    (h : l.Perm l') : sortDesc score l = sortDesc score l' := by
  have hties : NoTies score l.length l := fun a ha b hb hne heq => absurd (hinj a ha b hb heq) hne
  have htop := topK_eq_of_perm hnodup hties h
  unfold topK at htop
  have hl := (sortDesc_perm score l).length_eq
  have hl' := ((sortDesc_perm score l').trans h.symm).length_eq
  rwa [List.take_of_length_le (by omega), List.take_of_length_le (by omega)] at htop

/-- What is taken is a function of the elements alone exactly when no tie reaches it. -/
theorem topK_indep_iff {γ : Type} {id : β → γ} {k : Nat} {l : List β} (hid : ∀ a ∈ l, ∀ b ∈ l, id a = id b → a = b)
    (hnodup : l.Nodup) :
    (∀ o o' : List β, o.Perm l → o'.Perm l → (topK score k o).map id = (topK score k o').map id) ↔ NoTies score k l := by
  constructor
  · intro h a ha b hb hne heq
    by_contra hfew
    have hdistinct : id a ≠ id b := fun hab => hne (hid a ha b hb hab)
    obtain ⟨s, t, rfl⟩ := List.append_of_mem ha
    have hpa : (a :: (s ++ t)).Perm (s ++ a :: t) := List.perm_middle.symm
    obtain ⟨s', t', hsplit⟩ := List.append_of_mem hb
    have hpb : (b :: (s' ++ t')).Perm (s ++ a :: t) := by
      rw [hsplit]
      exact List.perm_middle.symm
    have hca : above score (a :: (s ++ t)) a = above score (s ++ a :: t) a := hpa.countP_eq _
    have hcb : above score (b :: (s' ++ t')) b = above score (s ++ a :: t) a := by
      unfold above
      rw [hpb.countP_eq, heq]
    have hga := topK_cons_getElem score a (s ++ t) (k := k) (by rw [hca]; omega)
    have hgb := topK_cons_getElem score b (s' ++ t') (k := k) (by rw [hcb]; omega)
    rw [hca] at hga
    rw [hcb] at hgb
    have hout := congrArg (fun r : List γ => r[above score (s ++ a :: t) a]?) (h _ _ hpa hpb)
    simp only [List.getElem?_map, hga, hgb, Option.map_some] at hout
    exact hdistinct (Option.some.inj hout)
  · intro h o o' ho ho'
    rw [← topK_eq_of_perm hnodup h ho.symm, ← topK_eq_of_perm hnodup h ho'.symm]

/-! ## Orders of listing

A result that holds for every `Listing` does not rest on the order of a hash map or of a query without one. -/

structure Listing (α : Type) where
  list : List α → List α
  perm : ∀ l, (list l).Perm l

namespace Listing

variable {α : Type}

theorem mem_list (o : Listing α) {l : List α} {a : α} : a ∈ o.list l ↔ a ∈ l := (o.perm l).mem_iff

def asGiven : Listing α := ⟨id, fun l => .refl l⟩

end Listing

end Metalogos.Lib
