import Mathlib.Data.List.Induction
import Mathlib.Data.Set.Basic
import Mathlib.Logic.Function.Basic

/-!
# Rounds of equations over sets

A list of equations, each giving a key what is its own and what other keys have; a key may have several. A round
settles them one after the other, each on what stands there by then, and the rounds start from nothing.

`Requires` is what the equations ask of a key in any order. `Chain` counts: a key is read where an equation settled
it earlier in the round, or, one round less, as the round before left it. The rounds have exactly the chains
(`mem_rounds`), so they have come to rest if and only if every requirement has a chain that is short enough
(`rounds_fixed_iff`).
-/
namespace Metalogos.Lib

structure Equation (κ ε : Type) where
  key : κ
  own : Set ε
  uses : Set κ

variable {κ ε : Type} [DecidableEq κ]

namespace Equation

def value (q : Equation κ ε) (x : κ → Set ε) : Set ε := {e | e ∈ q.own ∨ ∃ f ∈ q.uses, e ∈ x f}

/-- The equations settled one after the other. -/
def settle (qs : List (Equation κ ε)) (x : κ → Set ε) : κ → Set ε :=
  qs.foldl (fun x q => Function.update x q.key (q.value x)) x

def rounds (qs : List (Equation κ ε)) : Nat → κ → Set ε
  | 0 => fun _ => ∅
  | n + 1 => settle qs (rounds qs n)

def Fixed (qs : List (Equation κ ε)) (x : κ → Set ε) : Prop := ∀ q ∈ qs, x q.key = q.value x

inductive Requires (qs : List (Equation κ ε)) : κ → ε → Prop where
  | own {q : Equation κ ε} {e : ε} (hq : q ∈ qs) (he : e ∈ q.own) : Requires qs q.key e
  | use {q : Equation κ ε} {f : κ} {e : ε} (hq : q ∈ qs) (hf : f ∈ q.uses) (hr : Requires qs f e) :
      Requires qs q.key e

/-- What a key has when `done` is settled in a round that `n` others came before. -/
inductive Chain (qs : List (Equation κ ε)) : Nat → List (Equation κ ε) → κ → ε → Prop where
  | own {n : Nat} {earlier later : List (Equation κ ε)} {q : Equation κ ε} {e : ε}
      (hlast : ∀ r ∈ later, r.key ≠ q.key) (he : e ∈ q.own) : Chain qs n (earlier ++ q :: later) q.key e
  | use {n : Nat} {earlier later : List (Equation κ ε)} {q : Equation κ ε} {f : κ} {e : ε}
      (hlast : ∀ r ∈ later, r.key ≠ q.key) (hf : f ∈ q.uses) (hc : Chain qs n earlier f e) :
      Chain qs n (earlier ++ q :: later) q.key e
  | before {n : Nat} {done : List (Equation κ ε)} {f : κ} {e : ε} (hnone : ∀ r ∈ done, r.key ≠ f)
      (hc : Chain qs n qs f e) : Chain qs (n + 1) done f e

variable {qs : List (Equation κ ε)}

theorem settle_append (ps rs : List (Equation κ ε)) (x : κ → Set ε) :
    settle (ps ++ rs) x = settle rs (settle ps x) := List.foldl_append

theorem settle_concat (ps : List (Equation κ ε)) (q : Equation κ ε) (x : κ → Set ε) :
    settle (ps ++ [q]) x = Function.update (settle ps x) q.key (q.value (settle ps x)) := by
  rw [settle_append]
  rfl

/-- Equations of other keys change nothing. -/
theorem settle_of_ne {rs : List (Equation κ ε)} {f : κ} (h : ∀ r ∈ rs, r.key ≠ f) (x : κ → Set ε) :
    settle rs x f = x f := by
  induction rs generalizing x with
  | nil => rfl
  | cons r rs ih =>
    have hrest := ih (fun s hs => h s (.tail r hs)) (Function.update x r.key (r.value x))
    exact hrest.trans (Function.update_of_ne (h r (.head rs)).symm _ _)

/-- A key has what the last of its equations gave it. -/
theorem settle_last {earlier later : List (Equation κ ε)} {q : Equation κ ε} (h : ∀ r ∈ later, r.key ≠ q.key)
    (x : κ → Set ε) : settle (earlier ++ q :: later) x q.key = q.value (settle earlier x) := by
  have hsplit : earlier ++ q :: later = (earlier ++ [q]) ++ later := by simp
  rw [hsplit, settle_append, settle_of_ne h, settle_concat, Function.update_self]

theorem mem_of_chain {n : Nat} {done : List (Equation κ ε)} {f : κ} {e : ε} (h : Chain qs n done f e) :
    e ∈ settle done (rounds qs n) f := by
  induction h with
  | own hlast he =>
    rw [settle_last hlast]
    exact .inl he
  | use hlast hf _ ih =>
    rw [settle_last hlast]
    exact .inr ⟨_, hf, ih⟩
  | before hnone _ ih =>
    rw [settle_of_ne hnone]
    exact ih

omit [DecidableEq κ] in
theorem Chain.later {n : Nat} {done : List (Equation κ ε)} {q : Equation κ ε} {f : κ} {e : ε}
    (h : Chain qs n done f e) (hne : q.key ≠ f) : Chain qs n (done ++ [q]) f e := by
  cases h with
  | @own _ earlier later r _ hlast he =>
    have hlast' : ∀ s ∈ later ++ [q], s.key ≠ r.key := by
      intro s hs
      rcases List.mem_append.1 hs with hs | hs
      · exact hlast s hs
      · obtain rfl : s = q := by simpa using hs
        exact hne
    have hown : Chain qs n (earlier ++ r :: (later ++ [q])) r.key e := .own hlast' he
    rwa [← List.cons_append, ← List.append_assoc] at hown
  | @use _ earlier later r g _ hlast hg hc =>
    have hlast' : ∀ s ∈ later ++ [q], s.key ≠ r.key := by
      intro s hs
      rcases List.mem_append.1 hs with hs | hs
      · exact hlast s hs
      · obtain rfl : s = q := by simpa using hs
        exact hne
    have huse : Chain qs n (earlier ++ r :: (later ++ [q])) r.key e := .use hlast' hg hc
    rwa [← List.cons_append, ← List.append_assoc] at huse
  | before hnone hc =>
    refine .before (fun r hr => ?_) hc
    rcases List.mem_append.1 hr with hr | hr
    · exact hnone r hr
    · obtain rfl : r = q := by simpa using hr
      exact hne

theorem chain_of_mem {n : Nat} (hbefore : ∀ f e, e ∈ rounds qs n f → n ≠ 0 ∧ Chain qs (n - 1) qs f e)
    (done : List (Equation κ ε)) {f : κ} {e : ε} (h : e ∈ settle done (rounds qs n) f) : Chain qs n done f e := by
  induction done using List.reverseRecOn generalizing f with
  | nil =>
    obtain ⟨hn, hc⟩ := hbefore f e h
    obtain ⟨m, rfl⟩ := Nat.exists_eq_succ_of_ne_zero hn
    exact .before nofun hc
  | append_singleton done q ih =>
    rw [settle_concat] at h
    by_cases hf : f = q.key
    · subst hf
      rw [Function.update_self] at h
      rcases h with he | ⟨g, hg, he⟩
      · exact .own nofun he
      · exact .use nofun hg (ih he)
    · rw [Function.update_of_ne hf] at h
      exact (ih h).later (Ne.symm hf)

/-- The rounds have what has a chain. -/
theorem mem_rounds (n : Nat) {f : κ} {e : ε} : e ∈ rounds qs (n + 1) f ↔ Chain qs n qs f e := by
  refine ⟨?_, mem_of_chain⟩
  induction n generalizing f e with
  | zero => exact chain_of_mem (fun _ _ h => absurd h (Set.notMem_empty _)) qs
  | succ n ih => exact chain_of_mem (fun f e h => ⟨n.succ_ne_zero, ih h⟩) qs

omit [DecidableEq κ] in
theorem Chain.requires {n : Nat} {done : List (Equation κ ε)} {f : κ} {e : ε} (h : Chain qs n done f e)
    (hsub : ∀ q ∈ done, q ∈ qs) : Requires qs f e := by
  induction h with
  | @own _ earlier later q _ _ he => exact .own (hsub q (by simp)) he
  | @use _ earlier later q _ _ _ hf _ ih =>
    exact .use (hsub q (by simp)) hf (ih fun r hr => hsub r (List.mem_append_left _ hr))
  | before _ _ ih => exact ih fun _ hq => hq

omit [DecidableEq κ] in
/-- What has come to rest has every requirement. -/
theorem Fixed.requires {x : κ → Set ε} (h : Fixed qs x) {f : κ} {e : ε} (hr : Requires qs f e) : e ∈ x f := by
  induction hr with
  | own hq he =>
    rw [h _ hq]
    exact .inl he
  | use hq hf _ ih =>
    rw [h _ hq]
    exact .inr ⟨_, hf, ih⟩

/-- The rounds have come to rest if and only if each requirement has a chain within them, and each equation alone
gives its key all that is required of it. -/
theorem rounds_fixed_iff (n : Nat) : Fixed qs (rounds qs (n + 1)) ↔
    (∀ f e, Requires qs f e → Chain qs n qs f e) ∧
      ∀ q ∈ qs, ∀ e, Requires qs q.key e → e ∈ q.own ∨ ∃ f ∈ q.uses, Requires qs f e := by
  have hsound : ∀ f e, e ∈ rounds qs (n + 1) f → Requires qs f e := by
    intro f e he
    exact ((mem_rounds n).1 he).requires fun _ hq => hq
  constructor
  · intro hfixed
    refine ⟨fun f e hr => (mem_rounds n).1 (hfixed.requires hr), fun q hq e hr => ?_⟩
    have he := hfixed.requires hr
    rw [hfixed q hq] at he
    rcases he with he | ⟨f, hf, he⟩
    · exact .inl he
    · exact .inr ⟨f, hf, hsound f e he⟩
  · rintro ⟨hchain, hequation⟩ q hq
    ext e
    constructor
    · intro he
      rcases hequation q hq e (hsound _ e he) with he | ⟨f, hf, hr⟩
      · exact .inl he
      · exact .inr ⟨f, hf, (mem_rounds n).2 (hchain f e hr)⟩
    · rintro (he | ⟨f, hf, he⟩)
      · exact (mem_rounds n).2 (hchain _ e (.own hq he))
      · exact (mem_rounds n).2 (hchain _ e (.use hq hf (hsound f e he)))

/-- At rest a key has what is required of it, whatever the order of the equations. -/
theorem mem_of_fixed {n : Nat} (h : Fixed qs (rounds qs (n + 1))) (f : κ) (e : ε) :
    e ∈ rounds qs (n + 1) f ↔ Requires qs f e :=
  ⟨fun he => ((mem_rounds n).1 he).requires fun _ hq => hq, h.requires⟩

/-- A round that changes nothing is the last one. -/
theorem rounds_of_still {n : Nat} (h : settle qs (rounds qs n) = rounds qs n) (k : Nat) :
    rounds qs (n + k) = rounds qs n := by
  induction k with
  | zero => rfl
  | succ k ih =>
    show settle qs (rounds qs (n + k)) = _
    rw [ih, h]

end Equation

end Metalogos.Lib
