import Mathlib.Data.List.Count
import Mathlib.Data.Nat.Find
import Mathlib.Data.List.Nodup
import Mathlib.Data.List.Perm.Basic

/-!
# A row of contests that ends with the first loss

Rivals are met one after the other; one that is beaten is put down, which may change how it stands when it is met
again, and the first one that is not beaten ends the row. `beats c k` says how the contest with `c` ends after `c` was
put down `k` times.

The rivals come in two groups, one before the other. `fair_of_steady` and `steady_of_fair`: the outcome does not depend
on the order within the groups, and nobody is put down twice, exactly where the rivals are distinct and all beaten, or
the group in which the row ends consists of one rival who soon wins.
-/
namespace Metalogos.Lib

variable {α : Type} [DecidableEq α]

/-- Those put down, and the one that was not beaten. -/
def contest (beats : α → Nat → Bool) : List α → List α → List α × Option α
  | down, [] => (down, none)
  | down, c :: rest => if beats c (down.count c) then contest beats (down ++ [c]) rest else (down, some c)

/-- Two outcomes are the same up to the order of those put down. -/
def SameOutcome (r r' : List α × Option α) : Prop := r.1.Perm r'.1 ∧ r.2 = r'.2

/-- `c` is met `m` times from `k` defeats on and wins before it was put down twice. -/
def WinsSoon (beats : α → Nat → Bool) (c : α) (k m : Nat) : Prop :=
  ∃ j < m, k + j ≤ 1 ∧ (∀ i < j, beats c (k + i) = true) ∧ beats c (k + j) = false

/-- Where the order does not matter. -/
def Steady (beats : α → Nat → Bool) (first second : List α) : Prop :=
  ((first ++ second).Nodup ∧ ∀ c ∈ first ++ second, beats c 0 = true) ∨
  (∃ c, (∀ d ∈ first, d = c) ∧ WinsSoon beats c 0 first.length) ∨
  ∃ c, first.Nodup ∧ (∀ d ∈ first, beats d 0 = true) ∧ (∀ d ∈ second, d = c) ∧
    WinsSoon beats c (first.count c) second.length

section

variable {beats : α → Nat → Bool} {down l first second : List α} {c : α}

theorem contest_append (down l l' : List α) : contest beats down (l ++ l') =
    if (contest beats down l).2.isSome then contest beats down l else contest beats (contest beats down l).1 l' := by
  induction l generalizing down with
  | nil => rfl
  | cons c l ih =>
    rw [List.cons_append, contest, contest]
    split_ifs with h
    · rw [ih]
      simp [*]
    · simp [*] at *
    · simp
    · simp at *

theorem contest_none (h : (contest beats down l).2 = none) : (contest beats down l).1 = down ++ l := by
  induction l generalizing down with
  | nil => simp [contest]
  | cons c l ih =>
    rw [contest] at h ⊢
    by_cases hb : beats c (down.count c) = true
    · rw [if_pos hb] at h ⊢
      rw [ih h]
      simp
    · rw [if_neg hb] at h
      cases h

/-- The loser of nothing is one of the rivals, and those put down are among them. -/
theorem contest_some (h : (contest beats down l).2 = some c) : ∃ before after, l = before ++ c :: after ∧
    contest beats down before = (down ++ before, none) ∧ (contest beats down l).1 = down ++ before ∧
      beats c ((down ++ before).count c) = false := by
  induction l generalizing down with
  | nil => cases h
  | cons d l ih =>
    rw [contest] at h ⊢
    by_cases hb : beats d (down.count d) = true
    · rw [if_pos hb] at h ⊢
      obtain ⟨before, after, rfl, hbefore, hdown, hlost⟩ := ih h
      refine ⟨d :: before, after, rfl, ?_, ?_, ?_⟩
      · rw [contest, if_pos hb, hbefore]
        simp
      · rw [hdown]
        simp
      · simpa using hlost
    · rw [if_neg hb] at h ⊢
      cases h
      refine ⟨[], l, rfl, by simp [contest], by simp, by simpa using hb⟩

/-- Nobody but the rivals takes part. -/
theorem contest_mem : (∀ d ∈ (contest beats down l).1, d ∈ down ∨ d ∈ l) ∧
    ∀ d ∈ (contest beats down l).2, d ∈ l := by
  cases h : (contest beats down l).2 with
  | none =>
    rw [contest_none h]
    exact ⟨fun d hd => List.mem_append.1 hd, fun d hd => by cases hd⟩
  | some c =>
    obtain ⟨before, after, rfl, -, hdown, -⟩ := contest_some h
    rw [hdown]
    refine ⟨fun d hd => (List.mem_append.1 hd).imp_right fun hd => List.mem_append_left _ hd, fun d hd => ?_⟩
    cases hd
    simp

theorem contest_distinct (h : (down ++ l).Nodup) (hb : ∀ c ∈ l, beats c 0 = true) :
    contest beats down l = (down ++ l, none) := by
  induction l generalizing down with
  | nil => simp [contest]
  | cons c l ih =>
    have hc : c ∉ down := fun hin => (List.nodup_append.1 h).2.2 c hin c List.mem_cons_self rfl
    rw [contest, List.count_eq_zero.2 hc, if_pos (hb c List.mem_cons_self), ih]
    · simp
    · simpa using h
    · exact fun d hd => hb d (List.mem_cons_of_mem _ hd)

theorem contest_congr {beats' : α → Nat → Bool} (h : ∀ c ∈ l, beats' c = beats c) :
    contest beats' down l = contest beats down l := by
  induction l generalizing down with
  | nil => rfl
  | cons c l ih =>
    rw [contest, contest, h c List.mem_cons_self, ih fun d hd => h d (List.mem_cons_of_mem _ hd)]

/-- One rival, met again and again. -/
theorem contest_replicate {j : Nat} (m : Nat) (hj : j < m) (hwin : ∀ i < j, beats c (down.count c + i) = true)
    (hlost : beats c (down.count c + j) = false) (rest : List α) :
    contest beats down (List.replicate m c ++ rest) = (down ++ List.replicate j c, some c) := by
  induction j generalizing down m with
  | zero =>
    cases m with
    | zero => omega
    | succ m =>
      rw [List.replicate_succ, List.cons_append, contest, if_neg (by simpa using hlost)]
      simp
  | succ j ih =>
    cases m with
    | zero => omega
    | succ m =>
      have hcount : (down ++ [c]).count c = down.count c + 1 := by simp
      rw [List.replicate_succ, List.cons_append, contest, if_pos (by simpa using hwin 0 (by omega)), ih m (by omega)]
      · rw [List.append_assoc, List.singleton_append, ← List.replicate_succ]
      · intro i hi
        rw [hcount, Nat.add_assoc, Nat.add_comm 1 i]
        exact hwin (i + 1) (by omega)
      · rw [hcount, Nat.add_assoc, Nat.add_comm 1 j]
        exact hlost

/-! ## Steady rows are fair -/

omit [DecidableEq α] in
theorem eq_replicate (h : ∀ d ∈ l, d = c) : l = List.replicate l.length c := List.eq_replicate_iff.2 ⟨rfl, h⟩

/-- In a steady row every order has one outcome, in which nobody is put down twice. -/
theorem fair_of_steady (h : Steady beats first second) : ∃ r : List α × Option α, (∀ c, r.1.count c ≤ 1) ∧
    ∀ first' second' : List α, first'.Perm first → second'.Perm second →
      SameOutcome (contest beats [] (first' ++ second')) r := by
  rcases h with ⟨hnodup, hbeats⟩ | ⟨c, hone, j, hj, hle, hwin, hlost⟩ | ⟨c, hnodup, hbeats, hone, j, hj, hle, hwin, hlost⟩
  · refine ⟨(first ++ second, none), fun c => List.nodup_iff_count_le_one.1 hnodup c, fun first' second' h1 h2 => ?_⟩
    have hperm := h1.append h2
    rw [contest_distinct (by simpa using hperm.nodup_iff.2 hnodup) fun c hc => hbeats c (hperm.mem_iff.1 hc)]
    exact ⟨hperm, rfl⟩
  · refine ⟨(List.replicate j c, some c), fun d => ?_, fun first' second' h1 _ => ?_⟩
    · have hcount := List.count_le_length (a := d) (l := List.replicate j c)
      rw [List.length_replicate] at hcount
      dsimp only
      omega
    · have hfirst : first' = List.replicate first.length c := by
        rw [← h1.length_eq]
        exact eq_replicate fun d hd => hone d (h1.mem_iff.1 hd)
      rw [hfirst, contest_replicate first.length hj (by simpa using hwin) (by simpa using hlost)]
      exact ⟨.refl _, rfl⟩
  · refine ⟨(first ++ List.replicate j c, some c), fun d => ?_, fun first' second' h1 h2 => ?_⟩
    · have hcount := List.nodup_iff_count_le_one.1 hnodup d
      dsimp only
      rw [List.count_append, List.count_replicate]
      by_cases hd : c = d
      · subst hd
        simp
        omega
      · simp [hd]
        exact hcount
    · have hsecond : second' = List.replicate second.length c := by
        rw [← h2.length_eq]
        exact eq_replicate fun d hd => hone d (h2.mem_iff.1 hd)
      have hfirst : contest beats [] first' = (first', none) :=
        contest_distinct (h1.nodup_iff.2 hnodup) fun d hd => hbeats d (h1.mem_iff.1 hd)
      have hcount : first'.count c = first.count c := h1.count_eq c
      rw [contest_append, hfirst, if_neg (by simp), hsecond, ← List.append_nil (List.replicate second.length c),
        contest_replicate second.length hj (by rw [hcount]; exact hwin) (by rw [hcount]; exact hlost)]
      exact ⟨h1.append (.refl _), rfl⟩

/-! ## Fair rows are steady -/

/-- The rivals with `c` in front of the others, and behind them. -/
def front (c : α) (l : List α) : List α := l.filter (· = c) ++ l.filter (· ≠ c)

def back (c : α) (l : List α) : List α := l.filter (· ≠ c) ++ l.filter (· = c)

theorem front_perm (c : α) (l : List α) : (front c l).Perm l := by
  have hperm := List.filter_append_perm (fun d => decide (d = c)) l
  simpa [front] using hperm

theorem back_perm (c : α) (l : List α) : (back c l).Perm l := List.perm_append_comm.trans (front_perm c l)

theorem filter_eq_replicate (c : α) (l : List α) : l.filter (· = c) = List.replicate (l.count c) c := by
  have hall : ∀ d ∈ l.filter (· = c), d = c := fun d hd => of_decide_eq_true (List.mem_filter.1 hd).2
  rw [eq_replicate hall, List.count, List.countP_eq_length_filter]
  rfl

theorem contest_extends (down l : List α) : ∃ s, (contest beats down l).1 = down ++ s := by
  cases h : (contest beats down l).2 with
  | none => exact ⟨l, contest_none h⟩
  | some c =>
    obtain ⟨before, -, -, -, hdown, -⟩ := contest_some h
    exact ⟨before, hdown⟩

omit [DecidableEq α] in
theorem first_loss {k j : Nat} (h : beats c (k + j) = false) :
    ∃ j' ≤ j, (∀ i < j', beats c (k + i) = true) ∧ beats c (k + j') = false := by
  have hex : ∃ j, beats c (k + j) = false := ⟨j, h⟩
  refine ⟨Nat.find hex, Nat.find_min' hex h, fun i hi => ?_, Nat.find_spec hex⟩
  simpa using Nat.find_min hex hi

/-- Where `c` first and `c` last come to the same, there is nobody but `c`. -/
theorem one_rival {down down' r r' : List α} (hdown : down.Perm down') {j : Nat} (hj : j < l.count c)
    (hwin : ∀ i < j, beats c (down.count c + i) = true) (hlost : beats c (down.count c + j) = false)
    (hsame : SameOutcome (contest beats down (front c l ++ r)) (contest beats down' (back c l ++ r'))) :
    ∀ d ∈ l, d = c := by
  have hfront : contest beats down (front c l ++ r) = (down ++ List.replicate j c, some c) := by
    unfold front
    rw [filter_eq_replicate, List.append_assoc]
    exact contest_replicate _ hj hwin hlost _
  rw [hfront] at hsame
  obtain ⟨hperm, hloser⟩ := hsame
  unfold back at hperm hloser
  rw [List.append_assoc] at hperm hloser
  cases hothers : (contest beats down' (l.filter (· ≠ c))).2 with
  | some e =>
    rw [contest_append, hothers] at hloser
    dsimp only [Option.isSome_some] at hloser
    rw [if_pos rfl, hothers] at hloser
    obtain ⟨before, after, hsplit, -⟩ := contest_some hothers
    have hmem : e ∈ l.filter (· ≠ c) := by
      rw [hsplit]
      simp
    have hne : e ≠ c := of_decide_eq_true (List.mem_filter.1 hmem).2
    exact absurd (Option.some.inj hloser).symm hne
  | none =>
    rw [contest_append, hothers, if_neg (by simp), contest_none hothers] at hperm
    obtain ⟨s, hs⟩ := @contest_extends α _ beats (down' ++ l.filter (· ≠ c)) (l.filter (· = c) ++ r')
    rw [hs] at hperm
    intro d hd
    by_contra hne
    have hcount := hperm.count_eq d
    have hzero : (List.replicate j c).count d = 0 := List.count_eq_zero.2 fun hin => hne (List.eq_of_mem_replicate hin)
    have hpos : 0 < (l.filter (· ≠ c)).count d := List.count_pos_iff.2 (List.mem_filter.2 ⟨hd, by simpa using hne⟩)
    rw [List.count_append, List.count_append, List.count_append, hzero, hdown.count_eq d] at hcount
    omega

theorem beats_of_contest (h : (contest beats down l).2 = none) (hnodup : (down ++ l).Nodup) :
    ∀ c ∈ l, beats c 0 = true := by
  induction l generalizing down with
  | nil =>
    intro c hc
    cases hc
  | cons d l ih =>
    have hd : d ∉ down := fun hin => (List.nodup_append.1 hnodup).2.2 d hin d List.mem_cons_self rfl
    rw [contest, List.count_eq_zero.2 hd] at h
    by_cases hb : beats d 0 = true
    · rw [if_pos hb] at h
      intro c hc
      rcases List.mem_cons.1 hc with rfl | hc
      · exact hb
      · exact ih h (by simpa using hnodup) c hc
    · rw [if_neg hb] at h
      cases h

/-- A row in which the order does not matter and nobody is put down twice is steady. -/
theorem steady_of_fair (hcount : ∀ c, (contest beats [] (first ++ second)).1.count c ≤ 1)
    (hsame : ∀ c, SameOutcome (contest beats [] (front c first ++ front c second))
      (contest beats [] (back c first ++ back c second))) : Steady beats first second := by
  cases hrow : (contest beats [] (first ++ second)).2 with
  | none =>
    have hall : (contest beats [] (first ++ second)).1 = first ++ second := contest_none hrow
    have hnodup : (first ++ second).Nodup := List.nodup_iff_count_le_one.2 fun c => hall ▸ hcount c
    exact .inl ⟨hnodup, beats_of_contest hrow (by simpa using hnodup)⟩
  | some c =>
    cases hfirst : (contest beats [] first).2 with
    | some e =>
      have hwhole : contest beats [] (first ++ second) = contest beats [] first := by
        rw [contest_append, hfirst, Option.isSome_some, if_pos rfl]
      rw [hwhole, hfirst] at hrow
      cases hrow
      obtain ⟨before, after, hsplit, -, hdown, hlost⟩ := contest_some hfirst
      have hlost' : beats c (([] : List α).count c + before.count c) = false := by simpa using hlost
      obtain ⟨j, hjle, hwin, hloses⟩ := first_loss hlost'
      have hj : j < first.count c := by
        rw [hsplit]
        simp
        omega
      have hone := one_rival (.refl []) hj hwin hloses (hsame c)
      refine .inr (.inl ⟨c, hone, j, ?_, ?_, by simpa using hwin, by simpa using hloses⟩)
      · exact Nat.lt_of_lt_of_le hj List.count_le_length
      · have hrun := contest_replicate first.length (Nat.lt_of_lt_of_le hj List.count_le_length) hwin hloses second
        rw [← eq_replicate hone] at hrun
        have hc := hcount c
        rw [hrun] at hc
        simpa using hc
    | none =>
      have hdown : contest beats [] first = (first, none) := Prod.ext (by simpa using contest_none hfirst) hfirst
      have hwhole : contest beats [] (first ++ second) = contest beats first second := by
        rw [contest_append, hfirst, if_neg (by simp), hdown]
      rw [hwhole] at hrow hcount
      obtain ⟨s, hs⟩ := @contest_extends α _ beats first second
      have hnodup : first.Nodup := List.nodup_iff_count_le_one.2 fun d => by
        have hd := hcount d
        rw [hs, List.count_append] at hd
        omega
      have hbeats := beats_of_contest hfirst (by simpa using hnodup)
      have horder : ∀ first' : List α, first'.Perm first → ∀ r, contest beats [] (first' ++ r) = contest beats first' r := by
        intro first' hperm r
        rw [contest_append, contest_distinct (by simpa using hperm.nodup_iff.2 hnodup) fun d hd =>
          hbeats d (hperm.mem_iff.1 hd), if_neg (by simp)]
        simp
      obtain ⟨before, after, hsplit, -, -, hlost⟩ := contest_some hrow
      rw [List.count_append] at hlost
      obtain ⟨j, hjle, hwin, hloses⟩ := first_loss hlost
      have hj : j < second.count c := by
        rw [hsplit]
        simp
        omega
      have hc := hsame c
      rw [horder _ (front_perm c first), horder _ (back_perm c first)] at hc
      have hfc : (front c first).count c = first.count c := (front_perm c first).count_eq c
      have hc' : SameOutcome (contest beats (front c first) (front c second ++ []))
          (contest beats (back c first) (back c second ++ [])) := by simpa using hc
      have hone : ∀ d ∈ second, d = c := by
        refine one_rival ((front_perm c first).trans (back_perm c first).symm) hj ?_ ?_ hc'
        · rw [hfc]
          exact hwin
        · rw [hfc]
          exact hloses
      have hjlen : j < second.length := Nat.lt_of_lt_of_le hj List.count_le_length
      refine .inr (.inr ⟨c, hnodup, hbeats, hone, j, hjlen, ?_, hwin, hloses⟩)
      have hrun := contest_replicate second.length hjlen hwin hloses []
      rw [← eq_replicate hone, List.append_nil] at hrun
      have hdouble := hcount c
      rw [hrun] at hdouble
      simpa using hdouble

end

end Metalogos.Lib
