import Mathlib.Data.List.Sort

/-!
# First writer wins

A table of guarded writes is run in order. A rule has a key, the place it writes; a rule whose key was
written before in the same run is passed over. What a rule does when it gets its turn is `consider`: it
passes, writes, or stops the run.

* `Writers.firstWins`: after a run every place holds what the first rule that wrote it put there, and
  the places no rule wrote hold what they held before.
* `Writers.run_simulates`: two tables whose rules agree at every turn agree over the run.
* `byPriority`: the stable order of the tables, which commutes with dropping rules.
-/
namespace Metalogos.Lib

/-! ## The order of a table -/

section Priority

variable {R R' : Type}

/-- At least the priority of the other. -/
def Before (prio : R → Int) (a b : R) : Prop := prio b ≤ prio a

instance (prio : R → Int) : DecidableRel (Before prio) := fun a b =>
  inferInstanceAs (Decidable (prio b ≤ prio a))

instance (prio : R → Int) : Std.Total (Before prio) := ⟨fun a b => le_total (prio b) (prio a)⟩

instance (prio : R → Int) : IsTrans R (Before prio) := ⟨fun _ _ _ hab hbc => le_trans hbc hab⟩

/-- Descending priority; rules of one priority stay in order. -/
def byPriority (prio : R → Int) (rs : List R) : List R := rs.insertionSort (Before prio)

theorem byPriority_pairwise (prio : R → Int) (rs : List R) :
    (byPriority prio rs).Pairwise (Before prio) :=
  List.pairwise_insertionSort _ rs

theorem byPriority_idem (prio : R → Int) (rs : List R) :
    byPriority prio (byPriority prio rs) = byPriority prio rs :=
  (byPriority_pairwise prio rs).insertionSort_eq

theorem byPriority_map (prio : R → Int) (prio' : R' → Int) (f : R → R') (rs : List R)
    (h : ∀ r, prio' (f r) = prio r) : (byPriority prio rs).map f = byPriority prio' (rs.map f) := by
  apply List.map_insertionSort
  intro a _ b _
  rw [Before, Before, h, h]

/-- The rules of one priority are there in order. -/
theorem byPriority_class (prio : R → Int) (rs : List R) (n : Int) :
    (byPriority prio rs).filter (prio · = n) = rs.filter (prio · = n) := by
  have hsub : (rs.filter (prio · = n)).Sublist (byPriority prio rs) := by
    apply List.sublist_insertionSort
    · rw [List.pairwise_filter]
      refine List.pairwise_of_forall_mem_list fun a _ b _ ha hb => ?_
      simp only [decide_eq_true_eq] at ha hb
      exact le_of_eq (hb.trans ha.symm)
    · exact List.filter_sublist
  have hsub' := hsub.filter (prio · = n)
  rw [List.filter_filter] at hsub'
  simp only [Bool.and_self] at hsub'
  refine (hsub'.eq_of_length ?_).symm
  exact ((List.perm_insertionSort (Before prio) rs).filter _).length_eq.symm

/-- Sorted lists with the same classes are one list. -/
theorem eq_of_classes {prio : R → Int} : ∀ {xs ys : List R},
    xs.Pairwise (Before prio) →
    ys.Pairwise (Before prio) →
    (∀ n, xs.filter (prio · = n) = ys.filter (prio · = n)) → xs = ys := by
  intro xs
  induction xs with
  | nil =>
    intro ys _ _ h
    cases ys with
    | nil => rfl
    | cons y ys => simpa using h (prio y)
  | cons x xs ih =>
    intro ys hx hy h
    cases ys with
    | nil => simpa using h (prio x)
    | cons y ys =>
      rw [List.pairwise_cons] at hx hy
      -- each head is in a class of the other list, so neither is below the other
      have hyx : y ∈ x :: xs := by
        have : y ∈ (x :: xs).filter (prio · = prio y) := by rw [h]; simp
        exact (List.mem_filter.mp this).1
      have hxy : x ∈ y :: ys := by
        have : x ∈ (y :: ys).filter (prio · = prio x) := by rw [← h]; simp
        exact (List.mem_filter.mp this).1
      have hp : prio x = prio y := by
        rcases List.mem_cons.mp hyx with rfl | hm
        · rfl
        rcases List.mem_cons.mp hxy with rfl | hm'
        · rfl
        exact le_antisymm (hy.1 x hm') (hx.1 y hm)
      have hhead := h (prio x)
      rw [List.filter_cons_of_pos (by simp), List.filter_cons_of_pos (by simp [hp]),
        List.cons.injEq] at hhead
      obtain ⟨rfl, htail⟩ := hhead
      rw [ih hx.2 hy.2 fun n => ?_]
      by_cases hn : prio x = n
      · rw [← hn, htail]
      · have := h n
        rwa [List.filter_cons_of_neg (by simpa using hn),
          List.filter_cons_of_neg (by simpa using hn)] at this

/-- Dropping rules before or after the sort is the same. -/
theorem byPriority_filter (prio : R → Int) (p : R → Bool) (rs : List R) :
    byPriority prio (rs.filter p) = (byPriority prio rs).filter p := by
  refine eq_of_classes (byPriority_pairwise prio _) ((byPriority_pairwise prio rs).filter p)
    fun n => ?_
  rw [byPriority_class, List.filter_filter, List.filter_filter]
  simp only [Bool.and_comm _ (p _)]
  rw [← List.filter_filter, ← List.filter_filter, byPriority_class]

end Priority

/-! ## Runs -/

/-- What a rule does on its turn. -/
inductive Verdict (S E : Type) where
  | pass (s : S)
  | wrote (s : S)
  | stop (e : E) (s : S)

/-- A table of guarded writes: `R` the rules, `K` the places, `S` the state. A rule without a key is
never considered. -/
structure Writers (R K S E : Type) where
  key : R → Option K
  consider : R → S → Verdict S E

variable {R R' K S S' E E' V : Type} [DecidableEq K]

namespace Writers

/-- One rule after another, with the places written so far. -/
def run (m : Writers R K S E) : List R → S × List K → Except E Unit × S × List K
  | [], st => (.ok (), st)
  | r :: rs, (s, written) =>
    match m.key r with
    | none => m.run rs (s, written)
    | some k =>
      if k ∈ written then m.run rs (s, written)
      else match m.consider r s with
        | .pass s => m.run rs (s, written)
        | .wrote s => m.run rs (s, k :: written)
        | .stop e s => (.error e, s, written)

variable {m : Writers R K S E} {m' : Writers R' K S' E'}

theorem run_append (m : Writers R K S E) (as bs : List R) : ∀ st : S × List K,
    m.run (as ++ bs) st =
      match m.run as st with
      | (.ok _, st') => m.run bs st'
      | r => r := by
  induction as with
  | nil =>
    intro st
    rfl
  | cons a as ih =>
    rintro ⟨s, written⟩
    rw [List.cons_append, run, run]
    cases m.key a with
    | none => exact ih _
    | some k =>
      by_cases hk : k ∈ written
      · simp only [if_pos hk]
        exact ih _
      · simp only [if_neg hk]
        cases m.consider a s with
        | pass s => exact ih _
        | wrote s => exact ih _
        | stop e s => rfl

/-- Rules that never do anything can be dropped. -/
theorem run_filter (m : Writers R K S E) (p : R → Bool)
    (h : ∀ r s, p r = false → m.consider r s = .pass s) (rs : List R) : ∀ st : S × List K,
    m.run (rs.filter p) st = m.run rs st := by
  induction rs with
  | nil =>
    intro st
    rfl
  | cons r rs ih =>
    rintro ⟨s, written⟩
    cases hp : p r with
    | true =>
      rw [List.filter_cons_of_pos hp, run, run]
      simp only [ih]
    | false =>
      rw [List.filter_cons_of_neg (by simp [hp]), ih]
      conv_rhs => rw [run]
      rw [h r s hp]
      cases m.key r with
      | none => rfl
      | some k => simp only [ite_self]

/-! ### The first writer -/

/-- A rule changes no place but its own, and that only when it writes. -/
structure Local (m : Writers R K S E) (read : S → K → V) : Prop where
  pass : ∀ {r s s'}, m.consider r s = .pass s' → ∀ k, read s' k = read s k
  wrote : ∀ {r s s'}, m.consider r s = .wrote s' → ∀ k, m.key r ≠ some k → read s' k = read s k
  stop : ∀ {r s e s'}, m.consider r s = .stop e s' → ∀ k, read s' k = read s k

/-- After a run from nothing written: a place that was not written is as before, and a place that was
written is as the first rule that wrote it left it. -/
def FirstWins (m : Writers R K S E) (read : S → K → V) (rs : List R) (s : S) : Prop :=
  ∀ k, (k ∉ (m.run rs (s, [])).2.2 → read (m.run rs (s, [])).2.1 k = read s k) ∧
    (k ∈ (m.run rs (s, [])).2.2 → ∃ pre r post s₁ written s₂, rs = pre ++ r :: post ∧
      m.run pre (s, []) = (.ok (), s₁, written) ∧ m.key r = some k ∧ k ∉ written ∧
      m.consider r s₁ = .wrote s₂ ∧ read (m.run rs (s, [])).2.1 k = read s₂ k)

/-- What is written stays. -/
theorem run_keeps {read : S → K → V} (hl : m.Local read) (rs : List R) {k : K} :
    ∀ st : S × List K, k ∈ st.2 →
      k ∈ (m.run rs st).2.2 ∧ read (m.run rs st).2.1 k = read st.1 k := by
  induction rs with
  | nil =>
    intro st h
    exact ⟨h, rfl⟩
  | cons r rs ih =>
    rintro ⟨s, written⟩ h
    rw [run]
    split
    · exact ih _ h
    · rename_i k' hk'
      split_ifs with hmem
      · exact ih _ h
      · have hne : k' ≠ k := fun he => hmem (he ▸ h)
        split
        · rename_i s' hs
          have hr := ih (s', written) h
          exact ⟨hr.1, hr.2.trans (hl.pass hs k)⟩
        · rename_i s' hs
          have hr := ih (s', k' :: written) (List.mem_cons_of_mem _ h)
          exact ⟨hr.1, hr.2.trans (hl.wrote hs k (by simpa [hk'] using hne))⟩
        · rename_i e s' hs
          exact ⟨h, hl.stop hs k⟩

/-- A place that a run leaves unwritten is untouched. -/
theorem run_untouched {read : S → K → V} (hl : m.Local read) (rs : List R) {k : K} :
    ∀ st : S × List K, k ∉ (m.run rs st).2.2 → read (m.run rs st).2.1 k = read st.1 k := by
  induction rs with
  | nil =>
    intro st _
    rfl
  | cons r rs ih =>
    rintro ⟨s, written⟩ h
    rw [run] at h ⊢
    cases hk' : m.key r with
    | none =>
      simp only [hk'] at h ⊢
      exact ih _ h
    | some k' =>
      simp only [hk'] at h ⊢
      split_ifs at h ⊢ with hmem
      · exact ih _ h
      · cases hs : m.consider r s with
        | pass s' =>
          simp only [hs] at h ⊢
          exact (ih (s', written) h).trans (hl.pass hs k)
        | wrote s' =>
          simp only [hs] at h ⊢
          have hne : k' ≠ k := by
            rintro rfl
            exact h (run_keeps hl rs (s', k' :: written) List.mem_cons_self).1
          exact (ih (s', k' :: written) h).trans (hl.wrote hs k (by simpa [hk'] using hne))
        | stop e s' =>
          simp only [hs] at h ⊢
          exact hl.stop hs k

/-- A written place has its first writer in the table. -/
theorem run_writer {read : S → K → V} (hl : m.Local read) {k : K} : ∀ (rs : List R) (st : S × List K),
    k ∉ st.2 → k ∈ (m.run rs st).2.2 → ∃ pre r post s₁ written s₂, rs = pre ++ r :: post ∧
      m.run pre st = (.ok (), s₁, written) ∧ m.key r = some k ∧ k ∉ written ∧
      m.consider r s₁ = .wrote s₂ ∧ read (m.run rs st).2.1 k = read s₂ k := by
  intro rs
  induction rs with
  | nil =>
    intro st h h'
    exact absurd h' h
  | cons r rs ih =>
    rintro ⟨s, written⟩ h hk
    -- a writer in the rest is a writer here once the first rule let the run go on
    have later : ∀ st' : S × List K, m.run [r] (s, written) = (.ok (), st') →
        m.run (r :: rs) (s, written) = m.run rs st' → k ∉ st'.2 →
        ∃ pre r' post s₁ written' s₂, r :: rs = pre ++ r' :: post ∧
          m.run pre (s, written) = (.ok (), s₁, written') ∧ m.key r' = some k ∧ k ∉ written' ∧
          m.consider r' s₁ = .wrote s₂ ∧ read (m.run (r :: rs) (s, written)).2.1 k = read s₂ k := by
      intro st' h₁ h₂ hn
      rw [h₂] at hk ⊢
      obtain ⟨pre, r', post, s₁, w', s₂, rfl, hpre, hrest⟩ := ih st' hn hk
      refine ⟨r :: pre, r', post, s₁, w', s₂, rfl, ?_, hrest⟩
      rw [← List.singleton_append, run_append, h₁]
      exact hpre
    cases hk' : m.key r with
    | none => exact later (s, written) (by simp [run, hk']) (by rw [run, hk']) h
    | some k' =>
      by_cases hmem : k' ∈ written
      · exact later (s, written) (by simp [run, hk', hmem]) (by simp [run, hk', hmem]) h
      · cases hs : m.consider r s with
        | pass s' =>
          exact later (s', written) (by simp [run, hk', hmem, hs]) (by simp [run, hk', hmem, hs]) h
        | wrote s' =>
          have hrun : m.run (r :: rs) (s, written) = m.run rs (s', k' :: written) := by
            simp [run, hk', hmem, hs]
          by_cases he : k' = k
          · subst he
            refine ⟨[], r, rs, s, written, s', rfl, rfl, hk', h, hs, ?_⟩
            rw [hrun]
            exact (run_keeps hl rs (s', k' :: written) List.mem_cons_self).2
          · exact later (s', k' :: written) (by simp [run, hk', hmem, hs]) hrun (by
              simpa [h] using Ne.symm he)
        | stop e s' =>
          rw [run, hk'] at hk
          simp only [if_neg hmem, hs] at hk
          exact absurd hk h

theorem firstWins {read : S → K → V} (hl : m.Local read) (rs : List R) (s : S) :
    m.FirstWins read rs s := by
  intro k
  exact ⟨run_untouched hl rs (s, []), run_writer hl rs (s, []) List.not_mem_nil⟩

/-! ### Two tables -/

/-- Every rule that gets its turn gets it in a state where `P` holds. -/
def turns (m : Writers R K S E) (P : R → S → Bool) : List R → S × List K → Bool
  | [], _ => true
  | r :: rs, (s, written) =>
    match m.key r with
    | none => m.turns P rs (s, written)
    | some k =>
      if k ∈ written then m.turns P rs (s, written)
      else P r s && match m.consider r s with
        | .pass s => m.turns P rs (s, written)
        | .wrote s => m.turns P rs (s, k :: written)
        | .stop _ _ => true

/-- The two do the same on their turn. -/
inductive Verdict.Agree (rel : S → S' → Prop) : Verdict S E → Verdict S' E' → Prop
  | pass {s s'} : rel s s' → Agree rel (.pass s) (.pass s')
  | wrote {s s'} : rel s s' → Agree rel (.wrote s) (.wrote s')
  | stop {e s e' s'} : rel s s' → Agree rel (.stop e s) (.stop e' s')

/-- Two runs that end alike: both stop or neither, related states, the same places written. -/
structure EndsAlike (rel : S → S' → Prop) (x : Except E Unit × S × List K)
    (y : Except E' Unit × S' × List K) : Prop where
  status : x.1.isOk = y.1.isOk
  store : rel x.2.1 y.2.1
  written : x.2.2 = y.2.2

theorem run_simulates {rel : S → S' → Prop} {P : R → S → Bool} (f : R → R') :
    ∀ (rs : List R) (s : S) (s' : S') (written : List K),
      (∀ r ∈ rs, m'.key (f r) = m.key r ∧ ∀ s s', P r s = true → rel s s' →
        Verdict.Agree rel (m.consider r s) (m'.consider (f r) s')) →
      rel s s' → m.turns P rs (s, written) = true →
      EndsAlike rel (m.run rs (s, written)) (m'.run (rs.map f) (s', written)) := by
  intro rs
  induction rs with
  | nil =>
    intro s s' written _ hrel _
    exact ⟨rfl, hrel, rfl⟩
  | cons r rs ih =>
    intro s s' written hstep hrel ht
    rw [List.forall_mem_cons] at hstep
    obtain ⟨⟨hkey, hr⟩, hrest⟩ := hstep
    rw [List.map_cons, run, run, hkey]
    rw [turns] at ht
    cases hk : m.key r with
    | none =>
      simp only [hk] at ht ⊢
      exact ih s s' written hrest hrel ht
    | some k =>
      simp only [hk] at ht ⊢
      split_ifs at ht ⊢ with hmem
      · exact ih s s' written hrest hrel ht
      · rw [Bool.and_eq_true] at ht
        have hagree := hr s s' ht.1 hrel
        generalize m.consider r s = v at ht hagree
        generalize m'.consider (f r) s' = v' at hagree
        cases hagree with
        | pass h => exact ih _ _ _ hrest h ht.2
        | wrote h => exact ih _ _ _ hrest h ht.2
        | stop h => exact ⟨rfl, h, rfl⟩

/-- A table that reads its rules through `f`. -/
theorem run_map (m : Writers R' K S E) (f : R → R') (rs : List R) : ∀ st : S × List K,
    m.run (rs.map f) st = (Writers.mk (m.key ∘ f) (m.consider ∘ f)).run rs st := by
  induction rs with
  | nil =>
    intro st
    rfl
  | cons r rs ih =>
    rintro ⟨s, written⟩
    rw [List.map_cons, run, run]
    simp only [ih, Function.comp_apply]

end Writers

end Metalogos.Lib
