import Mathlib.Data.List.Infix

/-!
# Replacing a pattern

`str::replace` on a list whose elements are read as characters by `κ`: the occurrences of a pattern from left
to right, each looked for after the end of the one before. Proofs about it go by `replaceAll_induction`, its
run over the occurrences. A text cut into pieces with owners is replaced piece by piece when every
occurrence lies in a piece of one owner (`replaceAll_pieces`).
-/
namespace Metalogos.Lib

variable {α β : Type} [DecidableEq β]

def replaceFrom (κ : α → β) (pat : List β) (sub : List α) : Nat → List α → List α
  | _, [] => []
  | 0, x :: text =>
    if pat <+: (x :: text).map κ then sub ++ replaceFrom κ pat sub (pat.length - 1) text
    else x :: replaceFrom κ pat sub 0 text
  | n + 1, _ :: text => replaceFrom κ pat sub n text

/-- The pattern is not empty. -/
def replaceAll (κ : α → β) (pat : List β) (sub text : List α) : List α := replaceFrom κ pat sub 0 text

variable {κ : α → β} {pat : List β} {sub text : List α} {x : α}

theorem replaceFrom_drop : ∀ (n : Nat) (text : List α),
    replaceFrom κ pat sub n text = replaceAll κ pat sub (text.drop n)
  | 0, _ => rfl
  | _ + 1, [] => rfl
  | n + 1, _ :: text => replaceFrom_drop n text

theorem replaceAll_cons (hp : pat ≠ []) (x : α) (text : List α) :
    replaceAll κ pat sub (x :: text) =
      if pat <+: (x :: text).map κ then sub ++ replaceAll κ pat sub ((x :: text).drop pat.length)
      else x :: replaceAll κ pat sub text := by
  obtain ⟨c, cs, rfl⟩ := List.exists_cons_of_ne_nil hp
  show (if _ then _ else _) = _
  rw [replaceFrom_drop]
  rfl

theorem replaceAll_of_absent (hp : pat ≠ []) (h : ¬ pat <:+: text.map κ) :
    replaceAll κ pat sub text = text := by
  induction text with
  | nil => rfl
  | cons x text ih =>
    rw [replaceAll_cons hp, if_neg fun hpre => h hpre.isInfix]
    rw [ih fun hin => h (hin.trans (List.suffix_cons _ _).isInfix)]

variable (sub) in
/-- The first occurrence. -/
theorem replaceAll_of_present (hp : pat ≠ []) (h : pat <:+: text.map κ) : ∃ a m b, text = a ++ m ++ b ∧
    m.map κ = pat ∧ replaceAll κ pat sub text = a ++ sub ++ replaceAll κ pat sub b := by
  induction text with
  | nil => exact absurd (List.infix_nil.1 h) hp
  | cons x text ih =>
    rw [replaceAll_cons hp]
    by_cases hpre : pat <+: (x :: text).map κ
    · refine ⟨[], (x :: text).take pat.length, (x :: text).drop pat.length, by simp, ?_, ?_⟩
      · rw [List.map_take]
        exact (List.prefix_iff_eq_take.1 hpre).symm
      · rw [if_pos hpre, List.nil_append]
    · have hin : pat <:+: text.map κ := (List.infix_cons_iff.1 h).resolve_left hpre
      obtain ⟨a, m, b, rfl, hm, hr⟩ := ih hin
      exact ⟨x :: a, m, b, rfl, hm, by rw [if_neg hpre, hr]; rfl⟩

/-- The run of a replace: the text up to the first occurrence stays, and the rest of the run is on the text
after it. -/
theorem replaceAll_induction (hp : pat ≠ []) {motive : List α → List α → Prop}
    (rest : ∀ text, ¬ pat <:+: text.map κ → motive text text)
    (hit : ∀ a m b result, m.map κ = pat → motive b result → motive (a ++ m ++ b) (a ++ sub ++ result))
    (text : List α) : motive text (replaceAll κ pat sub text) := by
  induction hn : text.length using Nat.strong_induction_on generalizing text with
  | _ n ih =>
    by_cases hin : pat <:+: text.map κ
    · obtain ⟨a, m, b, rfl, hm, hr⟩ := replaceAll_of_present sub hp hin
      have hpos : 0 < m.length := by
        rw [← List.length_map (f := κ), hm]
        exact List.length_pos_iff.2 hp
      rw [hr]
      refine hit a m b _ hm (ih b.length ?_ b rfl)
      simp only [List.length_append] at hn
      omega
    · rw [replaceAll_of_absent hp hin]
      exact rest text hin

/-! ## What a replace keeps and adds -/

theorem mem_of_mem_replaceAll (hp : pat ≠ []) : x ∈ replaceAll κ pat sub text → x ∈ sub ∨ x ∈ text := by
  refine replaceAll_induction (motive := fun text result => x ∈ result → x ∈ sub ∨ x ∈ text) hp
    (fun _ _ h => .inr h) (fun a m b result _ ih h => ?_) text
  simp only [List.mem_append] at h ⊢
  rcases h with (h | h) | h
  · exact .inr (.inl (.inl h))
  · exact .inl h
  · exact (ih h).imp_right .inr

/-- An element the pattern has not is never replaced. -/
theorem mem_replaceAll (hp : pat ≠ []) (hx : κ x ∉ pat) : x ∈ text → x ∈ replaceAll κ pat sub text := by
  refine replaceAll_induction (motive := fun text result => x ∈ text → x ∈ result) hp
    (fun _ _ h => h) (fun a m b result hm ih h => ?_) text
  simp only [List.mem_append] at h ⊢
  rcases h with (h | h) | h
  · exact .inl (.inl h)
  · exact absurd (hm ▸ List.mem_map_of_mem h) hx
  · exact .inr (ih h)

/-- What holds of every element afterwards, for a property the elements of the pattern have anyway. -/
theorem forall_mem_replaceAll (hp : pat ≠ []) {P : α → Prop} (hP : ∀ x, κ x ∈ pat → P x) :
    (∀ x ∈ replaceAll κ pat sub text, P x) ↔
      (∀ x ∈ text, P x) ∧ (pat <:+: text.map κ → ∀ x ∈ sub, P x) := by
  constructor
  · refine fun h => ⟨fun x hx => ?_, fun hin x hx => h x ?_⟩
    · by_cases hk : κ x ∈ pat
      · exact hP x hk
      · exact h x (mem_replaceAll hp hk hx)
    · obtain ⟨a, m, b, -, -, hr⟩ := replaceAll_of_present sub hp hin
      rw [hr]
      exact List.mem_append_left _ (List.mem_append_right _ hx)
  · rintro ⟨htext, hsub⟩ x hx
    by_cases hin : pat <:+: text.map κ
    · exact (mem_of_mem_replaceAll hp hx).elim (hsub hin x) (htext x)
    · rw [replaceAll_of_absent hp hin] at hx
      exact htext x hx

/-- What neither the pattern nor the substitute has stays as it is, in its order. -/
theorem filter_replaceAll (hp : pat ≠ []) (p : α → Bool) (hpat : ∀ x, p x → κ x ∉ pat) (hsub : ∀ x ∈ sub, ¬ p x) :
    (replaceAll κ pat sub text).filter p = text.filter p := by
  refine replaceAll_induction (motive := fun text result => result.filter p = text.filter p) hp
    (fun _ _ => rfl) (fun a m b result hm ih => ?_) text
  have hm : m.filter p = [] := List.filter_eq_nil_iff.2 fun x hx hpx => hpat x hpx (hm ▸ List.mem_map_of_mem hx)
  have hsub : sub.filter p = [] := List.filter_eq_nil_iff.2 hsub
  simp only [List.filter_append, hm, hsub, ih, List.append_nil]

theorem map_replaceAll (hp : pat ≠ []) (text : List α) :
    (replaceAll κ pat sub text).map κ = replaceAll id pat (sub.map κ) (text.map κ) := by
  induction hn : text.length using Nat.strong_induction_on generalizing text with
  | _ n ih =>
    cases text with
    | nil => rfl
    | cons x text =>
      have hpos : 0 < pat.length := List.length_pos_iff.2 hp
      rw [replaceAll_cons hp, List.map_cons, replaceAll_cons hp, List.map_id, ← List.map_cons]
      simp only [List.length_cons] at hn
      split_ifs with hpre
      · rw [List.map_append, ih _ (by simp only [List.length_drop, List.length_cons]; omega) _ rfl, List.map_drop]
      · rw [List.map_cons, ih _ (by omega) _ rfl]

/-! ## Several replaces -/

/-- Replaces one after another, each pattern with its substitute. -/
def replaceEach (κ : α → β) (rs : List (List β × List α)) (text : List α) : List α :=
  rs.foldl (fun text r => replaceAll κ r.1 r.2 text) text

section Each

variable {rs : List (List β × List α)}

theorem mem_of_mem_replaceEach (hp : ∀ r ∈ rs, r.1 ≠ []) (h : x ∈ replaceEach κ rs text) :
    (∃ r ∈ rs, x ∈ r.2) ∨ x ∈ text := by
  induction rs generalizing text with
  | nil => exact .inr h
  | cons r rs ih =>
    rcases ih (fun q hq => hp q (List.mem_cons_of_mem _ hq)) h with ⟨q, hq, hx⟩ | hx
    · exact .inl ⟨q, List.mem_cons_of_mem _ hq, hx⟩
    · exact (mem_of_mem_replaceAll (hp r (List.mem_cons_self ..)) hx).imp_left fun hx => ⟨r, List.mem_cons_self .., hx⟩

theorem filter_replaceEach (hp : ∀ r ∈ rs, r.1 ≠ []) (p : α → Bool) (hpat : ∀ r ∈ rs, ∀ x, p x → κ x ∉ r.1)
    (hsub : ∀ r ∈ rs, ∀ x ∈ r.2, ¬ p x) : (replaceEach κ rs text).filter p = text.filter p := by
  induction rs generalizing text with
  | nil => rfl
  | cons r rs ih =>
    simp only [List.forall_mem_cons] at hp hpat hsub
    exact (ih hp.2 hpat.2 hsub.2).trans (filter_replaceAll hp.1 p hpat.1 hsub.1)

theorem map_replaceEach (hp : ∀ r ∈ rs, r.1 ≠ []) :
    (replaceEach κ rs text).map κ = replaceEach id (rs.map fun r => (r.1, r.2.map κ)) (text.map κ) := by
  induction rs generalizing text with
  | nil => rfl
  | cons r rs ih =>
    simp only [List.forall_mem_cons] at hp
    exact (ih hp.2).trans (by rw [map_replaceAll hp.1]; rfl)

end Each

/-! ## Piece by piece -/

/-- No occurrence that starts in `w` goes beyond it. -/
theorem replaceAll_append (hp : pat ≠ []) (t w : List α)
    (h : ∀ n < w.length, pat <+: (w.drop n ++ t).map κ → n + pat.length ≤ w.length) :
    replaceAll κ pat sub (w ++ t) = replaceAll κ pat sub w ++ replaceAll κ pat sub t := by
  have hpos : 0 < pat.length := List.length_pos_iff.2 hp
  induction hn : w.length using Nat.strong_induction_on generalizing w with
  | _ n ih =>
    cases w with
    | nil => rfl
    | cons x w =>
      have htail : ∀ k, 0 < k → k ≤ (x :: w).length →
          replaceAll κ pat sub ((x :: w).drop k ++ t) = replaceAll κ pat sub ((x :: w).drop k) ++ replaceAll κ pat sub t := by
        intro k hk hkw
        refine ih _ ?_ _ (fun i hi hocc => ?_) rfl
        · rw [← hn, List.length_drop]
          omega
        · rw [List.length_drop] at hi ⊢
          rw [List.drop_drop] at hocc
          have := h (k + i) (by omega) hocc
          omega
      rw [List.cons_append, replaceAll_cons hp, replaceAll_cons hp]
      by_cases hpre : pat <+: (x :: (w ++ t)).map κ
      · have hle : pat.length ≤ (x :: w).length := by
          have := h 0 (Nat.succ_pos _) hpre
          omega
        have hw : pat <+: (x :: w).map κ := by
          refine List.prefix_of_prefix_length_le hpre ?_ (by rwa [List.length_map])
          rw [← List.cons_append, List.map_append]
          exact List.prefix_append _ _
        rw [if_pos hpre, if_pos hw, ← List.cons_append, List.drop_append_of_le_length hle, htail _ hpos hle,
          List.append_assoc]
      · have hw : ¬ pat <+: (x :: w).map κ := by
          intro hw
          refine hpre (hw.trans ?_)
          rw [← List.cons_append, List.map_append]
          exact List.prefix_append _ _
        rw [if_neg hpre, if_neg hw, List.cons_append]
        exact congrArg (x :: ·) (htail 1 Nat.one_pos (Nat.succ_pos _))

variable {ι : Type} [DecidableEq ι]

/-- A piece of a text, with its owner if it has one. -/
abbrev Piece (ι α : Type) := Option ι × List α

def flatten (ps : List (Piece ι α)) : List α := ps.flatMap (·.2)

/-- The text cut at the words of a list: the first word that starts at a position is a piece of its owner, and
any other character is a piece of nobody. -/
def cutFrom [DecidableEq α] (words : List (ι × List α)) : Nat → List α → List (Piece ι α)
  | _, [] => []
  | 0, x :: text =>
    match words.find? fun w => w.2 <+: x :: text with
    | some w => (some w.1, w.2) :: cutFrom words (w.2.length - 1) text
    | none => (none, [x]) :: cutFrom words 0 text
  | n + 1, _ :: text => cutFrom words n text

def cut [DecidableEq α] (words : List (ι × List α)) (text : List α) : List (Piece ι α) := cutFrom words 0 text

/-- Every occurrence that starts in a piece ends in it, and the piece is `i`'s. -/
def Inside (κ : α → β) (pat : List β) (i : ι) : List (Piece ι α) → Prop
  | [] => True
  | p :: ps => (∀ n < p.2.length, pat <+: (p.2.drop n ++ flatten ps).map κ →
      p.1 = some i ∧ n + pat.length ≤ p.2.length) ∧ Inside κ pat i ps

instance decidableInside (i : ι) : ∀ ps : List (Piece ι α), Decidable (Inside κ pat i ps)
  | [] => .isTrue trivial
  | p :: ps =>
    have := decidableInside i ps
    inferInstanceAs (Decidable ((∀ n < p.2.length, pat <+: (p.2.drop n ++ flatten ps).map κ →
      p.1 = some i ∧ n + pat.length ≤ p.2.length) ∧ Inside κ pat i ps))

omit [DecidableEq ι] in
theorem flatten_cutFrom [DecidableEq α] {words : List (ι × List α)} (hw : ∀ w ∈ words, w.2 ≠ []) (n : Nat) (text : List α) :
    flatten (cutFrom words n text) = text.drop n := by
  induction n, text using cutFrom.induct words with
  | case1 n => simp [cutFrom, flatten]
  | case2 x text w hfind ih =>
    have hpre : w.2 <+: x :: text := by simpa using List.find?_some hfind
    obtain ⟨c, cs, hc⟩ := List.exists_cons_of_ne_nil (hw w (List.mem_of_find?_eq_some hfind))
    obtain ⟨rest, hrest⟩ := hpre
    rw [cutFrom, hfind]
    show w.2 ++ flatten (cutFrom words (w.2.length - 1) text) = _
    rw [ih]
    rw [hc, List.cons_append, List.cons.injEq] at hrest
    rw [hc, ← hrest.1, ← hrest.2]
    simp
  | case3 x text hfind ih =>
    rw [cutFrom, hfind]
    show x :: flatten (cutFrom words 0 text) = _
    rw [ih]
    rfl
  | case4 n x text ih =>
    rw [cutFrom, ih]
    rfl

omit [DecidableEq ι] in
theorem flatten_cut [DecidableEq α] {words : List (ι × List α)} (hw : ∀ w ∈ words, w.2 ≠ []) (text : List α) :
    flatten (cut words text) = text := flatten_cutFrom hw 0 text

/-- The pieces of one owner, each changed by itself. -/
def own (i : ι) (f : List α → List α) (ps : List (Piece ι α)) : List (Piece ι α) :=
  ps.map fun p => if p.1 = some i then (p.1, f p.2) else p

omit [DecidableEq β] in
/-- Where an occurrence starts. -/
theorem exists_prefix_of_present (hp : pat ≠ []) {w : List α} (h : pat <:+: w.map κ) :
    ∃ n < w.length, pat <+: (w.drop n).map κ := by
  obtain ⟨a, b, hab⟩ := h
  have hlen := congrArg List.length hab
  simp only [List.length_append, List.length_map] at hlen
  refine ⟨a.length, ?_, ?_⟩
  · have := List.length_pos_iff.2 hp
    omega
  · rw [List.map_drop, ← hab, List.append_assoc, List.drop_left]
    exact List.prefix_append _ _

variable (sub) in
theorem replaceAll_pieces (hp : pat ≠ []) {i : ι} {ps : List (Piece ι α)} (h : Inside κ pat i ps) :
    replaceAll κ pat sub (flatten ps) = flatten (own i (replaceAll κ pat sub) ps) := by
  induction ps with
  | nil => rfl
  | cons p ps ih =>
    have hother : p.1 ≠ some i → replaceAll κ pat sub p.2 = p.2 := by
      refine fun hi => replaceAll_of_absent hp fun hin => ?_
      obtain ⟨n, hn, hocc⟩ := exists_prefix_of_present hp hin
      refine hi (h.1 n hn (hocc.trans ?_)).1
      rw [List.map_append]
      exact List.prefix_append _ _
    have hpiece : (if p.1 = some i then (p.1, replaceAll κ pat sub p.2) else p).2 = replaceAll κ pat sub p.2 := by
      split_ifs with hi
      · rfl
      · exact (hother hi).symm
    show replaceAll κ pat sub (p.2 ++ flatten ps) = _ ++ flatten (own i (replaceAll κ pat sub) ps)
    rw [replaceAll_append hp _ _ fun n hn hocc => (h.1 n hn hocc).2, ih h.2]
    exact congrArg (· ++ flatten (own i (replaceAll κ pat sub) ps)) hpiece.symm

/-- Each pattern is only found in the pieces of `i`, in the text that is there when its turn comes. -/
def EachInside (κ : α → β) (i : ι) : List (List β × List α) → List (Piece ι α) → Prop
  | [], _ => True
  | r :: rs, ps => Inside κ r.1 i ps ∧ EachInside κ i rs (own i (replaceAll κ r.1 r.2) ps)

instance decidableEachInside (i : ι) : ∀ (rs : List (List β × List α)) (ps : List (Piece ι α)),
    Decidable (EachInside κ i rs ps)
  | [], _ => .isTrue trivial
  | r :: rs, ps =>
    have := decidableEachInside i rs (own i (replaceAll κ r.1 r.2) ps)
    inferInstanceAs (Decidable (Inside κ r.1 i ps ∧ EachInside κ i rs (own i (replaceAll κ r.1 r.2) ps)))

theorem own_own (i : ι) (f g : List α → List α) (ps : List (Piece ι α)) : own i g (own i f ps) = own i (g ∘ f) ps := by
  rw [own, own, own, List.map_map]
  refine List.map_congr_left fun p _ => ?_
  by_cases hi : p.1 = some i
  · simp [hi]
  · simp [hi]

/-- Different owners are changed in any order. -/
theorem own_comm {i j : ι} (hij : i ≠ j) (f g : List α → List α) (ps : List (Piece ι α)) :
    own i f (own j g ps) = own j g (own i f ps) := by
  rw [own, own, own, own, List.map_map, List.map_map]
  refine List.map_congr_left fun p _ => ?_
  by_cases hi : p.1 = some i
  · have hj : p.1 ≠ some j := fun hj => hij (Option.some.inj (hi.symm.trans hj))
    simp [hi, hij]
  · by_cases hj : p.1 = some j
    · simp [hj, hij.symm]
    · simp [hi, hj]

theorem replaceEach_pieces {i : ι} {rs : List (List β × List α)} (hp : ∀ r ∈ rs, r.1 ≠ []) {ps : List (Piece ι α)}
    (h : EachInside κ i rs ps) : replaceEach κ rs (flatten ps) = flatten (own i (replaceEach κ rs) ps) := by
  induction rs generalizing ps with
  | nil =>
    have hid : own i (replaceEach κ []) ps = ps := by
      refine (List.map_congr_left fun p _ => ?_).trans (List.map_id ps)
      split_ifs <;> rfl
    rw [hid]
    rfl
  | cons r rs ih =>
    have hstep := replaceAll_pieces r.2 (hp r (List.mem_cons_self ..)) h.1
    have hrest := ih (fun q hq => hp q (List.mem_cons_of_mem _ hq)) h.2
    rw [own_own] at hrest
    show replaceEach κ rs (replaceAll κ r.1 r.2 (flatten ps)) = _
    rw [hstep, hrest]
    rfl

end Metalogos.Lib
