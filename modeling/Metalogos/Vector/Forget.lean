import Mathlib.Analysis.Real.Sqrt
import Mathlib.Data.Finset.Card
import Mathlib.Data.List.TakeWhile

/-!
# The preview of a forget

`knn_candidates` (`src/builtins/memory_forget.rs:186-251`) asks the index for the `k` nearest rows,
collects the ids whose cosine similarity reaches the threshold, and doubles `k` until enough ids are
found or there is nothing more to find. It stops at the first row below the threshold, since the rows
come in order of distance. The distance is Euclidean, the threshold is on the cosine: a short vector
of another direction may come before a long one of the same direction.

`preview_iff`: what is returned is sound, and it is complete exactly when the rows before the first one
below the threshold hold enough ids, or all there are (`Covered`).
-/
namespace Metalogos.Vector

/-- A row of the index; `V` is what an embedding is. -/
structure Row (V : Type) where
  id : String
  embedding : V

/-- mirrors src/builtins/memory_forget.rs:175-178 -/
structure Candidate (α : Type) where
  id : String
  score : α

/-- mirrors src/builtins/memory_forget.rs:90 -/
def maxKnnK : Nat := 10000

section

variable {V α : Type} [LinearOrder α]

/-- An id is kept once, with its best similarity.
mirrors src/builtins/memory_forget.rs:234-240 -/
def note : List (Candidate α) → String → α → List (Candidate α)
  | [], id, sim => [⟨id, sim⟩]
  | c :: cs, id, sim =>
    if c.id = id then (if c.score < sim then { c with score := sim } else c) :: cs else c :: note cs id sim

/-- What a scan depends on: the dimension check with its message, the similarity to the query, the threshold, the number of ids
asked for and the ids forgotten already. -/
structure Scan (V α : Type) where
  mismatch : V → Option String
  sim : V → α
  threshold : α
  maxForget : Nat
  forgotten : List String

variable (q : Scan V α)

/-- One pass over a window: the candidates, the rows read, and whether one was below the threshold.
mirrors src/builtins/memory_forget.rs:210-243 -/
def scanWindow : List (Row V) → List (Candidate α) → Except String (List (Candidate α) × Nat × Bool)
  | [], cs => .ok (cs, 0, false)
  | row :: rows, cs =>
    match q.mismatch row.embedding with
    | some e => .error e
    | none =>
      if q.sim row.embedding < q.threshold then .ok (cs, 1, true)
      else (scanWindow rows (if row.id ∈ q.forgotten then cs else note cs row.id (q.sim row.embedding))).map
        fun (cs, returned, tail) => (cs, returned + 1, tail)

/-- The loop over growing windows; `order` are all rows as the index returns them.
mirrors src/builtins/memory_forget.rs:195-250 -/
def knnLoop (order : List (Row V)) (k : Nat) (hk : 0 < k) : Except String (List (Candidate α)) :=
  match scanWindow q (order.take k) [] with
  | .error e => .error e
  | .ok (cs, returned, tail) =>
    if h : q.maxForget ≤ cs.length ∨ tail = true ∨ returned < k ∨ maxKnnK ≤ k then .ok (cs.take q.maxForget)
    else knnLoop order (min (k * 2) maxKnnK) (by
      have hlt : 0 < maxKnnK := by decide
      omega)
termination_by maxKnnK - k
decreasing_by
  simp only [not_or, not_le] at h
  omega

/-- mirrors src/builtins/memory_forget.rs:186-251 -/
def knnCandidates (order : List (Row V)) : Except String (List (Candidate α)) :=
  knnLoop q order (max q.maxForget 1) (by omega)

/-! ## What a pass collects -/

/-- The row reaches the threshold. -/
def Scan.reaches (row : Row V) : Bool := decide (q.threshold ≤ q.sim row.embedding)

/-- The ids a list of rows names and that are not forgotten. -/
def Scan.ids (rows : List (Row V)) : Finset String :=
  ((rows.map (·.id)).filter (· ∉ q.forgotten)).toFinset

variable {q}

omit [LinearOrder α] in
theorem mem_ids {rows : List (Row V)} {id : String} :
    id ∈ q.ids rows ↔ id ∉ q.forgotten ∧ ∃ row ∈ rows, row.id = id := by
  unfold Scan.ids
  simp [and_comm]

theorem mem_note {cs : List (Candidate α)} {id x : String} {sim : α} :
    x ∈ (note cs id sim).map (·.id) ↔ x ∈ cs.map (·.id) ∨ x = id := by
  induction cs with
  | nil => simp [note]
  | cons c cs ih =>
    unfold note
    by_cases hc : c.id = id
    · rw [if_pos hc]
      have hid : (if c.score < sim then { c with score := sim } else c).id = c.id := by split_ifs <;> rfl
      rw [List.map_cons, List.map_cons, hid, List.mem_cons, hc]
      tauto
    · rw [if_neg hc, List.map_cons, List.mem_cons, ih, List.map_cons, List.mem_cons, or_assoc]

theorem nodup_note {cs : List (Candidate α)} {id : String} {sim : α} (h : (cs.map (·.id)).Nodup) :
    ((note cs id sim).map (·.id)).Nodup := by
  induction cs with
  | nil => simp [note]
  | cons c cs ih =>
    rw [List.map_cons, List.nodup_cons] at h
    unfold note
    by_cases hc : c.id = id
    · rw [if_pos hc]
      have hid : (if c.score < sim then { c with score := sim } else c).id = c.id := by split_ifs <;> rfl
      rw [List.map_cons, hid]
      exact List.nodup_cons.2 h
    · rw [if_neg hc, List.map_cons]
      refine List.nodup_cons.2 ⟨fun hmem => ?_, ih h.2⟩
      rcases mem_note.1 hmem with hmem | hmem
      · exact h.1 hmem
      · exact hc hmem

/-- A pass over rows of the right dimension: it collects the ids before the first row below the threshold. -/
theorem scanWindow_spec {rows : List (Row V)} (hfits : ∀ row ∈ rows, q.mismatch row.embedding = none) :
    ∀ {cs : List (Candidate α)}, (cs.map (·.id)).Nodup → ∃ cs' returned tail,
      scanWindow q rows cs = .ok (cs', returned, tail) ∧ (cs'.map (·.id)).Nodup ∧
      (∀ id, id ∈ cs'.map (·.id) ↔ id ∈ cs.map (·.id) ∨ id ∈ q.ids (rows.takeWhile q.reaches)) ∧
      (tail = true → ∃ row ∈ rows, q.reaches row = false) ∧
      (tail = false → (∀ row ∈ rows, q.reaches row = true) ∧ returned = rows.length) := by
  induction rows with
  | nil =>
    intro cs hcs
    exact ⟨cs, 0, false, rfl, hcs, by simp [Scan.ids], by simp, by simp⟩
  | cons row rows ih =>
    intro cs hcs
    obtain ⟨hrow, hrows⟩ := List.forall_mem_cons.1 hfits
    unfold scanWindow
    rw [hrow]
    by_cases hsim : q.sim row.embedding < q.threshold
    · have hreach : q.reaches row = false := by simpa [Scan.reaches] using hsim
      refine ⟨cs, 1, true, by simp [hsim], hcs, fun id => ?_, fun _ => ⟨row, List.mem_cons_self, hreach⟩, by simp⟩
      rw [List.takeWhile_cons_of_neg (by simp [hreach])]
      simp [Scan.ids]
    · have hreach : q.reaches row = true := by simpa [Scan.reaches] using hsim
      have hnote : ((if row.id ∈ q.forgotten then cs else note cs row.id (q.sim row.embedding)).map (·.id)).Nodup := by
        split_ifs
        · exact hcs
        · exact nodup_note hcs
      obtain ⟨cs', returned, tail, hscan, hnodup, hmem, htail, hno⟩ := ih hrows hnote
      refine ⟨cs', returned + 1, tail, ?_, hnodup, fun id => ?_, fun ht => ?_, fun ht => ?_⟩
      · simp only [if_neg hsim, hscan]
        rfl
      · rw [hmem, List.takeWhile_cons_of_pos hreach, mem_ids, mem_ids]
        by_cases hf : row.id ∈ q.forgotten
        · rw [if_pos hf]
          constructor
          · rintro (h | ⟨h, r, hr, rfl⟩)
            · exact .inl h
            · exact .inr ⟨h, r, List.mem_cons_of_mem row hr, rfl⟩
          · rintro (h | ⟨h, r, hr, rfl⟩)
            · exact .inl h
            · rcases List.mem_cons.1 hr with rfl | hr
              · exact absurd hf h
              · exact .inr ⟨h, r, hr, rfl⟩
        · rw [if_neg hf, mem_note]
          constructor
          · rintro ((h | rfl) | ⟨h, r, hr, rfl⟩)
            · exact .inl h
            · exact .inr ⟨hf, row, List.mem_cons_self, rfl⟩
            · exact .inr ⟨h, r, List.mem_cons_of_mem row hr, rfl⟩
          · rintro (h | ⟨h, r, hr, rfl⟩)
            · exact .inl (.inl h)
            · rcases List.mem_cons.1 hr with rfl | hr
              · exact .inl (.inr rfl)
              · exact .inr ⟨h, r, hr, rfl⟩
      · obtain ⟨r, hr, hb⟩ := htail ht
        exact ⟨r, List.mem_cons_of_mem row hr, hb⟩
      · obtain ⟨hall, hret⟩ := hno ht
        exact ⟨List.forall_mem_cons.2 ⟨hreach, hall⟩, by rw [hret, List.length_cons]⟩

/-- What the loop ends with: the candidates of some window, and why it stopped there. -/
structure Stops (q : Scan V α) (order : List (Row V)) (cs : List (Candidate α)) : Prop where
  window : ∃ k, (∀ id, id ∈ cs.map (·.id) ↔ id ∈ q.ids ((order.take k).takeWhile q.reaches)) ∧
    (q.maxForget ≤ cs.length ∨ (∃ row ∈ order.take k, q.reaches row = false) ∨ order.length < k ∨ maxKnnK ≤ k)
  nodup : (cs.map (·.id)).Nodup

theorem knnLoop_spec {order : List (Row V)} (hfits : ∀ row ∈ order, q.mismatch row.embedding = none) (k : Nat)
    (hk : 0 < k) : ∃ cs, knnLoop q order k hk = .ok (cs.take q.maxForget) ∧ Stops q order cs := by
  have hwindow : ∀ row ∈ order.take k, q.mismatch row.embedding = none :=
    fun row hrow => hfits row (List.mem_of_mem_take hrow)
  have hnil : (([] : List (Candidate α)).map (·.id)).Nodup := List.nodup_nil
  obtain ⟨cs, returned, tail, hscan, hnodup, hmem, htail, hno⟩ := scanWindow_spec hwindow hnil
  rw [knnLoop, hscan]
  dsimp only
  split_ifs with hstop
  · refine ⟨cs, rfl, ⟨k, fun id => by rw [hmem]; simp, ?_⟩, hnodup⟩
    rcases hstop with hfull | ht | hret | hmax
    · exact .inl hfull
    · exact .inr (.inl (htail ht))
    · cases htl : tail with
      | true => exact .inr (.inl (htail htl))
      | false =>
        have hlen := (hno htl).2
        rw [hlen, List.length_take] at hret
        exact .inr (.inr (.inl (by omega)))
    · exact .inr (.inr (.inr hmax))
  · exact knnLoop_spec hfits (min (k * 2) maxKnnK) _
termination_by maxKnnK - k
decreasing_by
  simp only [not_or, not_le] at hstop
  omega

omit [LinearOrder α] in
/-- Distinct ids are as many as the candidates. -/
theorem card_ids {cs : List (Candidate α)} {rows : List (Row V)} (hnodup : (cs.map (·.id)).Nodup)
    (hmem : ∀ id, id ∈ cs.map (·.id) ↔ id ∈ q.ids rows) : (q.ids rows).card = cs.length := by
  have heq : q.ids rows = (cs.map (·.id)).toFinset := by
    ext id
    rw [List.mem_toFinset, hmem]
  rw [heq, List.toFinset_card_of_nodup hnodup, List.length_map]

/-- The rows before the first one below the threshold name enough ids, or all ids of rows that reach it. -/
def Covered (q : Scan V α) (order : List (Row V)) : Prop :=
  q.maxForget ≤ (q.ids (order.takeWhile q.reaches)).card ∨
    ∀ row ∈ order, row.id ∉ q.forgotten → q.reaches row = true → row.id ∈ q.ids (order.takeWhile q.reaches)

theorem takeWhile_take_of_exists {β : Type} {p : β → Bool} {l : List β} {k : Nat} (h : ∃ x ∈ l.take k, p x = false) :
    (l.take k).takeWhile p = l.takeWhile p := by
  obtain ⟨x, hx, hp⟩ := h
  conv_rhs => rw [← List.take_append_drop k l, List.takeWhile_append]
  rw [if_neg]
  intro hlen
  have hall := List.takeWhile_eq_self_iff.1 ((List.takeWhile_prefix p).eq_of_length hlen)
  rw [hall x hx] at hp
  cases hp

theorem takeWhile_take_subset {β : Type} (p : β → Bool) (l : List β) (k : Nat) :
    (l.take k).takeWhile p ⊆ l.takeWhile p := by
  conv_rhs => rw [← List.take_append_drop k l, List.takeWhile_append]
  split_ifs
  · exact fun x hx => List.mem_append_left _ ((List.takeWhile_sublist p).subset hx)
  · exact fun x hx => hx

/-- The loop returns sound candidates, and all there are exactly when the first rows cover them. -/
theorem knnCandidates_spec {order : List (Row V)} (hfits : ∀ row ∈ order, q.mismatch row.embedding = none) :
    ∃ result, knnCandidates q order = .ok result ∧ (result.map (·.id)).Nodup ∧
      (∀ c ∈ result, c.id ∉ q.forgotten ∧ ∃ row ∈ order, row.id = c.id ∧ q.reaches row = true) ∧
      (order.length ≤ maxKnnK → ((result.length < q.maxForget → ∀ row ∈ order, row.id ∉ q.forgotten →
        q.reaches row = true → row.id ∈ result.map (·.id)) ↔ Covered q order)) := by
  obtain ⟨cs, hcs, ⟨k, hmem, hwhy⟩, hnodup⟩ := knnLoop_spec hfits (max q.maxForget 1) (by omega)
  refine ⟨cs.take q.maxForget, hcs, ?_, fun c hc => ?_, fun hsmall => ?_⟩
  · rw [List.map_take]
    exact hnodup.sublist (List.take_sublist _ _)
  · have hin := (hmem c.id).1 (List.mem_map_of_mem (List.mem_of_mem_take hc))
    obtain ⟨hf, row, hrow, hid⟩ := mem_ids.1 hin
    refine ⟨hf, row, ?_, hid, List.mem_takeWhile_imp hrow⟩
    exact List.mem_of_mem_take ((List.takeWhile_sublist _).subset hrow)
  · by_cases hfull : q.maxForget ≤ cs.length
    · constructor
      · intro _
        refine .inl ?_
        rw [← card_ids hnodup hmem] at hfull
        refine le_trans hfull (Finset.card_le_card fun id hid => ?_)
        obtain ⟨hf, row, hrow, hid⟩ := mem_ids.1 hid
        refine mem_ids.2 ⟨hf, row, ?_, hid⟩
        exact takeWhile_take_subset q.reaches order k hrow
      · intro _ hlt
        rw [List.length_take] at hlt
        omega
    · -- the window holds every row up to the first one below the threshold
      have hwindow : (order.take k).takeWhile q.reaches = order.takeWhile q.reaches := by
        rcases hwhy with h | h | h | h
        · exact absurd h hfull
        · exact takeWhile_take_of_exists h
        · rw [List.take_of_length_le (le_of_lt h)]
        · rw [List.take_of_length_le (le_trans hsmall h)]
      rw [hwindow] at hmem
      have htake : cs.take q.maxForget = cs := List.take_of_length_le (by omega)
      rw [htake]
      constructor
      · intro h
        refine .inr fun row hrow hf hr => ?_
        exact (hmem row.id).1 (h (by omega) row hrow hf hr)
      · rintro (hmany | hall) _ row hrow hf hr
        · rw [card_ids hnodup hmem] at hmany
          exact absurd hmany hfull
        · exact (hmem row.id).2 (hall row hrow hf hr)

end

/-! ## Over the reals -/

open Real

/-- mirrors src/builtins/memory_forget.rs:105-120 -/
noncomputable def cosineSimilarity (a b : List ℝ) : ℝ :=
  let dot := (List.zipWith (· * ·) a b).sum
  let na := (a.map (· ^ 2)).sum
  let nb := (b.map (· ^ 2)).sum
  if na = 0 ∨ nb = 0 then 0 else dot / (√na * √nb)

/-- The distance of a `vec0` column that declares none: `embedding float[n]`.
mirrors src/builtins/vector.rs:326-331 -/
noncomputable def euclidean (a b : List ℝ) : ℝ := √((List.zipWith (fun x y => (x - y) ^ 2) a b).sum)

/-- A `vec0` table keeps embeddings of one dimension. -/
structure VecTable where
  dim : Nat
  rows : List (Row (List ℝ))
  dim_eq : ∀ row ∈ rows, row.embedding.length = dim

/-- A call of the preview; the arguments were validated. -/
structure Preview where
  table : VecTable
  query : List ℝ
  threshold : ℝ
  maxForget : Nat
  forgotten : List String
  query_dim : query.length = table.dim
  threshold_mem : 0 ≤ threshold ∧ threshold ≤ 1
  maxForget_mem : 1 ≤ maxForget ∧ maxForget ≤ maxKnnK

/-- mirrors src/builtins/memory_forget.rs:214-227 -/
noncomputable def Preview.scan (p : Preview) (builtin name : String) : Scan (List ℝ) ℝ where
  mismatch v := if v.length ≠ p.query.length then
      some (builtin ++ "(): stored embedding dim " ++ toString v.length ++ " != table dim " ++ toString p.query.length
        ++ " for table '" ++ name ++ "'")
    else none
  sim := cosineSimilarity p.query
  threshold := p.threshold
  maxForget := p.maxForget
  forgotten := p.forgotten

/-- What the index answers: its rows, the nearest first. -/
structure Nearest (p : Preview) where
  order : List (Row (List ℝ))
  perm : order.Perm p.table.rows
  sorted : order.Pairwise fun a b => euclidean p.query a.embedding ≤ euclidean p.query b.embedding

/-- What is returned is sound, and complete exactly when the rows in front cover all there is. -/
theorem preview_iff (p : Preview) (near : Nearest p) (builtin name : String) :
    ∃ result, knnCandidates (p.scan builtin name) near.order = .ok result ∧
      ((result.map (·.id)).Nodup ∧ ∀ c ∈ result, c.id ∉ p.forgotten ∧
        ∃ row ∈ p.table.rows, row.id = c.id ∧ p.threshold ≤ cosineSimilarity p.query row.embedding) ∧
      ((p.table.rows.length ≤ maxKnnK → result.length < p.maxForget → ∀ row ∈ p.table.rows, row.id ∉ p.forgotten →
          p.threshold ≤ cosineSimilarity p.query row.embedding → row.id ∈ result.map (·.id)) ↔
        (p.table.rows.length ≤ maxKnnK → Covered (p.scan builtin name) near.order)) := by
  have hfits : ∀ row ∈ near.order, (p.scan builtin name).mismatch row.embedding = none := by
    intro row hrow
    refine if_neg (not_not.2 ?_)
    rw [p.table.dim_eq row (near.perm.mem_iff.1 hrow), p.query_dim]
  have hreach (row : Row (List ℝ)) : (p.scan builtin name).reaches row = true ↔
      p.threshold ≤ cosineSimilarity p.query row.embedding := decide_eq_true_iff
  obtain ⟨result, hres, hnodup, hsound, hcomplete⟩ := knnCandidates_spec hfits
  refine ⟨result, hres, ⟨hnodup, fun c hc => ?_⟩, ?_⟩
  · obtain ⟨hf, row, hrow, hid, hr⟩ := hsound c hc
    exact ⟨hf, row, near.perm.mem_iff.1 hrow, hid, (hreach row).1 hr⟩
  · rw [← near.perm.length_eq]
    refine imp_congr_right fun hsmall => ?_
    rw [← hcomplete hsmall]
    simp only [near.perm.mem_iff, hreach]
    rfl

local instance ten_ge_two : Nat.AtLeastTwo 10 := ⟨by decide⟩

/-- One row opposite to the query and near it, one in its direction and far away. -/
noncomputable def Sample.opposite : Preview where
  table := ⟨1, [⟨"near", [-1]⟩, ⟨"far", [10]⟩], by simp⟩
  query := [1]
  threshold := 1 / 2
  maxForget := 5
  forgotten := []
  query_dim := rfl
  threshold_mem := by norm_num
  maxForget_mem := by decide

noncomputable def Sample.oppositeNearest : Nearest Sample.opposite where
  order := [⟨"near", [-1]⟩, ⟨"far", [10]⟩]
  perm := List.Perm.refl _
  sorted := by
    refine List.pairwise_pair.2 (Real.sqrt_le_sqrt ?_)
    norm_num [Sample.opposite]

open Sample in
/-- The row below the threshold comes first, and the one with similarity 1 is not found. -/
theorem preview_incomplete : ¬ ∀ (p : Preview) (near : Nearest p) (builtin name : String) (result : List (Candidate ℝ)),
    knnCandidates (p.scan builtin name) near.order = .ok result → p.table.rows.length ≤ maxKnnK →
    result.length < p.maxForget → ∀ row ∈ p.table.rows, row.id ∉ p.forgotten →
      p.threshold ≤ cosineSimilarity p.query row.embedding → row.id ∈ result.map (·.id) := by
  intro h
  have hnear : ¬ (1 / 2 : ℝ) ≤ cosineSimilarity [1] [-1] := by
    norm_num [cosineSimilarity]
  have hfar : (1 / 2 : ℝ) ≤ cosineSimilarity [1] [10] := by
    have hone : √((1 : ℝ) ^ 2) = 1 := Real.sqrt_sq (by norm_num)
    have hroot : √((10 : ℝ) ^ 2) = 10 := Real.sqrt_sq (by norm_num)
    have hpos : ¬ ((1 : ℝ) ^ 2 + 0 = 0 ∨ (10 : ℝ) ^ 2 + 0 = 0) := by norm_num
    show (1 / 2 : ℝ) ≤ if (1 : ℝ) ^ 2 + 0 = 0 ∨ (10 : ℝ) ^ 2 + 0 = 0 then 0
      else (1 * 10 + 0) / (√((1 : ℝ) ^ 2 + 0) * √((10 : ℝ) ^ 2 + 0))
    rw [if_neg hpos]
    simp only [add_zero]
    rw [hone, hroot]
    norm_num
  have hempty : knnCandidates (opposite.scan "memory_forget_preview" "docs") oppositeNearest.order = .ok [] := by
    have hscan : scanWindow (opposite.scan "memory_forget_preview" "docs") (oppositeNearest.order.take 5) [] =
        .ok ([], 1, true) := by
      have hlt : cosineSimilarity [1] [-1] < (1 / 2 : ℝ) := not_le.1 hnear
      show scanWindow _ (⟨"near", [-1]⟩ :: _) [] = _
      rw [scanWindow]
      exact if_pos hlt
    unfold knnCandidates
    show knnLoop _ _ 5 (by omega) = _
    rw [knnLoop, hscan]
    rfl
  have hfound := h opposite oppositeNearest _ _ [] hempty (by decide) (by decide) ⟨"far", [10]⟩ (by simp [opposite])
    (by simp [opposite]) hfar
  simp at hfound

end Metalogos.Vector
