import Mathlib.Algebra.Order.Field.Rat
import Mathlib.Algebra.Order.Round
import Mathlib.Data.Int.Log
import Mathlib.Data.Rat.Floor
import Mathlib.Tactic.Linarith
import Mathlib.Tactic.Positivity
import Mathlib.Tactic.Ring
import Metalogos.Lib.TopK

/-!
# Rank fusion

The hybrid mode of `vec_search` (`src/builtins/vector.rs:669-717`) and `recall_top_k` of the SQLite store
(`src/memory_store.rs:790-943`) merge two ranked lists: an id gets `1 / (60 + rank)` from each list, the sums are
sorted and the first `k` are returned. The sums are collected in hash maps, and the sort leaves equal sums in
the order in which the map was read: that order is a parameter here. A float is the number it stands for, and what
the operations do to their results is a parameter too (`Format`): rounding can part sums that are equal and make
equal what is not.

* `hybrid_iff`: the hits are a function of the lists alone, with each list counted once, exactly when neither
  list repeats an id and no two equal sums reach the first `k`.
* `Recall.orderIndependent`: so it is for `recall_top_k`, where equal scores inside one list matter too: the ranks are
  taken from a list that was read from a map.
-/
namespace Metalogos.Vector

open Metalogos.Lib

/-! ## Floats -/

/-- A binary format. An operation has its exact result, rounded: whole numbers of no more digits stay, and what is
rounded changes by half a unit of its last digit at most. No sum of ranks comes near the ends of the exponent, which
has no bound here. -/
structure Format (digits : ℕ) where
  round : ℚ → ℚ
  exact : ∀ n : ℕ, n < 2 ^ digits → round n = n
  error : ∀ x, 0 ≤ x → |round x - x| ≤ x / 2 ^ digits

/-- The nearest whole number, of two the even one. -/
def nearest (x : ℚ) : ℤ := if x = ⌊x⌋ + 1 / 2 ∧ Even ⌊x⌋ then ⌊x⌋ else round x

theorem nearest_error (x : ℚ) : |(nearest x : ℚ) - x| ≤ 1 / 2 := by
  unfold nearest
  split_ifs with htie
  · rw [show (⌊x⌋ : ℚ) - x = -(1 / 2) by linarith [htie.1]]
    norm_num
  · rw [abs_sub_comm]
    exact abs_sub_round x

theorem nearest_intCast (n : ℤ) : nearest n = n := by
  have hfloor : ⌊(n : ℚ)⌋ = n := Int.floor_intCast n
  rw [nearest, hfloor, if_neg (by norm_num), round_intCast]

/-- The unit of the last of `p` digits. -/
def lastUnit (p : ℕ) (x : ℚ) : ℚ := 2 ^ (Int.log 2 x + 1 - p)

theorem lastUnit_pos (p : ℕ) (x : ℚ) : 0 < lastUnit p x := zpow_pos (by norm_num) _

/-- Round to nearest, ties to even, to `p` digits. -/
def roundTo (p : ℕ) (x : ℚ) : ℚ := nearest (x / lastUnit p x) * lastUnit p x

theorem roundTo_error (p : ℕ) {x : ℚ} (hx : 0 ≤ x) : |roundTo p x - x| ≤ x / 2 ^ p := by
  have hu := lastUnit_pos p x
  rcases hx.eq_or_lt with rfl | hx
  · have h0 : nearest 0 = 0 := by exact_mod_cast nearest_intCast 0
    simp [roundTo, h0]
  have hsplit : roundTo p x - x = (nearest (x / lastUnit p x) - x / lastUnit p x) * lastUnit p x := by
    unfold roundTo
    rw [sub_mul, div_mul_cancel₀ x hu.ne']
  have hunit : lastUnit p x = 2 ^ Int.log 2 x * 2 / 2 ^ p := by
    unfold lastUnit
    rw [zpow_sub₀ (by norm_num), zpow_add₀ (by norm_num), zpow_one, zpow_natCast]
  have hlog : (2 : ℚ) ^ Int.log 2 x ≤ x := by exact_mod_cast Int.zpow_log_le_self (b := 2) (by norm_num) hx
  have hp : (0 : ℚ) < 2 ^ p := by positivity
  calc |roundTo p x - x| = |(nearest (x / lastUnit p x) : ℚ) - x / lastUnit p x| * lastUnit p x := by
        rw [hsplit, abs_mul, abs_of_pos hu]
    _ ≤ 1 / 2 * lastUnit p x := mul_le_mul_of_nonneg_right (nearest_error _) hu.le
    _ = 2 ^ Int.log 2 x / 2 ^ p := by rw [hunit]; ring
    _ ≤ x / 2 ^ p := div_le_div_of_nonneg_right hlog hp.le

theorem roundTo_exact (p n : ℕ) (h : n < 2 ^ p) : roundTo p n = n := by
  rcases Nat.eq_zero_or_pos n with rfl | hn
  · have h0 : nearest 0 = 0 := by exact_mod_cast nearest_intCast 0
    simp [roundTo, h0]
  have hlog : Int.log 2 (n : ℚ) < p := by
    rw [Int.log_natCast]
    exact_mod_cast Nat.log_lt_of_lt_pow (by omega) h
  -- the unit divides one, so the quotient is a whole number
  obtain ⟨k, hk⟩ : ∃ k : ℕ, (p : ℤ) - (Int.log 2 (n : ℚ) + 1) = k := Int.eq_ofNat_of_zero_le (by omega)
  have hunit : lastUnit p n = (2 ^ k)⁻¹ := by
    rw [lastUnit, show Int.log 2 (n : ℚ) + 1 - p = -(k : ℤ) by omega, zpow_neg, zpow_natCast]
  have hk0 : (2 : ℚ) ^ k ≠ 0 := by positivity
  have hquot : (n : ℚ) / lastUnit p n = ((n * 2 ^ k : ℕ) : ℤ) := by
    rw [hunit, div_inv_eq_mul]
    push_cast
    ring
  rw [roundTo, hquot, nearest_intCast, hunit]
  push_cast
  rw [mul_assoc, mul_inv_cancel₀ hk0, mul_one]

def binary (p : ℕ) : Format p := ⟨roundTo p, roundTo_exact p, fun _ => roundTo_error p⟩

def f64 : Format 53 := binary 53

def f32 : Format 24 := binary 24

namespace Format

variable {p : ℕ} (F : Format p)

def add (a b : ℚ) : ℚ := F.round (a + b)

def div (a b : ℚ) : ℚ := F.round (a / b)

end Format

/-! ## The two lists of `vec_search` -/

section

variable (F : Format 53)

/-- `1.0 / (RRF_K + rank as f64 + 1.0)`, for a place counted from 0. -/
def rrf (place : ℕ) : ℚ := F.div 1 (F.add (F.add 60 (F.round place)) 1)

/-- An entry of the map `rrf`: the sum and the distance, if the vector list had the id. -/
structure Fused where
  id : String
  score : ℚ
  distance : Option ℚ
  deriving DecidableEq

/-- `entry(id).or_insert((0.0, None))`, the sum, and the distance if there is one.
mirrors src/builtins/vector.rs:682-692 -/
def bump : List Fused → String → ℚ → Option ℚ → List Fused
  | [], id, t, d => [⟨id, F.add 0 t, d⟩]
  | e :: es, id, t, d =>
    if e.id = id then { e with score := F.add e.score t, distance := d.or e.distance } :: es else e :: bump es id t d

/-- One list, from a place on. -/
def addArm : ℕ → List (String × Option ℚ) → List Fused → List Fused
  | _, [], es => es
  | place, (id, d) :: hits, es => addArm (place + 1) hits (bump F es id (rrf F place) d)

/-- The contents of the map after both lists; the text list is sorted first.
mirrors src/builtins/vector.rs:680-692 -/
def fuse (vecHits ftsHits : List (String × ℚ)) : List Fused :=
  addArm F 0 ((sortDesc (·.2) ftsHits).map fun h => (h.1, none)) (addArm F 0 (vecHits.map fun h => (h.1, some h.2)) [])

structure VecSearchHit where
  id : String
  distance : ℚ
  score : ℚ
  deriving DecidableEq

/-- The hits, when the map is read in the order of `entries`.
mirrors src/builtins/vector.rs:693-716 -/
def hybrid (k : ℕ) (entries : List Fused) : List VecSearchHit :=
  let merged := topK (·.score) k entries
  let maxRrf := (merged.head?.map (·.score)).getD 0
  merged.map fun e =>
    let score := if 0 < maxRrf then F.div e.score maxRrf else 0
    ⟨e.id, e.distance.getD (F.round (1 - score)), score⟩

end

/-! ## What the map holds -/

section Arm

variable {ι : Type} [DecidableEq ι] {p : ℕ} (F : Format p) (term : ℕ → ℚ)

/-- The contributions of all places at which an id stands, added up from `acc` on. -/
def armSum (id : ι) : ℚ → ℕ → List ι → ℚ
  | acc, _, [] => acc
  | acc, place, x :: xs => armSum id (if x = id then F.add acc (term place) else acc) (place + 1) xs

/-- `acc` and the contribution of the best place. -/
def armBest (id : ι) (acc : ℚ) : ℕ → List ι → ℚ
  | _, [] => acc
  | place, x :: xs => if x = id then F.add acc (term place) else armBest id acc (place + 1) xs

/-- The score that counts each list once. -/
def bestSum (xs ys : List ι) (id : ι) : ℚ := armBest F term id (armBest F term id 0 0 xs) 0 ys

variable {F term}

theorem armSum_of_notMem {id : ι} {xs : List ι} (h : id ∉ xs) : ∀ acc place, armSum F term id acc place xs = acc := by
  induction xs with
  | nil => exact fun acc place => rfl
  | cons x xs ih =>
    intro acc place
    simp only [List.mem_cons, not_or] at h
    unfold armSum
    rw [if_neg (Ne.symm h.1), ih h.2]

/-- An id that is not repeated is counted once, however sums are rounded. -/
theorem armSum_eq_best {id : ι} {xs : List ι} : ∀ {acc : ℚ} {place : ℕ}, xs.count id ≤ 1 →
    armSum F term id acc place xs = armBest F term id acc place xs := by
  induction xs with
  | nil => exact fun _ => rfl
  | cons x xs ih =>
    intro acc place h
    unfold armSum armBest
    by_cases hx : x = id
    · subst hx
      rw [List.count_cons_self] at h
      rw [if_pos rfl, if_pos rfl, armSum_of_notMem (List.count_eq_zero.1 (by omega))]
    · rw [List.count_cons_of_ne hx] at h
      rw [if_neg hx, if_neg hx, ih h]

end Arm

/-! ## A repeated id shows -/

section

variable {ι : Type} [DecidableEq ι] {F : Format 53} {id : ι}

/-- mirrors src/builtins/vector.rs:524 -/
def maxK : ℕ := 10000

theorem rrf_eq (F : Format 53) {place : ℕ} (h : place < maxK) : rrf F place = F.round (1 / (place + 61)) := by
  have hplace : F.round place = place := F.exact place (by unfold maxK at h; omega)
  have hsixty : F.round (60 + place) = 60 + place := by
    have hex := F.exact (60 + place) (by unfold maxK at h; omega)
    push_cast at hex
    exact hex
  have hone : F.round (60 + place + 1) = 60 + place + 1 := by
    have hex := F.exact (60 + place + 1) (by unfold maxK at h; omega)
    push_cast at hex
    exact hex
  unfold rrf Format.div Format.add
  rw [hplace, hsixty, hone]
  congr 2
  ring

theorem rrf_bounds (F : Format 53) {place : ℕ} (h : place < maxK) :
    1 / 2 ^ 14 ≤ rrf F place ∧ rrf F place ≤ 1 / 32 := by
  have hle : ((place : ℚ) + 61) ≤ 10000 + 61 := by
    have : (place : ℚ) ≤ 10000 := by exact_mod_cast h.le
    linarith
  have hge : (61 : ℚ) ≤ place + 61 := by
    have : (0 : ℚ) ≤ place := Nat.cast_nonneg _
    linarith
  have hup : (1 : ℚ) / (place + 61) ≤ 1 / 61 := one_div_le_one_div_of_le (by norm_num) hge
  have hlow : (1 : ℚ) / (10000 + 61) ≤ 1 / (place + 61) := one_div_le_one_div_of_le (by linarith) hle
  have herr := F.error (1 / (place + 61)) (by positivity)
  rw [rrf_eq F h]
  generalize (1 : ℚ) / (place + 61) = t at *
  obtain ⟨h₁, h₂⟩ := abs_le.1 herr
  norm_num at *
  constructor <;> linarith

/-- What one more place adds does not vanish in the sum. -/
theorem add_bounds (F : Format 53) {a t : ℚ} (ha : 0 ≤ a) (ha' : a ≤ 2 ^ 20) (ht : 1 / 2 ^ 14 ≤ t) (ht' : t ≤ 1 / 32) :
    a + t / 2 ≤ F.add a t ∧ F.add a t ≤ a + 1 := by
  have herr := F.error (a + t) (by have : (0 : ℚ) < 1 / 2 ^ 14 := by positivity
                                   linarith)
  obtain ⟨h₁, h₂⟩ := abs_le.1 herr
  unfold Format.add
  norm_num at *
  constructor <;> linarith

/-- The least that one more place adds. -/
def gain : ℚ := 1 / 2 ^ 15

theorem armSum_bounds {xs : List ι} : ∀ {acc : ℚ} {place : ℕ}, 0 ≤ acc →
    acc + xs.length ≤ 2 ^ 20 → place + xs.length ≤ maxK →
    acc ≤ armSum F (rrf F) id acc place xs ∧ armSum F (rrf F) id acc place xs ≤ acc + xs.length ∧
      (id ∈ xs → acc + gain ≤ armSum F (rrf F) id acc place xs) := by
  induction xs with
  | nil =>
    intro acc place _ _ _
    simp [armSum]
  | cons x xs ih =>
    intro acc place hacc hle hplace
    rw [List.length_cons] at hle hplace ⊢
    push_cast at hle ⊢
    have hlen : (0 : ℚ) ≤ xs.length := Nat.cast_nonneg _
    unfold armSum
    by_cases hx : x = id
    · obtain ⟨ht, ht'⟩ := rrf_bounds F (show place < maxK by omega)
      obtain ⟨hlow, hup⟩ := add_bounds F hacc (by linarith) ht ht'
      have hgain : acc + gain ≤ F.add acc (rrf F place) := by
        unfold gain
        norm_num at *
        linarith
      have hpos : (0 : ℚ) ≤ gain := by norm_num [gain]
      rw [if_pos hx]
      obtain ⟨h₁, h₂, -⟩ := @ih (F.add acc (rrf F place)) (place + 1) (by linarith) (by linarith) (by omega)
      exact ⟨by linarith, by linarith, fun _ => by linarith⟩
    · rw [if_neg hx]
      obtain ⟨h₁, h₂, h₃⟩ := @ih acc (place + 1) hacc (by linarith) (by omega)
      exact ⟨h₁, by linarith, fun hin => h₃ (by simpa [Ne.symm hx] using hin)⟩

/-- A second place is above the best one. -/
theorem armBest_le_sum {xs : List ι} : ∀ {acc : ℚ} {place : ℕ}, 0 ≤ acc →
    acc + xs.length ≤ 2 ^ 20 → place + xs.length ≤ maxK →
    armBest F (rrf F) id acc place xs ≤ armSum F (rrf F) id acc place xs ∧
      (1 < xs.count id → armBest F (rrf F) id acc place xs + gain ≤ armSum F (rrf F) id acc place xs) := by
  induction xs with
  | nil =>
    intro acc place _ _ _
    simp [armSum, armBest]
  | cons x xs ih =>
    intro acc place hacc hle hplace
    rw [List.length_cons] at hle hplace
    push_cast at hle
    have hlen : (0 : ℚ) ≤ xs.length := Nat.cast_nonneg _
    unfold armSum armBest
    by_cases hx : x = id
    · subst hx
      obtain ⟨ht, ht'⟩ := rrf_bounds F (show place < maxK by omega)
      obtain ⟨hlow, hup⟩ := add_bounds F hacc (by linarith) ht ht'
      have hpos : (0 : ℚ) < 1 / 2 ^ 14 := by positivity
      rw [if_pos rfl, if_pos rfl, List.count_cons_self]
      obtain ⟨h₁, -, h₃⟩ := @armSum_bounds _ _ F x xs (F.add acc (rrf F place)) (place + 1) (by linarith)
        (by linarith) (by omega)
      exact ⟨h₁, fun hcount => h₃ (List.count_pos_iff.1 (by omega))⟩
    · rw [if_neg hx, if_neg hx, List.count_cons_of_ne hx]
      exact ih hacc (by linarith) (by omega)

theorem armBest_nonneg {acc : ℚ} (hacc : 0 ≤ acc) (hle : acc ≤ 2 ^ 20) {xs : List ι} :
    ∀ {place : ℕ}, place + xs.length ≤ maxK → 0 ≤ armBest F (rrf F) id acc place xs := by
  induction xs with
  | nil => exact fun _ => hacc
  | cons x xs ih =>
    intro place hplace
    rw [List.length_cons] at hplace
    unfold armBest
    split_ifs
    · obtain ⟨ht, ht'⟩ := rrf_bounds F (show place < maxK by omega)
      obtain ⟨hlow, -⟩ := add_bounds F hacc hle ht ht'
      have hpos : (0 : ℚ) < 1 / 2 ^ 14 := by positivity
      linarith
    · exact ih (by omega)

/-- A gain in the first list stays a gain with the second. -/
theorem armBest_lt {a a' : ℚ} (ha : 0 ≤ a) (hgain : a + gain ≤ a') (ha' : a' ≤ 2 ^ 20) {xs : List ι} :
    ∀ {place : ℕ}, place + xs.length ≤ maxK → armBest F (rrf F) id a place xs < armBest F (rrf F) id a' place xs := by
  have hpos : (0 : ℚ) < gain := by norm_num [gain]
  induction xs with
  | nil =>
    intro place _
    show a < a'
    linarith
  | cons x xs ih =>
    intro place hplace
    rw [List.length_cons] at hplace
    unfold armBest
    by_cases hx : x = id
    · obtain ⟨ht, ht'⟩ := rrf_bounds F (show place < maxK by omega)
      have hmin : (0 : ℚ) < 1 / 2 ^ 14 := by positivity
      have herr := F.error (a + rrf F place) (by linarith)
      have herr' := F.error (a' + rrf F place) (by linarith)
      obtain ⟨-, h₂⟩ := abs_le.1 herr
      obtain ⟨h₁, -⟩ := abs_le.1 herr'
      rw [if_pos hx, if_pos hx]
      unfold Format.add
      unfold gain at hgain
      norm_num at *
      linarith
    · rw [if_neg hx, if_neg hx]
      exact ih (by omega)

/-- Both lists are counted once exactly where neither repeats the id. -/
theorem sum_eq_best_iff {vs fs : List ι} (hv : vs.length ≤ maxK) (hf : fs.length ≤ maxK) :
    armSum F (rrf F) id (armSum F (rrf F) id 0 0 vs) 0 fs = bestSum F (rrf F) vs fs id ↔
      vs.count id ≤ 1 ∧ fs.count id ≤ 1 := by
  have hv' : (vs.length : ℚ) ≤ 10000 := by exact_mod_cast hv
  have hf' : (fs.length : ℚ) ≤ 10000 := by exact_mod_cast hf
  obtain ⟨hv₁, hv₂, -⟩ := @armSum_bounds _ _ F id vs 0 0 le_rfl (by linarith) (by omega)
  obtain ⟨hbest, hrepeat⟩ := @armBest_le_sum _ _ F id vs 0 0 le_rfl (by linarith) (by omega)
  obtain ⟨hbest', hrepeat'⟩ := @armBest_le_sum _ _ F id fs (armSum F (rrf F) id 0 0 vs) 0 hv₁ (by linarith) (by omega)
  have hpos : (0 : ℚ) < gain := by norm_num [gain]
  constructor
  · intro heq
    have hvs : vs.count id ≤ 1 := by
      by_contra hcount
      have hnonneg : 0 ≤ armBest F (rrf F) id 0 0 vs := armBest_nonneg le_rfl (by norm_num) (by omega)
      have hlt := @armBest_lt _ _ F id _ _ hnonneg (hrepeat (by omega)) (by linarith) fs 0 (by omega)
      unfold bestSum at heq
      linarith
    refine ⟨hvs, ?_⟩
    by_contra hcount
    have hgain := hrepeat' (by omega)
    rw [heq, bestSum, armSum_eq_best hvs] at hgain
    linarith
  · rintro ⟨hvs, hfs⟩
    rw [armSum_eq_best hfs, armSum_eq_best hvs, bestSum]

end

section

variable {F : Format 53}

/-- The sum the map has for an id. -/
def scoreOf (id : String) : List Fused → ℚ
  | [] => 0
  | e :: es => if e.id = id then e.score else scoreOf id es

theorem scoreOf_bump (id x : String) (t : ℚ) (d : Option ℚ) (es : List Fused) :
    scoreOf x (bump F es id t d) = if id = x then F.add (scoreOf x es) t else scoreOf x es := by
  induction es with
  | nil =>
    unfold bump scoreOf scoreOf
    by_cases h : id = x <;> simp [h]
  | cons e es ih =>
    unfold bump
    by_cases he : e.id = id
    · rw [if_pos he]
      unfold scoreOf
      by_cases hx : e.id = x
      · have : id = x := he.symm.trans hx
        simp [hx, this]
      · have : id ≠ x := fun h => hx (he.trans h)
        simp [hx, this]
    · rw [if_neg he, scoreOf, scoreOf, ih]
      by_cases hx : e.id = x
      · have : id ≠ x := fun h => he (hx.trans h.symm)
        simp [hx, this]
      · simp [hx]

theorem mem_bump {id x : String} {t : ℚ} {d : Option ℚ} {es : List Fused} :
    x ∈ (bump F es id t d).map (·.id) ↔ x ∈ es.map (·.id) ∨ x = id := by
  induction es with
  | nil => simp [bump]
  | cons e es ih =>
    unfold bump
    by_cases he : e.id = id
    · rw [if_pos he]
      simp only [List.map_cons, List.mem_cons, he]
      tauto
    · rw [if_neg he, List.map_cons, List.mem_cons, ih, List.map_cons, List.mem_cons, or_assoc]

theorem nodup_bump {id : String} {t : ℚ} {d : Option ℚ} {es : List Fused} (h : (es.map (·.id)).Nodup) :
    ((bump F es id t d).map (·.id)).Nodup := by
  induction es with
  | nil => simp [bump]
  | cons e es ih =>
    obtain ⟨hout, hes⟩ := List.nodup_cons.1 h
    unfold bump
    by_cases he : e.id = id
    · rw [if_pos he]
      exact h
    · rw [if_neg he]
      refine List.nodup_cons.2 ⟨fun hin => ?_, ih hes⟩
      rcases mem_bump.1 hin with hin | hin
      · exact hout hin
      · exact he hin

theorem addArm_spec {hits : List (String × Option ℚ)} : ∀ {place : ℕ} {es : List Fused}, (es.map (·.id)).Nodup →
    ((addArm F place hits es).map (·.id)).Nodup ∧
      (∀ x, scoreOf x (addArm F place hits es) = armSum F (rrf F) x (scoreOf x es) place (hits.map (·.1))) ∧
      ∀ x, x ∈ (addArm F place hits es).map (·.id) ↔ x ∈ es.map (·.id) ∨ x ∈ hits.map (·.1) := by
  induction hits with
  | nil =>
    intro place es hes
    exact ⟨hes, fun x => by simp [addArm, armSum], fun x => by simp [addArm]⟩
  | cons h hits ih =>
    intro place es hes
    obtain ⟨id, d⟩ := h
    have hbump : ((bump F es id (rrf F place) d).map (·.id)).Nodup := nodup_bump hes
    obtain ⟨hnodup, hscore, hmem⟩ := @ih (place + 1) _ hbump
    refine ⟨hnodup, fun x => ?_, fun x => ?_⟩
    · rw [addArm, hscore, scoreOf_bump]
      rfl
    · rw [addArm, hmem, mem_bump]
      simp only [List.map_cons, List.mem_cons]
      tauto

theorem score_eq_scoreOf {es : List Fused} (hnodup : (es.map (·.id)).Nodup) {e : Fused} (he : e ∈ es) :
    e.score = scoreOf e.id es := by
  induction es with
  | nil => cases he
  | cons a es ih =>
    obtain ⟨hout, hes⟩ := List.nodup_cons.1 hnodup
    unfold scoreOf
    rcases List.mem_cons.1 he with rfl | he
    · rw [if_pos rfl]
    · rw [if_neg, ih hes he]
      intro heq
      refine hout ?_
      show a.id ∈ es.map (·.id)
      rw [heq]
      exact List.mem_map_of_mem he

end

/-- What the two arms answer: at most `k` hits each, of a `k` that was checked.
mirrors src/builtins/vector.rs:518-525,740-806 -/
structure Arms where
  k : ℕ
  vecHits : List (String × ℚ)
  ftsHits : List (String × ℚ)
  k_le : k ≤ maxK
  vec_le : vecHits.length ≤ k
  fts_le : ftsHits.length ≤ k

namespace Arms

/-- The ids of the vector list. -/
def vecIds (a : Arms) : List String := a.vecHits.map (·.1)

/-- The ids of the text list, as it is ranked. -/
def ftsIds (a : Arms) : List String := (sortDesc (·.2) a.ftsHits).map (·.1)

theorem vecIds_length (a : Arms) : a.vecIds.length ≤ maxK := by
  have hle := a.vec_le.trans a.k_le
  rwa [vecIds, List.length_map]

theorem ftsIds_perm (a : Arms) : a.ftsIds.Perm (a.ftsHits.map (·.1)) := (sortDesc_perm _ a.ftsHits).map _

theorem ftsIds_length (a : Arms) : a.ftsIds.length ≤ maxK := by
  have hle := a.fts_le.trans a.k_le
  rwa [a.ftsIds_perm.length_eq, List.length_map]

end Arms

section

variable (F : Format 53) (a : Arms)

theorem fuse_spec : ((fuse F a.vecHits a.ftsHits).map (·.id)).Nodup ∧
    (∀ e ∈ fuse F a.vecHits a.ftsHits,
      e.score = armSum F (rrf F) e.id (armSum F (rrf F) e.id 0 0 a.vecIds) 0 a.ftsIds) ∧
    ∀ x, x ∈ (fuse F a.vecHits a.ftsHits).map (·.id) ↔ x ∈ a.vecIds ∨ x ∈ a.ftsIds := by
  have hnil : (([] : List Fused).map (·.id)).Nodup := List.nodup_nil
  obtain ⟨hnd₁, hs₁, hm₁⟩ := @addArm_spec F (a.vecHits.map fun h => (h.1, some h.2)) 0 [] hnil
  obtain ⟨hnd₂, hs₂, hm₂⟩ := @addArm_spec F ((sortDesc (·.2) a.ftsHits).map fun h => (h.1, none)) 0 _ hnd₁
  have hvec : (a.vecHits.map fun h => (h.1, some h.2)).map (·.1) = a.vecIds := by
    simp [Arms.vecIds]
  have hfts : ((sortDesc (·.2) a.ftsHits).map fun h => (h.1, (none : Option ℚ))).map (·.1) = a.ftsIds := by
    simp [Arms.ftsIds]
  refine ⟨hnd₂, fun e he => ?_, fun x => ?_⟩
  · have hscore := score_eq_scoreOf hnd₂ he
    rw [hs₂, hs₁, hvec, hfts] at hscore
    exact hscore
  · show x ∈ (addArm F 0 _ _).map (·.id) ↔ _
    rw [hm₂, hm₁, hvec, hfts]
    simp

/-- Each list is counted once: an id gets the contribution of its best place in each list that has it. -/
def CountsOnce : Prop :=
  ∀ e ∈ fuse F a.vecHits a.ftsHits, e.score = bestSum F (rrf F) a.vecIds a.ftsIds e.id

theorem countsOnce_iff : CountsOnce F a ↔ (a.vecHits.map (·.1)).Nodup ∧ (a.ftsHits.map (·.1)).Nodup := by
  obtain ⟨-, hscore, hmem⟩ := fuse_spec F a
  have hid (id : String) := @sum_eq_best_iff _ _ F id a.vecIds a.ftsIds a.vecIds_length a.ftsIds_length
  unfold CountsOnce
  rw [← a.ftsIds_perm.nodup_iff, ← Arms.vecIds]
  constructor
  · intro h
    have hone (x : String) (hx : x ∈ a.vecIds ∨ x ∈ a.ftsIds) : a.vecIds.count x ≤ 1 ∧ a.ftsIds.count x ≤ 1 := by
      obtain ⟨e, he, rfl⟩ := List.mem_map.1 ((hmem x).2 hx)
      exact (hid e.id).1 ((hscore e he).symm.trans (h e he))
    constructor
    · exact List.nodup_iff_count_le_one.2 fun x => by
        by_cases hx : x ∈ a.vecIds
        · exact (hone x (.inl hx)).1
        · rw [List.count_eq_zero_of_not_mem hx]
          omega
    · exact List.nodup_iff_count_le_one.2 fun x => by
        by_cases hx : x ∈ a.ftsIds
        · exact (hone x (.inr hx)).2
        · rw [List.count_eq_zero_of_not_mem hx]
          omega
  · rintro ⟨hv, hf⟩ e he
    rw [hscore e he]
    exact (hid e.id).2 ⟨List.nodup_iff_count_le_one.1 hv e.id, List.nodup_iff_count_le_one.1 hf e.id⟩

/-- The order in which the map is read does not show. -/
def OrderIndependent : Prop :=
  ∀ o o' : List Fused, o.Perm (fuse F a.vecHits a.ftsHits) → o'.Perm (fuse F a.vecHits a.ftsHits) →
    hybrid F a.k o = hybrid F a.k o'

theorem hybrid_ids (k : ℕ) (o : List Fused) : (hybrid F k o).map (·.id) = (topK (·.score) k o).map (·.id) := by
  unfold hybrid
  rw [List.map_map]
  rfl

theorem orderIndependent_iff : OrderIndependent F a ↔ NoTies (·.score) a.k (fuse F a.vecHits a.ftsHits) := by
  obtain ⟨hnodup, -, -⟩ := fuse_spec F a
  have hid : ∀ x ∈ fuse F a.vecHits a.ftsHits, ∀ y ∈ fuse F a.vecHits a.ftsHits, x.id = y.id → x = y :=
    fun x hx y hy => List.inj_on_of_nodup_map hnodup hx hy
  constructor
  · intro h
    refine (topK_indep_iff hid hnodup.of_map).1 fun o o' ho ho' => ?_
    rw [← hybrid_ids F, ← hybrid_ids F, h o o' ho ho']
  · intro h o o' ho ho'
    unfold hybrid
    rw [← topK_eq_of_perm hnodup.of_map h ho.symm, ← topK_eq_of_perm hnodup.of_map h ho'.symm]

end

/-! ## The two lists of `recall_top_k` -/

/-- What the store has for one query: the scores of the text search, as the map holds them, the ids to fall back
on, the similarity of an entry (`none`: it is passed over) and the entry itself. -/
structure Recall (E : Type) where
  bm25 : List (Int × ℚ)
  fallback : List Int
  cosine : Int → Option ℚ
  load : Int → Option E
  minConfidence : ℚ
  limit : Nat
  -- the keys of a map, and the primary keys of a table
  bm25_nodup : (bm25.map (·.1)).Nodup
  fallback_nodup : fallback.Nodup

namespace Recall

variable {E : Type} (G : Format 24) (q : Recall E)

/-- mirrors src/memory_store.rs:794-821 -/
def candidateIds (read : List (Int × ℚ)) : List Int := if read = [] then q.fallback else read.map (·.1)

/-- mirrors src/memory_store.rs:823-865 -/
def cosineScored (read : List (Int × ℚ)) : List (Int × ℚ) :=
  (q.candidateIds read).filterMap fun id => (q.cosine id).map fun s => (id, s)

/-- The ranks of a sorted list, collected in a map: of two places the later one stays. -/
def collectRanks : Nat → List (Int × ℚ) → Int → Option Nat
  | _, [], _ => none
  | rank, (x, _) :: l, id => (collectRanks (rank + 1) l id).or (if x = id then some rank else none)

/-- The two ranks of an id.
mirrors src/memory_store.rs:872-887 -/
def ranks (read : List (Int × ℚ)) (id : Int) : Option Nat × Option Nat :=
  (collectRanks 1 (sortDesc (·.2) read) id, collectRanks 1 (sortDesc (·.2) (q.cosineScored read)) id)

/-- `1.0 / (RRF_K + rank as f32)`. -/
def rankTerm (rank : Nat) : ℚ := G.div 1 (G.add 60 (G.round rank))

/-- The contribution of one list, if it has the id. -/
def addRank (score : ℚ) : Option Nat → ℚ
  | none => score
  | some rank => G.add score (rankTerm G rank)

/-- mirrors src/memory_store.rs:899-911 -/
def rrfScore (read : List (Int × ℚ)) (id : Int) : ℚ := addRank G (addRank G 0 (q.ranks read id).1) (q.ranks read id).2

/-- The set of all ids.
mirrors src/memory_store.rs:889-896 -/
def allIds (read : List (Int × ℚ)) : List Int :=
  (read.map (·.1) ++ (q.cosineScored read).map (·.1)).dedup

/-- The sums that are sorted.
mirrors src/memory_store.rs:899-913 -/
def rrfResults (read : List (Int × ℚ)) (ids : List Int) : List (Int × ℚ) :=
  (ids.map fun id => (id, q.rrfScore G read id)).filter fun r => decide (q.minConfidence ≤ r.2)

/-- `recall_top_k`, when the map of the text scores is read in the order of `read` and the set of all ids in the
order of `ids`.
mirrors src/memory_store.rs:790-943 -/
def recallTopK (read : List (Int × ℚ)) (ids : List Int) : List (E × ℚ) :=
  (topK (·.2) q.limit (q.rrfResults G read ids)).filterMap fun r => (q.load r.1).map fun e => (e, r.2)

/-- The score that counts each of the two lists once, at the best rank it has for the id. -/
def bestScore (read : List (Int × ℚ)) (id : Int) : ℚ :=
  bestSum G (fun place => rankTerm G (place + 1)) ((sortDesc (·.2) read).map (·.1))
    ((sortDesc (·.2) (q.cosineScored read)).map (·.1)) id

/-- The order in which the map and the set are read does not show. -/
def OrderIndependent : Prop :=
  ∀ read read' ids ids', read.Perm q.bm25 → read'.Perm q.bm25 → ids.Perm (q.allIds read) → ids'.Perm (q.allIds read') →
    q.recallTopK G read ids = q.recallTopK G read' ids'

/-- Each list is counted once. -/
def CountsOnce : Prop :=
  ∀ read id, read.Perm q.bm25 → q.rrfScore G read id = q.bestScore G read id

/-- No two scores of one list are equal. Without text hits the entries come in the order of the table, and equal
similarities do no harm. -/
def DistinctScores : Prop :=
  (∀ a ∈ q.bm25, ∀ b ∈ q.bm25, a.2 = b.2 → a = b) ∧
    (q.bm25 = [] ∨ ∀ a ∈ q.cosineScored q.bm25, ∀ b ∈ q.cosineScored q.bm25, a.2 = b.2 → a = b)

variable {q}

theorem collectRanks_of_notMem {id : Int} {l : List (Int × ℚ)} (h : id ∉ l.map (·.1)) :
    ∀ rank, collectRanks rank l id = none := by
  induction l with
  | nil => intro rank; rfl
  | cons a l ih =>
    intro rank
    simp only [List.map_cons, List.mem_cons, not_or] at h
    unfold collectRanks
    rw [ih h.2, if_neg (Ne.symm h.1)]
    rfl

theorem addRank_collectRanks {id : Int} {l : List (Int × ℚ)} (hnodup : (l.map (·.1)).Nodup) (score : ℚ) :
    ∀ place, addRank G score (collectRanks (place + 1) l id) =
      armBest G (fun place => rankTerm G (place + 1)) id score place (l.map (·.1)) := by
  induction l with
  | nil => intro place; rfl
  | cons a l ih =>
    intro place
    obtain ⟨hout, hl⟩ := List.nodup_cons.1 hnodup
    rw [List.map_cons]
    unfold collectRanks armBest
    by_cases ha : a.1 = id
    · have hnone := @collectRanks_of_notMem id l (by rw [← ha]; exact hout) (place + 1 + 1)
      rw [hnone, if_pos ha, if_pos ha]
      rfl
    · rw [if_neg ha, if_neg ha, Option.or_none]
      exact ih hl (place + 1)

theorem candidateIds_nodup {read : List (Int × ℚ)} (h : read.Perm q.bm25) : (q.candidateIds read).Nodup := by
  unfold candidateIds
  split_ifs
  · exact q.fallback_nodup
  · exact (h.map (·.1)).nodup_iff.2 q.bm25_nodup

theorem cosineScored_nodup {read : List (Int × ℚ)} (h : read.Perm q.bm25) :
    ((q.cosineScored read).map (·.1)).Nodup := by
  have hsub : ((q.cosineScored read).map (·.1)).Sublist (q.candidateIds read) := by
    unfold cosineScored
    generalize q.candidateIds read = ids
    induction ids with
    | nil => exact List.Sublist.slnil
    | cons id ids ih =>
      rw [List.filterMap_cons]
      cases q.cosine id with
      | none => exact List.Sublist.cons _ ih
      | some s => exact List.Sublist.cons_cons _ ih
  exact hsub.nodup (candidateIds_nodup h)

variable (q)

theorem countsOnce : q.CountsOnce G := by
  intro read id h
  have hread : ((sortDesc (·.2) read).map (·.1)).Nodup :=
    (((sortDesc_perm _ read).trans h).map (·.1)).nodup_iff.2 q.bm25_nodup
  have hcos : ((sortDesc (·.2) (q.cosineScored read)).map (·.1)).Nodup :=
    ((sortDesc_perm _ (q.cosineScored read)).map (·.1)).nodup_iff.2 (cosineScored_nodup h)
  unfold rrfScore ranks bestScore bestSum
  rw [addRank_collectRanks G hread 0 0, addRank_collectRanks G hcos _ 0]

variable {q}

theorem ranks_eq (hq : q.DistinctScores) {read : List (Int × ℚ)} (h : read.Perm q.bm25) :
    q.ranks read = q.ranks q.bm25 := by
  obtain ⟨hbm25, hcosine⟩ := hq
  have hread : sortDesc (·.2) read = sortDesc (·.2) q.bm25 :=
    (sortDesc_eq_of_perm q.bm25_nodup.of_map hbm25 h.symm).symm
  have hcos : sortDesc (·.2) (q.cosineScored read) = sortDesc (·.2) (q.cosineScored q.bm25) := by
    rcases hcosine with hnil | hinj
    · rw [hnil] at h ⊢
      rw [h.eq_nil]
    · refine (sortDesc_eq_of_perm (cosineScored_nodup (List.Perm.refl _)).of_map hinj ?_).symm
      unfold cosineScored candidateIds
      by_cases hnil : q.bm25 = []
      · rw [hnil] at h ⊢
        rw [h.eq_nil]
      · have hne : read ≠ [] := fun hr => hnil (by rw [hr] at h; exact h.symm.eq_nil)
        rw [if_neg hnil, if_neg hne]
        exact (h.symm.map _).filterMap _
  funext id
  unfold ranks
  rw [hread, hcos]

theorem allIds_perm {read : List (Int × ℚ)} (h : read.Perm q.bm25) : (q.allIds read).Perm (q.allIds q.bm25) := by
  have hids : (q.candidateIds read).Perm (q.candidateIds q.bm25) := by
    unfold candidateIds
    by_cases hnil : q.bm25 = []
    · rw [hnil] at h ⊢
      rw [h.eq_nil]
    · have hne : read ≠ [] := fun hr => hnil (by rw [hr] at h; exact h.symm.eq_nil)
      rw [if_neg hnil, if_neg hne]
      exact h.map _
  exact ((h.map _).append ((hids.filterMap _).map _)).dedup

/-- The ids that the least score lets through. -/
def kept (G : Format 24) (q : Recall E) : List Int :=
  (q.allIds q.bm25).filter fun id => decide (q.minConfidence ≤ q.bestScore G q.bm25 id)

/-- Without ties, in the lists and among the sums, the result does not depend on the orders. -/
theorem orderIndependent (hq : q.DistinctScores) (hkept : NoTies (q.bestScore G q.bm25) q.limit (q.kept G)) :
    q.OrderIndependent G := by
  have hcounts : q.rrfScore G q.bm25 = q.bestScore G q.bm25 := by
    funext id
    exact countsOnce G q q.bm25 id (List.Perm.refl _)
  have hties : NoTies (·.2) q.limit (q.rrfResults G q.bm25 (q.allIds q.bm25)) := by
    have hpairs : q.rrfResults G q.bm25 (q.allIds q.bm25) = (q.kept G).map fun id => (id, q.bestScore G q.bm25 id) := by
      unfold rrfResults kept
      rw [hcounts, List.filter_map]
      rfl
    rw [hpairs]
    refine (noTies_map (fun a _ b _ hab => congrArg (·.1) hab) fun id _ => ?_).2 hkept
    rfl
  have hall (read : List (Int × ℚ)) (ids : List Int) (hread : read.Perm q.bm25) (hids : ids.Perm (q.allIds read)) :
      q.recallTopK G read ids = q.recallTopK G q.bm25 (q.allIds q.bm25) := by
    have hscore : q.rrfScore G read = q.rrfScore G q.bm25 := by
      funext id
      unfold rrfScore
      rw [ranks_eq hq hread]
    have hperm : (q.rrfResults G q.bm25 (q.allIds q.bm25)).Perm (q.rrfResults G read ids) := by
      unfold rrfResults
      rw [hscore]
      exact (((hids.trans (allIds_perm hread)).symm).map _).filter _
    have hnodup : (q.rrfResults G q.bm25 (q.allIds q.bm25)).Nodup := by
      refine List.Nodup.filter _ (List.Nodup.map (fun a b hab => ?_) (List.nodup_dedup _))
      exact congrArg (·.1) hab
    unfold recallTopK
    rw [topK_eq_of_perm hnodup hties hperm]
  intro read read' ids ids' hread hread' hids hids'
  rw [hall read ids hread hids, hall read' ids' hread' hids']

end Recall

/-! ## Both -/

/-- No two ids of the lists tie for the first `k` places, each list counted once. -/
def NoTiedIds (F : Format 53) (a : Arms) : Prop :=
  NoTies (bestSum F (rrf F) a.vecIds a.ftsIds) a.k (a.vecIds ++ a.ftsIds).dedup

/-- The hybrid mode. -/
theorem hybrid_iff (F : Format 53) (a : Arms) : OrderIndependent F a ∧ CountsOnce F a ↔
    NoTiedIds F a ∧ (a.vecHits.map (·.1)).Nodup ∧ (a.ftsHits.map (·.1)).Nodup := by
  rw [orderIndependent_iff, ← countsOnce_iff F, and_congr_left_iff]
  intro hcounts
  obtain ⟨hnodup, -, hmem⟩ := fuse_spec F a
  have hinj : ∀ x ∈ fuse F a.vecHits a.ftsHits, ∀ y ∈ fuse F a.vecHits a.ftsHits, x.id = y.id → x = y :=
    fun x hx y hy => List.inj_on_of_nodup_map hnodup hx hy
  have hperm : ((fuse F a.vecHits a.ftsHits).map (·.id)).Perm (a.vecIds ++ a.ftsIds).dedup := by
    refine (List.perm_ext_iff_of_nodup hnodup (List.nodup_dedup _)).2 fun x => ?_
    rw [hmem, List.mem_dedup, List.mem_append]
  unfold NoTiedIds
  rw [← noTies_perm hperm]
  exact (noTies_map hinj hcounts).symm

/-- One hit in each list. -/
def Sample.tied : Arms := ⟨1, [("a", 1)], [("b", 1)], by decide, by decide, by decide⟩

/-- A chunk id that two rows of the table have. -/
def Sample.repeated : Arms := ⟨2, [("a", 1), ("a", 1)], [], by decide, by decide, by decide⟩

end Metalogos.Vector
