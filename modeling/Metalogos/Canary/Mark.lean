import Mathlib.Data.List.Infix
import Mathlib.Logic.Relation
import Mathlib.Tactic.Ring

/-!
# Canary marks

`src/builtins/canary.rs`. `canary_insert` puts copies of a random marker into a text that the program does not trust,
`canary_check` looks for the marker in what a model answers. The check drops every separator and the letter case
first; in the mode `exact` a zero-width character inside the marker still breaks it.

* `base32_ids`: every nonce makes a well-formed marker, and different nonces make different ones;
* `canary_found`: whatever is done to a marker in case and separators, the check finds it in any text around it;
* `check_exact`: what the check reports is the first place where the marker starts, and nothing else.
-/
namespace Metalogos.Canary

open Relation

def canaryPrefix : List Char := "MLOG-CANARY-".toList

def canaryIdChars : Nat := 26

def base32Alphabet : List Char := "ABCDEFGHIJKLMNOPQRSTUVWXYZ234567".toList

/-- mirrors src/builtins/canary.rs:56-61 -/
def isZeroWidth (c : Char) : Bool := c.toNat ∈ [0x200B, 0x200C, 0x200D, 0x2060, 0xFEFF]

/-- The source counts bytes; a text of the alphabet has one for each character.
mirrors src/builtins/canary.rs:66-72 -/
def isCanaryId (s : List Char) : Bool :=
  canaryPrefix.isPrefixOf s && (s.drop canaryPrefix.length).length = canaryIdChars &&
    (s.drop canaryPrefix.length).all (· ∈ base32Alphabet)

/-! ## Base32 -/

/-- The random bytes of one marker. -/
structure Nonce where
  bytes : List UInt8
  length_bytes : bytes.length = 16

/-- The loop state: the indices pushed so far, the `u64` buffer, and how many of its low bits are still due. -/
structure Packing where
  out : List Nat
  buffer : Nat
  bits : Nat

/-- `while bits >= 5`
mirrors src/builtins/canary.rs:84-88 -/
def drain (buffer : Nat) (out : List Nat) : Nat → Packing
  | bits + 5 => drain buffer (out ++ [buffer / 2 ^ bits % 32]) bits
  | bits => ⟨out, buffer, bits⟩

/-- mirrors src/builtins/canary.rs:81-89 -/
def packByte (p : Packing) (b : UInt8) : Packing :=
  drain (p.buffer * 256 % 2 ^ 64 + b.toNat) p.out (p.bits + 8)

/-- The bits that are left, filled up with zeros.
mirrors src/builtins/canary.rs:90-93 -/
def lastDigit (p : Packing) : List Nat :=
  if 0 < p.bits then p.out ++ [p.buffer * 2 ^ (5 - p.bits) % 2 ^ 64 % 32] else p.out

def base32Digits (n : Nonce) : List Nat := lastDigit (n.bytes.foldl packByte ⟨[], 0, 0⟩)

def digitChar (d : Nat) : Char := base32Alphabet.getD d 'A'

/-- mirrors src/builtins/canary.rs:77-96 -/
def base32Encode16 (n : Nonce) : List Char := (base32Digits n).map digitChar

def canaryId (n : Nonce) : List Char := canaryPrefix ++ base32Encode16 n

/-! ## Insertion -/

/-- mirrors src/builtins/canary.rs:101-104 -/
structure CanaryMark where
  markedText : List Char
  canaryId : List Char
  deriving DecidableEq, Repr

/-- What one call draws: the nonce and the points of insertion, distinct where there are enough of them.
mirrors src/builtins/canary.rs:179-192 -/
structure Draws (slots count : Nat) where
  nonce : Nonce
  points : List Nat
  length_points : points.length = count
  inside : ∀ p ∈ points, p < slots
  distinct : count ≤ slots → points.Nodup
  crowded : slots < count → points = List.replicate count 0

/-- mirrors src/builtins/canary.rs:196-204 -/
def splice (id text : List Char) : Nat → List Nat → List Char
  | prev, [] => text.drop prev
  | prev, p :: ps => (text.drop prev).take (p - prev) ++ (' ' :: id) ++ (' ' :: splice id text p ps)

/-- mirrors src/builtins/canary.rs:151-206 -/
def markedText (text id : List Char) (count : Nat) (position : String) (points : List Nat) : List Char :=
  match position with
  | "head" => (List.replicate count (id ++ [' '])).flatten ++ text
  | "tail" => text ++ (List.replicate count (' ' :: id)).flatten
  | _ => splice id text 0 (points.mergeSort (· ≤ ·))

/-- mirrors src/builtins/canary.rs:110-212 -/
def canaryInsertCore (text : List Char) (count : Nat) (position : String) (d : Draws (text.length + 1) count) :
    Except String CanaryMark :=
  if text = [] then .error "canary_insert() — empty text: nothing to mark"
  else if canaryPrefix <:+: text then .error ("canary_insert() — text already contains a canary marker " ++
    "(MLOG-CANARY-*): double-marking is a loud error (№284)")
  else if text.any isZeroWidth then .error ("canary_insert() — text contains zero-width characters " ++
    "(U+200B/U+200C/U+200D/U+2060/U+FEFF) BEFORE insertion; they degrade canary_check matching hygiene (№284)")
  else if ¬(1 ≤ count ∧ count ≤ 4) then
    .error ("canary_insert() — count must be in 1..=4, got " ++ toString count)
  else if position ∉ ["random", "head", "tail"] then .error ("canary_insert() — unknown position '" ++ position ++
    "': expected \"random\"|\"head\"|\"tail\"")
  else .ok ⟨markedText text (canaryId d.nonce) count position d.points, canaryId d.nonce⟩

/-! ## The check -/

/-- mirrors src/builtins/canary.rs:218-221 -/
structure CanaryCheck where
  leaked : Bool
  position : Int
  deriving DecidableEq, Repr

/-- What a character counts for: letters and digits without their case, and in the mode `exact` a zero-width
character; everything else separates.
mirrors src/builtins/canary.rs:255-269 -/
def kept (zwspMode : Bool) (c : Char) : Option Char :=
  if c.isAlphanum then some c.toLower
  else if isZeroWidth c then (if zwspMode then none else some c)
  else none

/-- `norm` with `map` beside it.
mirrors src/builtins/canary.rs:253-274 -/
def normalize (zwspMode : Bool) : Nat → List Char → List (Char × Nat)
  | _, [] => []
  | i, c :: cs =>
    match kept zwspMode c with
    | some k => (k, i) :: normalize zwspMode (i + 1) cs
    | none => normalize zwspMode (i + 1) cs

/-- mirrors src/builtins/canary.rs:247-251 -/
def needleOf (id : List Char) : List Char := (id.filter Char.isAlphanum).map Char.toLower

/-- The window moves from start to start.
mirrors src/builtins/canary.rs:283-295 -/
def scan (needle : List Char) : List (Char × Nat) → CanaryCheck
  | [] => ⟨false, -1⟩
  | p :: ps => if needle.isPrefixOf ((p :: ps).map (·.1)) then ⟨true, p.2⟩ else scan needle ps

/-- mirrors src/builtins/canary.rs:226-298 -/
def canaryCheckCore (text id : List Char) (mode : String) : Except String CanaryCheck :=
  if text = [] then .error "canary_check() — empty text: nothing to check"
  else if !isCanaryId id then .error ("canary_check() — unknown canary_id '" ++ String.ofList id ++
    "': expected full form MLOG-CANARY-<26 chars A-Z2-7> as returned by canary_insert (№284)")
  else if mode ∉ ["exact", "zwsp"] then .error ("canary_check() — unknown mode '" ++ mode ++
    "': expected \"exact\"|\"zwsp\"")
  else
    let norm := normalize (mode = "zwsp") 0 text
    if norm.length < (needleOf id).length then .ok ⟨false, -1⟩ else .ok (scan (needleOf id) norm)

/-! ## What base32 keeps of the bytes -/

/-- The number that a row of digits stands for. -/
def valueOf (base : Nat) (ds : List Nat) : Nat := ds.foldl (fun v d => v * base + d) 0

theorem valueOf_concat (base : Nat) (ds : List Nat) (d : Nat) :
    valueOf base (ds ++ [d]) = valueOf base ds * base + d := by
  simp [valueOf]

theorem valueOf_inj {base : Nat} {xs ys : List Nat} (hlen : xs.length = ys.length) (hx : ∀ d ∈ xs, d < base)
    (hy : ∀ d ∈ ys, d < base) (h : valueOf base xs = valueOf base ys) : xs = ys := by
  induction xs using List.reverseRecOn generalizing ys with
  | nil => exact (List.length_eq_zero_iff.1 hlen.symm).symm
  | append_singleton xs x ih =>
    obtain ⟨ys, y, rfl⟩ : ∃ l d, ys = l ++ [d] := by
      refine ⟨ys.dropLast, ys.getLast ?_, (List.dropLast_append_getLast _).symm⟩
      rintro rfl
      simp at hlen
    rw [valueOf_concat, valueOf_concat] at h
    have hxb : x < base := hx x (by simp)
    have hyb : y < base := hy y (by simp)
    have hlast : x = y := by
      have hmod := congrArg (· % base) h
      simpa [Nat.mul_add_mod_self_right, Nat.mod_eq_of_lt hxb, Nat.mod_eq_of_lt hyb] using hmod
    subst hlast
    have hrest : valueOf base xs = valueOf base ys :=
      Nat.eq_of_mul_eq_mul_right (Nat.lt_of_le_of_lt (Nat.zero_le x) hxb) (Nat.add_right_cancel h)
    rw [ih (by simpa using hlen) (fun d hd => hx d (by simp [hd])) (fun d hd => hy d (by simp [hd])) hrest]

/-- The digits and the bits that are due stand for the bytes `m` together. -/
structure Packs (m total : Nat) (p : Packing) : Prop where
  value : valueOf 32 p.out * 2 ^ p.bits + p.buffer % 2 ^ p.bits = m
  count : p.out.length * 5 + p.bits = total
  digits : ∀ d ∈ p.out, d < 32

theorem drain_packs {m total buffer : Nat} {out : List Nat} {bits : Nat} (h : Packs m total ⟨out, buffer, bits⟩) :
    Packs m total (drain buffer out bits) ∧ (drain buffer out bits).bits < 5 := by
  fun_induction drain buffer out bits with
  | case1 out bits ih =>
    refine ih ⟨?_, ?_, ?_⟩
    · have hvalue : valueOf 32 out * 2 ^ (bits + 5) + buffer % 2 ^ (bits + 5) = m := h.value
      have hsplit : buffer % (2 ^ bits * 32) = buffer % 2 ^ bits + 2 ^ bits * (buffer / 2 ^ bits % 32) := Nat.mod_mul
      rw [Nat.pow_add, show 2 ^ 5 = 32 from rfl, hsplit] at hvalue
      change valueOf 32 (out ++ [buffer / 2 ^ bits % 32]) * 2 ^ bits + buffer % 2 ^ bits = m
      rw [valueOf_concat, ← hvalue]
      ring
    · have hcount : out.length * 5 + (bits + 5) = total := h.count
      simp only [List.length_append, List.length_singleton]
      omega
    · intro d hd
      rcases List.mem_append.1 hd with hd | hd
      · exact h.digits d hd
      · rw [List.mem_singleton.1 hd]
        exact Nat.mod_lt _ (by decide)
  | case2 out bits hsmall =>
    refine ⟨h, ?_⟩
    by_contra hge
    change ¬bits < 5 at hge
    exact hsmall (bits - 5) (by omega)

/-- A byte behind the bits that are due; the buffer may drop what is above them. -/
theorem shifted_mod {bits : Nat} (h : bits + 8 ≤ 64) (buffer : Nat) (b : UInt8) :
    (buffer * 256 % 2 ^ 64 + b.toNat) % 2 ^ (bits + 8) = buffer % 2 ^ bits * 256 + b.toNat := by
  have hb : b.toNat < 256 := b.toNat_lt
  have hdvd : 2 ^ (bits + 8) ∣ 2 ^ 64 := Nat.pow_dvd_pow 2 h
  have hdrop : (buffer * 256 % 2 ^ 64 + b.toNat) % 2 ^ (bits + 8) = (buffer * 256 + b.toNat) % 2 ^ (bits + 8) := by
    rw [Nat.add_mod, Nat.mod_mod_of_dvd _ hdvd, ← Nat.add_mod]
  have hlow : (buffer * 256 + b.toNat) % 256 = b.toNat := by omega
  have hhigh : (buffer * 256 + b.toNat) / 256 = buffer := by omega
  rw [hdrop, Nat.pow_add, Nat.mul_comm (2 ^ bits), show 2 ^ 8 = 256 from rfl, Nat.mod_mul, hlow, hhigh]
  omega

theorem packByte_packs {m total : Nat} {p : Packing} (h : Packs m total p) (hbits : p.bits < 5) (b : UInt8) :
    Packs (m * 256 + b.toNat) (total + 8) (packByte p b) ∧ (packByte p b).bits < 5 := by
  refine drain_packs ⟨?_, ?_, h.digits⟩
  · change valueOf 32 p.out * 2 ^ (p.bits + 8) + (p.buffer * 256 % 2 ^ 64 + b.toNat) % 2 ^ (p.bits + 8) = _
    rw [shifted_mod (by omega), ← h.value, Nat.pow_add]
    ring
  · change p.out.length * 5 + (p.bits + 8) = total + 8
    rw [← h.count]
    omega

theorem foldl_packs (bytes : List UInt8) {m total : Nat} {p : Packing} (h : Packs m total p) (hbits : p.bits < 5) :
    Packs ((bytes.map UInt8.toNat).foldl (fun v d => v * 256 + d) m) (total + 8 * bytes.length)
      (bytes.foldl packByte p) ∧ (bytes.foldl packByte p).bits < 5 := by
  induction bytes generalizing m total p with
  | nil => exact ⟨h, hbits⟩
  | cons b bytes ih =>
    obtain ⟨hstep, hsmall⟩ := packByte_packs h hbits b
    have hrest := ih hstep hsmall
    rwa [show total + 8 + 8 * bytes.length = total + 8 * (b :: bytes).length by
      rw [List.length_cons]; omega] at hrest

/-- The digits of a nonce: 26 of them, and together with two zero bits they stand for its bytes. -/
theorem base32Digits_spec (n : Nonce) : (base32Digits n).length = canaryIdChars ∧
    (∀ d ∈ base32Digits n, d < 32) ∧
    valueOf 32 (base32Digits n) = valueOf 256 (n.bytes.map UInt8.toNat) * 4 := by
  obtain ⟨hp, hbits⟩ := foldl_packs n.bytes (p := ⟨[], 0, 0⟩) ⟨rfl, rfl, by simp⟩ (by simp)
  rw [n.length_bytes] at hp
  unfold base32Digits
  generalize n.bytes.foldl packByte ⟨[], 0, 0⟩ = p at hp hbits
  obtain ⟨out, buffer, bits⟩ := p
  have hcount : out.length * 5 + bits = 128 := hp.count
  have hsmall : bits < 5 := hbits
  obtain rfl : bits = 3 := by omega
  have hvalue : valueOf 32 out * 8 + buffer % 8 = valueOf 256 (n.bytes.map UInt8.toNat) := hp.value
  have hdigit : buffer * 4 % 2 ^ 64 % 32 = buffer % 8 * 4 := by omega
  rw [show lastDigit ⟨out, buffer, 3⟩ = out ++ [buffer % 8 * 4] from hdigit ▸ rfl]
  refine ⟨?_, ?_, ?_⟩
  · rw [List.length_append, List.length_singleton, canaryIdChars]
    omega
  · intro d hd
    rcases List.mem_append.1 hd with hd | hd
    · exact hp.digits d hd
    · rw [List.mem_singleton.1 hd]
      omega
  · rw [valueOf_concat, ← hvalue]
    omega

theorem idxOf_digitChar : ∀ d < 32, base32Alphabet.idxOf (digitChar d) = d := by decide +kernel

theorem digitChar_mem : ∀ d < 32, digitChar d ∈ base32Alphabet := by decide +kernel

theorem isCanaryId_canaryId (n : Nonce) : isCanaryId (canaryId n) = true := by
  obtain ⟨hlen, hdigits, -⟩ := base32Digits_spec n
  have hdrop : (canaryId n).drop canaryPrefix.length = base32Encode16 n := List.drop_left
  have hstarts : canaryPrefix.isPrefixOf (canaryId n) = true := List.isPrefixOf_iff_prefix.2 (List.prefix_append _ _)
  have hall : (base32Encode16 n).all (· ∈ base32Alphabet) = true := by
    simp only [List.all_eq_true, decide_eq_true_eq, base32Encode16, List.mem_map]
    rintro c ⟨d, hd, rfl⟩
    exact digitChar_mem d (hdigits d hd)
  rw [isCanaryId, hdrop, hstarts, hall, base32Encode16, List.length_map, hlen]
  rfl

/-- Every nonce makes a well-formed marker, and different nonces make different markers. -/
theorem base32_ids (n n' : Nonce) : isCanaryId (canaryId n) = true ∧ (canaryId n = canaryId n' ↔ n = n') := by
  refine ⟨isCanaryId_canaryId n, fun h => ?_, fun h => h ▸ rfl⟩
  obtain ⟨hlen, hdigits, hvalue⟩ := base32Digits_spec n
  obtain ⟨hlen', hdigits', hvalue'⟩ := base32Digits_spec n'
  have hchars : (base32Digits n).map digitChar = (base32Digits n').map digitChar := List.append_cancel_left h
  have hread {ds : List Nat} (hds : ∀ d ∈ ds, d < 32) : (ds.map digitChar).map (base32Alphabet.idxOf ·) = ds := by
    rw [List.map_map]
    exact (List.map_congr_left fun d hd => idxOf_digitChar d (hds d hd)).trans (List.map_id _)
  have hsame : base32Digits n = base32Digits n' := by
    rw [← hread hdigits, hchars, hread hdigits']
  have hnumber : valueOf 256 (n.bytes.map UInt8.toNat) = valueOf 256 (n'.bytes.map UInt8.toNat) := by
    rw [hsame] at hvalue
    omega
  have hbyte (m : Nonce) : ∀ d ∈ m.bytes.map UInt8.toNat, d < 256 := by
    simp only [List.mem_map]
    rintro d ⟨b, -, rfl⟩
    exact b.toNat_lt
  have hnat : n.bytes.map UInt8.toNat = n'.bytes.map UInt8.toNat :=
    valueOf_inj (by simp [n.length_bytes, n'.length_bytes]) (hbyte n) (hbyte n') hnumber
  have hbytes : n.bytes = n'.bytes := List.map_injective_iff.2 (fun _ _ => UInt8.toNat_inj.1) hnat
  cases n
  cases n'
  simpa using hbytes

/-! ## Where the marker starts -/

/-- The text as the check compares it. -/
def stream (z : Bool) (text : List Char) : List Char := text.filterMap (kept z)

/-- The marker starts at the character `j`: the character counts, and from there on the text reads as the marker. -/
def Starts (z : Bool) (needle text : List Char) (j : Nat) : Prop :=
  ∃ c cs, text.drop j = c :: cs ∧ (kept z c).isSome = true ∧ needle <+: stream z (c :: cs)

section

variable {z : Bool} {needle text : List Char} {c : Char} {i j : Nat}

theorem stream_append (a b : List Char) : stream z (a ++ b) = stream z a ++ stream z b := List.filterMap_append

theorem stream_cons_some {k : Char} (h : kept z c = some k) (cs : List Char) :
    stream z (c :: cs) = k :: stream z cs := List.filterMap_cons_some h

theorem stream_cons_none (h : kept z c = none) (cs : List Char) : stream z (c :: cs) = stream z cs :=
  List.filterMap_cons_none h

theorem normalize_stream (i : Nat) (text : List Char) : (normalize z i text).map (·.1) = stream z text := by
  induction text generalizing i with
  | nil => rfl
  | cons c cs ih =>
    rw [normalize]
    cases hk : kept z c with
    | none => rw [stream_cons_none hk, ← ih (i + 1)]
    | some k => rw [stream_cons_some hk, ← ih (i + 1), List.map_cons]

theorem starts_succ {cs : List Char} : Starts z needle (c :: cs) (j + 1) ↔ Starts z needle cs j := Iff.rfl

theorem starts_zero {cs : List Char} :
    Starts z needle (c :: cs) 0 ↔ (kept z c).isSome = true ∧ needle <+: stream z (c :: cs) := by
  constructor
  · rintro ⟨d, ds, heq, h⟩
    obtain ⟨rfl, rfl⟩ := List.cons.inj heq
    exact h
  · exact fun h => ⟨c, cs, rfl, h⟩

/-- The first place where the marker starts. -/
def First (z : Bool) (needle text : List Char) (j : Nat) : Prop :=
  Starts z needle text j ∧ ∀ k < j, ¬Starts z needle text k

theorem First.succ {cs : List Char} (h : First z needle cs j) (h0 : ¬Starts z needle (c :: cs) 0) :
    First z needle (c :: cs) (j + 1) := by
  refine ⟨starts_succ.2 h.1, fun k hk => ?_⟩
  cases k with
  | zero => exact h0
  | succ k => exact fun hs => h.2 k (by omega) (starts_succ.1 hs)

theorem scan_first (needle text : List Char) (i : Nat) :
    (∃ j, First z needle text j ∧ scan needle (normalize z i text) = ⟨true, ((i + j : Nat) : Int)⟩) ∨
      (∀ j, ¬Starts z needle text j) ∧ scan needle (normalize z i text) = ⟨false, -1⟩ := by
  induction text generalizing i with
  | nil => exact .inr ⟨fun j ⟨c, cs, h, _⟩ => by simp at h, rfl⟩
  | cons c cs ih =>
    -- what is found in the rest, if the marker does not start here
    have hrest (h0 : ¬Starts z needle (c :: cs) 0)
        (hscan : scan needle (normalize z i (c :: cs)) = scan needle (normalize z (i + 1) cs)) :
        (∃ j, First z needle (c :: cs) j ∧ scan needle (normalize z i (c :: cs)) = ⟨true, ((i + j : Nat) : Int)⟩) ∨
          (∀ j, ¬Starts z needle (c :: cs) j) ∧ scan needle (normalize z i (c :: cs)) = ⟨false, -1⟩ := by
      rw [hscan]
      rcases ih (i + 1) with ⟨j, hj, hr⟩ | ⟨hno, hr⟩
      · refine .inl ⟨j + 1, hj.succ h0, ?_⟩
        rw [hr, show i + 1 + j = i + (j + 1) by omega]
      · refine .inr ⟨fun j => ?_, hr⟩
        cases j with
        | zero => exact h0
        | succ j => exact fun hs => hno j (starts_succ.1 hs)
    cases hk : kept z c with
    | none =>
      refine hrest (fun h => ?_) (by rw [normalize, hk])
      rw [starts_zero, hk] at h
      exact absurd h.1 (by simp)
    | some k =>
      have hcons : normalize z i (c :: cs) = (k, i) :: normalize z (i + 1) cs := by rw [normalize, hk]
      have hmap : ((k, i) :: normalize z (i + 1) cs).map (·.1) = stream z (c :: cs) := by
        rw [← hcons, normalize_stream]
      by_cases hp : needle <+: stream z (c :: cs)
      · refine .inl ⟨0, ⟨starts_zero.2 ⟨by rw [hk]; rfl, hp⟩, fun k hk => absurd hk (Nat.not_lt_zero k)⟩, ?_⟩
        rw [hcons, scan, hmap, if_pos (List.isPrefixOf_iff_prefix.2 hp), Nat.add_zero]
      · refine hrest (fun h => hp (starts_zero.1 h).2) ?_
        rw [hcons, scan, hmap, if_neg (fun h => hp (List.isPrefixOf_iff_prefix.1 h))]

theorem scan_short {ps : List (Char × Nat)} (h : ps.length < needle.length) : scan needle ps = ⟨false, -1⟩ := by
  induction ps with
  | nil => rfl
  | cons p ps ih =>
    have hno : ¬needle.isPrefixOf ((p :: ps).map (·.1)) = true := fun hp => by
      have hle := (List.isPrefixOf_iff_prefix.1 hp).length_le
      rw [List.length_map] at hle
      omega
    rw [scan, if_neg hno]
    exact ih (Nat.lt_of_succ_lt h)

/-- What the check of a well-formed marker reports is the first place where the marker starts. -/
theorem check_first {id : List Char} {mode : String} (ht : text ≠ []) (hid : isCanaryId id = true)
    (hm : mode ∈ ["exact", "zwsp"]) :
    (∃ j, First (mode = "zwsp") (needleOf id) text j ∧ canaryCheckCore text id mode = .ok ⟨true, (j : Int)⟩) ∨
      (∀ j, ¬Starts (mode = "zwsp") (needleOf id) text j) ∧ canaryCheckCore text id mode = .ok ⟨false, -1⟩ := by
  have hcheck : canaryCheckCore text id mode = .ok (scan (needleOf id) (normalize (mode = "zwsp") 0 text)) := by
    rw [canaryCheckCore, if_neg ht, if_neg (by simp [hid]), if_neg (not_not.2 hm)]
    dsimp only
    split
    next hshort => rw [scan_short hshort]
    next => rfl
  rw [hcheck]
  rcases scan_first (z := (mode = "zwsp")) (needleOf id) text 0 with ⟨j, hj, hr⟩ | ⟨hno, hr⟩
  · exact .inl ⟨j, hj, by rw [hr, Nat.zero_add]⟩
  · exact .inr ⟨hno, by rw [hr]⟩

theorem Starts.occurs (h : Starts z needle text j) : needle <:+: stream z text := by
  obtain ⟨c, cs, hdrop, -, hp⟩ := h
  rw [← hdrop] at hp
  have hcut : stream z text = stream z (text.take j) ++ stream z (text.drop j) := by
    rw [← stream_append, List.take_append_drop]
  rw [hcut]
  exact hp.isInfix.trans (List.suffix_append _ _).isInfix

theorem First.unique {k : Nat} (hj : First z needle text j) (hk : First z needle text k) : j = k :=
  Nat.le_antisymm (Nat.not_lt.1 fun hlt => hj.2 k hlt hk.1) (Nat.not_lt.1 fun hlt => hk.2 j hlt hj.1)

/-- A marker that the text reads as somewhere starts somewhere. -/
theorem starts_of_infix (hn : needle ≠ []) (h : needle <:+: stream z text) : ∃ j, Starts z needle text j := by
  induction text with
  | nil => exact absurd (List.infix_nil.1 h) hn
  | cons c cs ih =>
    cases hk : kept z c with
    | none =>
      rw [stream_cons_none hk] at h
      obtain ⟨j, hj⟩ := ih h
      exact ⟨j + 1, starts_succ.2 hj⟩
    | some k =>
      rw [stream_cons_some hk] at h
      rcases List.infix_cons_iff.1 h with hp | hin
      · exact ⟨0, starts_zero.2 ⟨by rw [hk]; rfl, by rwa [stream_cons_some hk]⟩⟩
      · obtain ⟨j, hj⟩ := ih hin
        exact ⟨j + 1, starts_succ.2 hj⟩

end

/-! ## Distortion -/

/-- One change that the check is to see through: the case of a letter, or a separator more or less. -/
inductive Distort (z : Bool) : List Char → List Char → Prop
  | recase {l r : List Char} {c c' : Char} (hc : c.isAlphanum = true) (hc' : c'.isAlphanum = true)
      (hlower : c.toLower = c'.toLower) : Distort z (l ++ c :: r) (l ++ c' :: r)
  | separate {l r : List Char} {c : Char} (hc : kept z c = none) : Distort z (l ++ r) (l ++ c :: r)
  | close {l r : List Char} {c : Char} (hc : kept z c = none) : Distort z (l ++ c :: r) (l ++ r)

theorem kept_alphanum {z : Bool} {c : Char} (h : c.isAlphanum = true) : kept z c = some c.toLower := if_pos h

theorem Distort.stream_eq {z : Bool} {x y : List Char} (h : Distort z x y) : stream z y = stream z x := by
  cases h with
  | recase hc hc' hlower =>
    rw [stream_append, stream_append, stream_cons_some (kept_alphanum hc), stream_cons_some (kept_alphanum hc'),
      hlower]
  | separate hc => rw [stream_append, stream_append, stream_cons_none hc]
  | close hc => rw [stream_append, stream_append, stream_cons_none hc]

theorem distorted_stream {z : Bool} {x y : List Char} (h : ReflTransGen (Distort z) x y) :
    stream z y = stream z x := by
  induction h with
  | refl => rfl
  | tail _ hs ih => exact hs.stream_eq.trans ih

theorem isZeroWidth_ascii {c : Char} (h : c.toNat < 0x80) : isZeroWidth c = false := by
  rw [isZeroWidth, decide_eq_false_iff_not]
  intro hmem
  simp only [List.mem_cons, List.not_mem_nil, or_false] at hmem
  omega

/-- A well-formed marker reads as its needle. -/
theorem stream_id {z : Bool} {id : List Char} (h : isCanaryId id = true) : stream z id = needleOf id := by
  have hchars : ∀ c ∈ id, isZeroWidth c = false := by
    simp only [isCanaryId, Bool.and_eq_true, List.all_eq_true, decide_eq_true_eq] at h
    obtain ⟨⟨hstarts, -⟩, hrest⟩ := h
    obtain ⟨rest, rfl⟩ := List.isPrefixOf_iff_prefix.1 hstarts
    rw [List.drop_left] at hrest
    have hascii : (canaryPrefix ++ base32Alphabet).all (fun c => c.toNat < 0x80) = true := by decide +kernel
    rw [List.all_eq_true] at hascii
    intro c hc
    rcases List.mem_append.1 hc with hc | hc
    · exact isZeroWidth_ascii (of_decide_eq_true (hascii c (List.mem_append_left _ hc)))
    · exact isZeroWidth_ascii (of_decide_eq_true (hascii c (List.mem_append_right _ (hrest c hc))))
  clear h
  induction id with
  | nil => rfl
  | cons c cs ih =>
    have hrest := ih fun d hd => hchars d (List.mem_cons_of_mem _ hd)
    by_cases hc : c.isAlphanum = true
    · rw [stream_cons_some (kept_alphanum hc), hrest, needleOf, needleOf, List.filter_cons_of_pos hc, List.map_cons]
    · have hnone : kept z c = none := by
        rw [kept, if_neg hc, if_neg (by simp [hchars c List.mem_cons_self])]
      rw [stream_cons_none hnone, hrest, needleOf, needleOf, List.filter_cons_of_neg hc]

theorem needleOf_ne_nil {id : List Char} (h : isCanaryId id = true) : needleOf id ≠ [] := by
  simp only [isCanaryId, Bool.and_eq_true] at h
  obtain ⟨rest, rfl⟩ := List.isPrefixOf_iff_prefix.1 h.1.1
  intro hnil
  rw [needleOf, List.filter_append, List.map_append] at hnil
  exact absurd (List.append_eq_nil_iff.1 hnil).1 (by decide)

/-- The check reports a leak at `j` exactly when the marker first starts there, and none exactly when the text does
not read as the marker anywhere. -/
theorem check_exact {text id : List Char} {mode : String} (ht : text ≠ []) (hid : isCanaryId id = true)
    (hm : mode ∈ ["exact", "zwsp"]) (j : Nat) :
    (canaryCheckCore text id mode = .ok ⟨true, j⟩ ↔ First (mode = "zwsp") (needleOf id) text j) ∧
      (canaryCheckCore text id mode = .ok ⟨false, -1⟩ ↔ ¬needleOf id <:+: stream (mode = "zwsp") text) := by
  rcases check_first ht hid hm with ⟨i, hi, hr⟩ | ⟨hno, hr⟩
  · rw [hr]
    refine ⟨⟨fun h => ?_, fun h => by rw [h.unique hi]⟩, ⟨fun h => (by cases h), fun h => absurd hi.1.occurs h⟩⟩
    obtain rfl : i = j := by simpa using h
    exact hi
  · rw [hr]
    refine ⟨⟨fun h => (by cases h), fun h => absurd h.1 (hno j)⟩, ⟨fun _ hin => ?_, fun _ => rfl⟩⟩
    obtain ⟨i, hi⟩ := starts_of_infix (needleOf_ne_nil hid) hin
    exact hno i hi

/-! ## What is marked -/

theorem splice_infix (id text : List Char) (prev p : Nat) (ps : List Nat) :
    id <:+: splice id text prev (p :: ps) := by
  refine ⟨(text.drop prev).take (p - prev) ++ [' '], ' ' :: splice id text p ps, ?_⟩
  simp [splice]

theorem splice_sublist (id text : List Char) {prev : Nat} {ps : List Nat} (hs : ps.Pairwise (· ≤ ·))
    (hprev : ∀ p ∈ ps, prev ≤ p) : (text.drop prev).Sublist (splice id text prev ps) := by
  induction ps generalizing prev with
  | nil => exact List.Sublist.refl _
  | cons p ps ih =>
    obtain ⟨hp, hsorted⟩ := List.pairwise_cons.1 hs
    have hle : prev ≤ p := hprev p List.mem_cons_self
    have hcut : text.drop prev = (text.drop prev).take (p - prev) ++ text.drop p := by
      conv_lhs => rw [← List.take_append_drop (p - prev) (text.drop prev), List.drop_drop, Nat.add_sub_cancel' hle]
    rw [hcut, splice, List.append_assoc]
    exact (List.Sublist.refl _).append (((ih hsorted hp).cons _).trans (List.sublist_append_right _ _))

theorem markedText_spec (text id : List Char) (position : String) {count : Nat} {points : List Nat}
    (hcount : 1 ≤ count) (hpoints : points.length = count) :
    id <:+: markedText text id count position points ∧ text.Sublist (markedText text id count position points) := by
  obtain ⟨k, rfl⟩ : ∃ k, count = k + 1 := ⟨count - 1, by omega⟩
  unfold markedText
  split
  · refine ⟨⟨[], [' '] ++ ((List.replicate k (id ++ [' '])).flatten ++ text), ?_⟩, List.sublist_append_right _ _⟩
    simp [List.replicate_succ]
  · refine ⟨⟨text ++ [' '], (List.replicate k (' ' :: id)).flatten, ?_⟩, List.sublist_append_left _ _⟩
    simp [List.replicate_succ]
  · have hlen : (points.mergeSort (· ≤ ·)).length = k + 1 := by rw [List.length_mergeSort, hpoints]
    have hsorted : (points.mergeSort (· ≤ ·)).Pairwise (· ≤ ·) := by
      have htrans : ∀ a b c : Nat, decide (a ≤ b) = true → decide (b ≤ c) = true → decide (a ≤ c) = true := by
        simp
        omega
      have htotal : ∀ a b : Nat, (decide (a ≤ b) || decide (b ≤ a)) = true := by
        simp
        omega
      simpa using List.pairwise_mergeSort htrans htotal points
    refine ⟨?_, splice_sublist id text hsorted fun p _ => Nat.zero_le p⟩
    obtain ⟨p, ps, hps⟩ := List.exists_cons_of_length_eq_add_one hlen
    rw [hps]
    exact splice_infix id text 0 p ps

/-- The marked text holds the marker and all of the text; and whatever is done to the marker in case and separators,
the check finds it in any text around it. -/
theorem canary_found {text : List Char} {count : Nat} {position : String} {d : Draws (text.length + 1) count}
    {m : CanaryMark} (h : canaryInsertCore text count position d = .ok m) :
    m.canaryId <:+: m.markedText ∧ text.Sublist m.markedText ∧
      ∀ mode ∈ ["exact", "zwsp"], ∀ x, ReflTransGen (Distort (mode = "zwsp")) m.canaryId x →
        ∀ before after, ∃ j : Nat, canaryCheckCore (before ++ x ++ after) m.canaryId mode = .ok ⟨true, j⟩ := by
  unfold canaryInsertCore at h
  split_ifs at h with h1 h2 h3 h4 h5
  obtain rfl := Except.ok.inj h
  obtain ⟨hmarked, hsub⟩ := markedText_spec text (canaryId d.nonce) position h4.1
    d.length_points
  refine ⟨hmarked, hsub, fun mode hmode x hx before after => ?_⟩
  have hid : isCanaryId (canaryId d.nonce) = true := isCanaryId_canaryId d.nonce
  have hread : stream (mode = "zwsp") x = needleOf (canaryId d.nonce) := by
    rw [distorted_stream hx, stream_id hid]
  have hin : needleOf (canaryId d.nonce) <:+: stream (mode = "zwsp") (before ++ x ++ after) := by
    rw [stream_append, stream_append, hread]
    exact List.infix_append _ _ _
  have hne : before ++ x ++ after ≠ [] := by
    intro hnil
    rw [hnil] at hin
    exact needleOf_ne_nil hid (List.infix_nil.1 hin)
  obtain ⟨j, hj⟩ := starts_of_infix (needleOf_ne_nil hid) hin
  rcases check_first hne hid hmode with ⟨i, -, hi⟩ | ⟨hno, -⟩
  · exact ⟨i, hi⟩
  · exact absurd hj (hno j)

def Sample.nonce : Nonce := ⟨List.replicate 16 255, rfl⟩

def Sample.draws : Draws 3 1 := ⟨nonce, [1], rfl, by decide, by decide, by decide⟩

/-- The marker with its first letter in lower case, in the middle of an answer. -/
theorem canary_found_recased : ∃ j : Nat, canaryCheckCore
    ("It says ".toList ++ 'm' :: (canaryId Sample.nonce).tail ++ "!".toList) (canaryId Sample.nonce) "exact" =
      .ok ⟨true, j⟩ := by
  have hcons : canaryId Sample.nonce = 'M' :: (canaryId Sample.nonce).tail := rfl
  have hstep : Distort false ('M' :: (canaryId Sample.nonce).tail) ('m' :: (canaryId Sample.nonce).tail) :=
    .recase (l := []) rfl rfl rfl
  rw [← hcons] at hstep
  have hmark : canaryInsertCore "hi".toList 1 "head" Sample.draws =
      .ok ⟨markedText "hi".toList (canaryId Sample.nonce) 1 "head" [1], canaryId Sample.nonce⟩ := by decide +kernel
  exact (canary_found hmark).2.2 "exact" (by decide) _ (.single hstep) _ _

theorem check_exact_blank : (canaryCheckCore "nothing".toList (canaryId Sample.nonce) "zwsp" = .ok ⟨false, -1⟩ ↔
    ¬needleOf (canaryId Sample.nonce) <:+: stream true "nothing".toList) :=
  (check_exact (by decide) (by decide +kernel) (by decide) 0).2

end Metalogos.Canary
