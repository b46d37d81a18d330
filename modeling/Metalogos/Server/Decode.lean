import Metalogos.Lib.ByteCut
import Metalogos.Lib.Lossy
import Metalogos.Lib.Text
import Mathlib.Data.List.Infix

/-!
# Percent decoding

`url_decode_fallback` takes the two characters behind a percent sign before it knows what they are: where they are no
escape, both are copied, and a plus sign or an escape among them is not read; and the number is read by
`u8::from_str_radix`, which takes a plus sign in front of a digit.

`url_decode_iff`: the text is read as the reference reads it exactly where this does not show; and the form encoding
of a text is always read back.
-/
namespace Metalogos.Server

open Metalogos.Lib

/-- `u8::from_str_radix(s, 16)`; a plus sign may stand in front. -/
def fromStrRadix16 (s : List Char) : Option UInt8 :=
  let digits := match s with
    | '+' :: rest => rest
    | _ => s
  if digits = [] then none
  else (digits.foldlM (fun n c => do
    let d ← hexValue c
    if n * 16 + d < 256 then some (n * 16 + d) else none) 0).map UInt8.ofNat

/-- The bytes that a percent sign and the characters taken behind it are read as. -/
def escapeBytes (hex : List Char) : List UInt8 :=
  match if byteLen hex = 2 then fromStrRadix16 hex else none with
  | some byte => [byte]
  | none => 0x25 :: utf8Bytes hex

/-- A character by itself. -/
def plainBytes (c : Char) : List UInt8 := if c = '+' then [0x20] else String.utf8EncodeChar c

def decodeBytes : List Char → List UInt8
  | [] => []
  | c :: rest =>
    if c = '%' then
      match rest with
      | a :: b :: rest => escapeBytes [a, b] ++ decodeBytes rest
      | _ => escapeBytes rest
    else plainBytes c ++ decodeBytes rest

/-- mirrors metalogos-server/src/server.rs:57-77 -/
def urlDecodeFallback (s : List Char) : List Char := fromUtf8Lossy (decodeBytes s)

/-! ## The reference -/

/-- The byte of two hexadecimal digits. -/
def hexByte (a b : Char) : Option UInt8 := do
  let h ← hexValue a
  let l ← hexValue b
  some (UInt8.ofNat (h * 16 + l))

/-- The byte of a percent escape whose percent sign is in front. -/
def escapeAt : List Char → Option UInt8
  | a :: b :: _ => hexByte a b
  | _ => none

def referenceBytes : List Char → List UInt8
  | [] => []
  | c :: rest =>
    if c = '%' then
      match rest with
      | a :: b :: rest' =>
        match hexByte a b with
        | some x => x :: referenceBytes rest'
        | none => 0x25 :: referenceBytes (a :: b :: rest')
      | rest => 0x25 :: referenceBytes rest
    else plainBytes c ++ referenceBytes rest

/-- One pass from left to right: an escape is its byte, a plus sign is a space, every other character is itself. -/
def urlReference (s : List Char) : List Char := fromUtf8Lossy (referenceBytes s)

/-- Neither a plus sign nor an escape comes next. -/
def quiet : List Char → Bool
  | [] => true
  | c :: rest => decide (c ≠ '+') && !(decide (c = '%') && (escapeAt rest).isSome)

/-- The two characters behind a percent sign that starts no escape are themselves. -/
def sound : List Char → Bool
  | [] => true
  | c :: rest =>
    if c = '%' then
      match rest with
      | a :: b :: rest' =>
        if (hexByte a b).isSome then sound rest'
        else quiet (a :: b :: rest') && quiet (b :: rest') && sound rest'
      | rest => quiet rest
    else sound rest

/-! ## The form encoding -/

def hexUpper (n : Nat) : Char := "0123456789ABCDEF".toList.getD n '0'

/-- `application/x-www-form-urlencoded`: the letters, the digits and `*-._` stand for themselves. -/
def formPlain (b : Nat) : Bool :=
  (48 ≤ b && b ≤ 57) || (65 ≤ b && b ≤ 90) || (97 ≤ b && b ≤ 122) || b = 42 || b = 45 || b = 46 || b = 95

def formByte (b : UInt8) : List Char :=
  if b.toNat = 32 then ['+']
  else if formPlain b.toNat then [Char.ofNat b.toNat]
  else ['%', hexUpper (b.toNat / 16), hexUpper (b.toNat % 16)]

def formEncode (s : List Char) : List Char := (utf8Bytes s).flatMap formByte

/-! ## Escapes -/

section escapes

variable {a b c : Char} {n m : Nat} {rest s : List Char}

theorem hexValue_lt (h : hexValue c = some n) : n < 16 ∧ c.toNat < 0x80 := by
  unfold hexValue at h
  dsimp only at h
  split_ifs at h with h1 h2 h3
  · obtain rfl := Option.some.inj h
    omega
  · obtain rfl := Option.some.inj h
    omega
  · obtain rfl := Option.some.inj h
    omega

theorem byteLen_ascii (ha : a.toNat < 0x80) (hb : b.toNat < 0x80) : byteLen [a, b] = 2 := by
  have hone : ∀ c : Char, c.toNat < 0x80 → c.utf8Size = 1 := fun c hc =>
    Char.utf8Size_eq_one_iff.2 (show c.val ≤ 127 from UInt32.le_iff_toNat_le.2 (Nat.le_of_lt_succ hc))
  simp [byteLen, hone a ha, hone b hb]

theorem hexByte_eq_some {x : UInt8} (h : hexByte a b = some x) :
    ∃ n m, hexValue a = some n ∧ hexValue b = some m ∧ x = UInt8.ofNat (n * 16 + m) := by
  obtain ⟨n, hn, h⟩ := Option.bind_eq_some_iff.1 h
  obtain ⟨m, hm, h⟩ := Option.bind_eq_some_iff.1 h
  exact ⟨n, m, hn, hm, (Option.some.inj h).symm⟩

theorem ne_plus_of_hex (h : hexValue a = some n) : a ≠ '+' := by
  rintro rfl
  cases h

theorem fromStrRadix16_pair (ha : a ≠ '+') : fromStrRadix16 [a, b] = hexByte a b := by
  unfold fromStrRadix16 hexByte
  split
  · rename_i heq
    exact absurd (List.cons.inj heq).1 ha
  · cases hn : hexValue a with
    | none => simp [hn]
    | some n =>
      have hlt := (hexValue_lt hn).1
      cases hm : hexValue b with
      | none => simp [hn, hm]
      | some m =>
        have hlt' := (hexValue_lt hm).1
        simp [hn, hm, show n < 256 by omega, show n * 16 + m < 256 by omega]

theorem escapeBytes_some {x : UInt8} (h : hexByte a b = some x) : escapeBytes [a, b] = [x] := by
  obtain ⟨n, m, hn, hm, rfl⟩ := hexByte_eq_some h
  rw [escapeBytes, if_pos (byteLen_ascii (hexValue_lt hn).2 (hexValue_lt hm).2),
    fromStrRadix16_pair (ne_plus_of_hex hn), h]

theorem escapeBytes_none (ha : a ≠ '+') (h : hexByte a b = none) : escapeBytes [a, b] = 0x25 :: utf8Bytes [a, b] := by
  rw [escapeBytes, fromStrRadix16_pair ha, h, ite_self]

/-- A plus sign in front of a digit is no part of the number, and otherwise it is copied. -/
theorem escapeBytes_plus (b : Char) : (∃ x : UInt8, x.toNat < 16 ∧ escapeBytes ['+', b] = [x]) ∨
    escapeBytes ['+', b] = 0x25 :: utf8Bytes ['+', b] := by
  cases hm : hexValue b with
  | none =>
    refine .inr ?_
    have hnone : fromStrRadix16 ['+', b] = none := by simp [fromStrRadix16, hm]
    rw [escapeBytes, hnone, ite_self]
  | some m =>
    have hlt := (hexValue_lt hm).1
    have hsome : fromStrRadix16 ['+', b] = some (UInt8.ofNat m) := by
      simp [fromStrRadix16, hm, show m < 256 by omega]
    refine .inl ⟨UInt8.ofNat m, by rw [toNat_byte (by omega)]; exact hlt, ?_⟩
    rw [escapeBytes, if_pos (byteLen_ascii (by decide) (hexValue_lt hm).2), hsome]

/-- At the end of the text no number is read. -/
theorem escapeBytes_short (h : rest.length < 2) : escapeBytes rest = 0x25 :: utf8Bytes rest := by
  have hnone : (if byteLen rest = 2 then fromStrRadix16 rest else none) = none := by
    match rest, h with
    | [], _ => rfl
    | [c], _ =>
      split_ifs with hlen
      · have hbig : ¬ c.toNat < 0x80 := by
          intro hc
          have hone : c.utf8Size = 1 :=
            Char.utf8Size_eq_one_iff.2 (show c.val ≤ 127 from UInt32.le_iff_toNat_le.2 (Nat.le_of_lt_succ hc))
          simp [byteLen, hone] at hlen
        have hplus : c ≠ '+' := by
          rintro rfl
          exact hbig (by decide)
        have hvalue : hexValue c = none := by
          by_contra hne
          obtain ⟨n, hn⟩ := Option.ne_none_iff_exists'.1 hne
          exact hbig (hexValue_lt hn).2
        unfold fromStrRadix16
        split
        · rename_i heq
          exact absurd (List.cons.inj heq).1 hplus
        · simp [hvalue]
      · rfl
  rw [escapeBytes, hnone]

/-! ## The two passes -/

theorem decode_plain (hc : c ≠ '%') : decodeBytes (c :: rest) = plainBytes c ++ decodeBytes rest := by
  rw [decodeBytes.eq_def]
  exact if_neg hc

theorem reference_plain (hc : c ≠ '%') : referenceBytes (c :: rest) = plainBytes c ++ referenceBytes rest := by
  rw [referenceBytes.eq_def]
  exact if_neg hc

theorem decode_escape : decodeBytes ('%' :: a :: b :: rest) = escapeBytes [a, b] ++ decodeBytes rest := by
  rw [decodeBytes, if_pos rfl]

theorem reference_some {x : UInt8} (h : hexByte a b = some x) :
    referenceBytes ('%' :: a :: b :: rest) = x :: referenceBytes rest := by
  rw [referenceBytes, if_pos rfl]
  simp only [h]

theorem reference_none (h : escapeAt rest = none) : referenceBytes ('%' :: rest) = 0x25 :: referenceBytes rest := by
  rw [referenceBytes.eq_def]
  dsimp only
  rw [if_pos rfl]
  match rest, h with
  | [], _ => rfl
  | [_], _ => rfl
  | a :: b :: rest, h =>
    have hnone : hexByte a b = none := h
    simp only [hnone]

theorem reference_pair (h : hexByte a b = none) :
    referenceBytes ('%' :: a :: b :: rest) = 0x25 :: referenceBytes (a :: b :: rest) := reference_none h

theorem reference_one : referenceBytes ['%', a] = 0x25 :: referenceBytes [a] := reference_none rfl

theorem plain_of_ne (hc : c ≠ '+') : plainBytes c = String.utf8EncodeChar c := if_neg hc

/-- What is quiet starts with a character that is itself. -/
theorem reference_quiet (h : quiet (c :: rest) = true) :
    referenceBytes (c :: rest) = String.utf8EncodeChar c ++ referenceBytes rest := by
  unfold quiet at h
  simp only [ne_eq, Bool.and_eq_true, decide_eq_true_eq, Bool.not_eq_true', Bool.and_eq_false_iff,
    decide_eq_false_iff_not, Option.isSome_eq_false_iff, Option.isNone_iff_eq_none] at h
  by_cases hc : c = '%'
  · subst hc
    exact reference_none (h.2.resolve_left fun hne => hne rfl)
  · rw [reference_plain hc, plain_of_ne h.1]

theorem sound_plain (hc : c ≠ '%') : sound (c :: rest) = sound rest := by
  rw [sound.eq_def]
  exact if_neg hc

theorem sound_some {x : UInt8} (h : hexByte a b = some x) : sound ('%' :: a :: b :: rest) = sound rest := by
  rw [sound.eq_def]
  dsimp only
  rw [if_pos rfl, h]
  rfl

theorem sound_none (h : hexByte a b = none) :
    sound ('%' :: a :: b :: rest) = (quiet (a :: b :: rest) && quiet (b :: rest) && sound rest) := by
  rw [sound.eq_def]
  dsimp only
  rw [if_pos rfl, h]
  rfl

theorem decode_one : decodeBytes ['%', a] = 0x25 :: utf8Bytes [a] :=
  show escapeBytes [a] = _ from escapeBytes_short (Nat.lt_succ_self 1)

theorem decode_none (ha : a ≠ '+') (h : hexByte a b = none) : decodeBytes ('%' :: a :: b :: rest) =
    0x25 :: (String.utf8EncodeChar a ++ (String.utf8EncodeChar b ++ decodeBytes rest)) := by
  rw [decode_escape, escapeBytes_none ha h]
  simp [utf8Bytes]

theorem ne_plus_of_quiet (h : quiet (c :: rest) = true) : c ≠ '+' := by
  rintro rfl
  exact absurd h (by simp [quiet])

theorem sound_bytes (s : List Char) (h : sound s = true) : decodeBytes s = referenceBytes s := by
  induction hn : s.length using Nat.strong_induction_on generalizing s with
  | _ n ih =>
    match s with
    | [] => rfl
    | c :: rest =>
      by_cases hc : c = '%'
      · subst hc
        match rest, h with
        | [], _ => rfl
        | [a], h =>
          have hquiet : quiet [a] = true := h
          rw [reference_one, reference_quiet hquiet, decode_one]
          rfl
        | a :: b :: rest, h =>
          have hlt : rest.length < n := by simp only [List.length_cons] at hn; omega
          cases hx : hexByte a b with
          | some x =>
            rw [sound_some hx] at h
            rw [decode_escape, escapeBytes_some hx, reference_some hx, ih _ hlt rest h rfl]
            rfl
          | none =>
            rw [sound_none hx, Bool.and_eq_true, Bool.and_eq_true] at h
            obtain ⟨⟨ha, hb⟩, hrest⟩ := h
            rw [decode_none (ne_plus_of_quiet ha) hx, reference_pair hx, reference_quiet ha, reference_quiet hb,
              ih _ hlt rest hrest rfl]
      · rw [sound_plain hc] at h
        have hlt : rest.length < n := by simp only [List.length_cons] at hn; omega
        rw [decode_plain hc, reference_plain hc, ih _ hlt rest h rfl]

/-! ## Where they part -/

/-- Two digits that one pass has and the other has not are not made up for. -/
theorem digits_apart (s : List Char) : ∀ x y : Char, x = '2' ∨ x = '5' → y = '2' ∨ y = '5' →
    x :: y :: fromUtf8Lossy (decodeBytes s) ≠ fromUtf8Lossy (referenceBytes s) := by
  induction hn : s.length using Nat.strong_induction_on generalizing s with
  | _ n ih =>
    intro x y hx hy heq
    have hascii : x ≠ '%' ∧ x ≠ ' ' ∧ 0 < x.toNat ∧ x.toNat < 64 := by
      rcases hx with rfl | rfl <;> decide
    match s with
    | [] => cases heq
    | c :: rest =>
      by_cases hc : c = '%'
      · subst hc
        cases hesc : escapeAt rest with
        | none =>
          rw [reference_none hesc, lossy_cons (by decide)] at heq
          exact hascii.1 (List.cons.inj heq).1
        | some z =>
          match rest, hesc with
          | a :: b :: rest, hesc =>
            have hz : hexByte a b = some z := hesc
            have hlt : rest.length < n := by simp only [List.length_cons] at hn; omega
            rw [reference_some hz, decode_escape, escapeBytes_some hz, List.singleton_append] at heq
            by_cases hbig : z.toNat < 0x80
            · rw [lossy_cons hbig, lossy_cons hbig] at heq
              obtain ⟨rfl, hrest⟩ := List.cons.inj heq
              exact ih _ hlt rest rfl y _ hy hx hrest
            · exact head_of_lead hascii.2.2.1 hascii.2.2.2 (Nat.le_of_not_lt hbig) (referenceBytes rest)
                (by rw [← heq]; rfl)
      · have hlt : rest.length < n := by simp only [List.length_cons] at hn; omega
        rw [reference_plain hc, decode_plain hc] at heq
        by_cases hplus : c = '+'
        · subst hplus
          have hspace : plainBytes '+' = [0x20] := rfl
          rw [hspace, List.singleton_append, lossy_cons (by decide)] at heq
          rw [List.singleton_append, lossy_cons (by decide)] at heq
          exact hascii.2.1 (List.cons.inj heq).1
        · rw [plain_of_ne hplus, lossy_char, lossy_char] at heq
          obtain ⟨rfl, hrest⟩ := List.cons.inj heq
          exact ih _ hlt rest rfl y x hy hx hrest

theorem eq_of_hexValue (h : hexValue c = some n) (hn : n < 10) : c.toNat = 48 + n := by
  unfold hexValue at h
  dsimp only at h
  split_ifs at h with h1 h2 h3
  · have heq := Option.some.inj h
    omega
  · have heq := Option.some.inj h
    omega
  · have heq := Option.some.inj h
    omega

theorem decode_digit (h : hexValue c = some n) :
    decodeBytes (c :: rest) = String.utf8EncodeChar c ++ decodeBytes rest := by
  have hc : c ≠ '%' := by
    rintro rfl
    cases h
  rw [decode_plain hc, plain_of_ne (ne_plus_of_hex h)]

/-- An escape that is copied is not read as its byte. -/
theorem escape_apart {x : UInt8} (h : hexByte a b = some x) :
    '%' :: fromUtf8Lossy (decodeBytes (a :: b :: rest)) ≠ fromUtf8Lossy (x :: referenceBytes rest) := by
  obtain ⟨n, m, hn, hm, hx⟩ := hexByte_eq_some h
  have hbound := And.intro (hexValue_lt hn).1 (hexValue_lt hm).1
  have hnat : x.toNat = n * 16 + m := by rw [hx]; exact toNat_byte (by omega)
  intro heq
  by_cases hbig : x.toNat < 0x80
  · rw [lossy_cons hbig, decode_digit hn, decode_digit hm, lossy_char, lossy_char] at heq
    obtain ⟨hhead, hrest⟩ := List.cons.inj heq
    have hpercent : x.toNat = 37 := by
      have hnat := congrArg Char.toNat hhead
      rcases toNat_ofNat_cases x.toNat with hc | hc
      · rw [hc] at hnat
        exact hnat.symm
      · rw [hc] at hnat
        exact absurd hnat (by decide)
    have hn2 : n = 2 := by omega
    have hm5 : m = 5 := by omega
    subst hn2 hm5
    have ha : a = '2' := Char.toNat_inj.1 (eq_of_hexValue hn (by decide))
    have hb : b = '5' := Char.toNat_inj.1 (eq_of_hexValue hm (by decide))
    exact digits_apart rest a b (.inl ha) (.inr hb) hrest
  · exact head_of_lead (c := '%') (by decide) (by decide) (Nat.le_of_not_lt hbig) (referenceBytes rest)
      (by rw [← heq]; rfl)

/-- Two runs of bytes that go the same way to a character and are not read alike from there on. -/
def Parted (s t : List UInt8) : Prop :=
  ∃ (w : List UInt8) (x y : UInt8) (u v : List UInt8), s = w ++ x :: u ∧ t = w ++ y :: v ∧
    (x.toNat < 0x80 ∧ y.toNat < 0x80) ∧
      Char.ofNat x.toNat :: fromUtf8Lossy u ≠ Char.ofNat y.toNat :: fromUtf8Lossy v

theorem Parted.append {s t : List UInt8} (h : Parted s t) (w : List UInt8) : Parted (w ++ s) (w ++ t) := by
  obtain ⟨w', x, y, u, v, rfl, rfl, hascii, hne⟩ := h
  exact ⟨w ++ w', x, y, u, v, (List.append_assoc ..).symm, (List.append_assoc ..).symm, hascii, hne⟩

theorem Parted.lossy {s t : List UInt8} (h : Parted s t) : fromUtf8Lossy s ≠ fromUtf8Lossy t := by
  obtain ⟨w, x, y, u, v, rfl, rfl, hascii, hne⟩ := h
  intro heq
  rw [fromUtf8Lossy, fromUtf8Lossy, lossy_ascii hascii.1, lossy_ascii hascii.2] at heq
  exact hne (List.append_cancel_left heq)

theorem Parted.byte {x y : UInt8} (hx : x.toNat < 0x80) (hy : y.toNat < 0x80)
    (hne : Char.ofNat x.toNat ≠ Char.ofNat y.toNat) (u v : List UInt8) : Parted (x :: u) (y :: v) :=
  ⟨[], x, y, u, v, rfl, rfl, ⟨hx, hy⟩, fun heq => hne (List.cons.inj heq).1⟩

theorem Parted.percent {u v : List UInt8} (h : fromUtf8Lossy u ≠ fromUtf8Lossy v) : Parted (0x25 :: u) (0x25 :: v) :=
  ⟨[], 0x25, 0x25, u, v, rfl, rfl, ⟨by decide, by decide⟩, fun heq => h (List.cons.inj heq).2⟩

/-- A plus sign that is copied is not read as a space. -/
theorem plus_apart (u : List UInt8) (rest : List Char) :
    Parted (String.utf8EncodeChar '+' ++ u) (referenceBytes ('+' :: rest)) := by
  rw [reference_plain (by decide)]
  exact Parted.byte (by decide) (by decide) (by decide) u (referenceBytes rest)

/-- An escape that is copied up to its percent sign. -/
theorem percent_apart {x : UInt8} (h : escapeAt rest = some x) :
    fromUtf8Lossy (String.utf8EncodeChar '%' ++ decodeBytes rest) ≠ fromUtf8Lossy (referenceBytes ('%' :: rest)) := by
  match rest, h with
  | a :: b :: rest, h =>
    rw [lossy_char, reference_some h]
    exact escape_apart h

theorem escapeAt_of_not_quiet (hc : c ≠ '+') (h : quiet (c :: rest) = false) :
    c = '%' ∧ ∃ x, escapeAt rest = some x := by
  unfold quiet at h
  simp only [ne_eq, hc, not_false_eq_true, decide_true, Bool.true_and, Bool.not_eq_false', Bool.and_eq_true,
    decide_eq_true_eq, Option.isSome_iff_exists] at h
  exact h

/-- What stands first behind the percent sign is no character by itself. -/
theorem first_apart (hx : hexByte a b = none) (h : quiet (a :: b :: rest) = false) :
    Parted (decodeBytes ('%' :: a :: b :: rest)) (referenceBytes ('%' :: a :: b :: rest)) := by
  rw [reference_pair hx]
  by_cases ha : a = '+'
  · subst ha
    rw [decode_escape]
    rcases escapeBytes_plus b with ⟨x, hlt, hone⟩ | hcopy
    · rw [hone]
      refine Parted.byte (by omega) (by decide) (fun heq => ?_) _ _
      have hnat := congrArg Char.toNat heq
      have hpercent : (Char.ofNat (UInt8.toNat 0x25)).toNat = 37 := by decide
      rcases toNat_ofNat_cases x.toNat with hc | hc
      · omega
      · omega
    · rw [hcopy]
      have hsplit : 0x25 :: utf8Bytes ['+', b] ++ decodeBytes rest =
          [0x25] ++ (String.utf8EncodeChar '+' ++ (String.utf8EncodeChar b ++ decodeBytes rest)) := by simp [utf8Bytes]
      rw [hsplit]
      exact (plus_apart _ _).append [0x25]
  · obtain ⟨rfl, x, hesc⟩ := escapeAt_of_not_quiet ha h
    match rest, hesc with
    | d :: rest, hesc =>
      obtain ⟨n, m, hn, hm, _⟩ := hexByte_eq_some hesc
      rw [decode_none ha hx, ← decode_digit hn]
      exact Parted.percent (percent_apart hesc)

/-- And what stands behind it is none. -/
theorem second_apart (hx : hexByte a b = none) (ha : quiet (a :: b :: rest) = true)
    (h : quiet (b :: rest) = false) :
    Parted (decodeBytes ('%' :: a :: b :: rest)) (referenceBytes ('%' :: a :: b :: rest)) := by
  rw [decode_none (ne_plus_of_quiet ha) hx, reference_pair hx, reference_quiet ha]
  by_cases hb : b = '+'
  · subst hb
    exact (plus_apart _ _).append (0x25 :: String.utf8EncodeChar a)
  · obtain ⟨rfl, x, hesc⟩ := escapeAt_of_not_quiet hb h
    refine Parted.percent ?_
    rw [lossy_char a, lossy_char a]
    exact fun heq => percent_apart hesc (List.cons.inj heq).2

theorem unsound_bytes (s : List Char) (h : sound s = false) : Parted (decodeBytes s) (referenceBytes s) := by
  induction hn : s.length using Nat.strong_induction_on generalizing s with
  | _ n ih =>
    match s with
    | [] => cases h
    | c :: rest =>
      by_cases hc : c = '%'
      · subst hc
        match rest, h with
        | [], h => cases h
        | [a], h =>
          have hquiet : quiet [a] = false := h
          have ha : a = '+' := by
            by_contra hne
            obtain ⟨_, x, hesc⟩ := escapeAt_of_not_quiet hne hquiet
            cases hesc
          subst ha
          rw [decode_one, reference_one]
          exact (plus_apart [] []).append [0x25]
        | a :: b :: rest, h =>
          have hlt : rest.length < n := by simp only [List.length_cons] at hn; omega
          cases hx : hexByte a b with
          | some x =>
            rw [sound_some hx] at h
            rw [decode_escape, escapeBytes_some hx, reference_some hx]
            exact (ih _ hlt rest h rfl).append [x]
          | none =>
            cases ha : quiet (a :: b :: rest) with
            | false => exact first_apart hx ha
            | true =>
              cases hb : quiet (b :: rest) with
              | false => exact second_apart hx ha hb
              | true =>
                have hrest : sound rest = false := by
                  rw [sound_none hx, ha, hb] at h
                  exact h
                rw [decode_none (ne_plus_of_quiet ha) hx, reference_pair hx, reference_quiet ha, reference_quiet hb]
                have hpart := (ih _ hlt rest hrest rfl).append
                  (0x25 :: (String.utf8EncodeChar a ++ String.utf8EncodeChar b))
                simpa using hpart
      · rw [sound_plain hc] at h
        have hlt : rest.length < n := by simp only [List.length_cons] at hn; omega
        rw [decode_plain hc, reference_plain hc]
        exact (ih _ hlt rest h rfl).append (plainBytes c)

/-! ## The round trip -/

theorem hexUpper_value : ∀ n < 16, hexValue (hexUpper n) = some n ∧ hexUpper n ≠ '+' := by decide

theorem formByte_hex (x : UInt8) :
    hexByte (hexUpper (x.toNat / 16)) (hexUpper (x.toNat % 16)) = some x := by
  have hbyte := x.toNat_lt
  rw [hexByte, (hexUpper_value _ (by omega)).1, (hexUpper_value _ (by omega)).1]
  show some (UInt8.ofNat (x.toNat / 16 * 16 + x.toNat % 16)) = some x
  rw [Nat.div_add_mod', UInt8.ofNat_toNat]

theorem formPlain_char (n : Nat) (h : formPlain n = true) : Char.ofNat n ≠ '%' ∧ Char.ofNat n ≠ '+' ∧
    String.utf8EncodeChar (Char.ofNat n) = [UInt8.ofNat n] := by
  have hlt : n < 128 := by
    simp only [formPlain, Bool.or_eq_true, Bool.and_eq_true, decide_eq_true_eq] at h
    omega
  have hsmall : ∀ n < 128, formPlain n = true → Char.ofNat n ≠ '%' ∧ Char.ofNat n ≠ '+' ∧
      String.utf8EncodeChar (Char.ofNat n) = [UInt8.ofNat n] := by decide
  exact hsmall n hlt h

theorem decode_formByte (x : UInt8) : decodeBytes (formByte x ++ rest) = x :: decodeBytes rest := by
  unfold formByte
  split_ifs with hspace hplain
  · have hx : x = 0x20 := UInt8.toNat_inj.1 hspace
    rw [hx, List.singleton_append, decode_plain (by decide)]
    rfl
  · obtain ⟨hpercent, hplus, hbytes⟩ := formPlain_char x.toNat hplain
    rw [List.singleton_append, decode_plain hpercent, plain_of_ne hplus, hbytes, UInt8.ofNat_toNat]
    rfl
  · rw [List.cons_append, List.cons_append, List.cons_append, List.nil_append, decode_escape,
      escapeBytes_some (formByte_hex x)]
    rfl

theorem decode_form (bytes : List UInt8) : decodeBytes (bytes.flatMap formByte) = bytes := by
  induction bytes with
  | nil => rfl
  | cons x bytes ih => rw [List.flatMap_cons, decode_formByte, ih]

end escapes

/-- The text is read as the reference reads it, and the form encoding of any text is read back, where no plus sign and
no escape stands in the two characters behind a percent sign that starts none. -/
theorem url_decode_iff (s : List Char) :
    (urlDecodeFallback s = urlReference s ∧ ∀ t, urlDecodeFallback (formEncode t) = t) ↔ sound s = true := by
  have hform : ∀ t, urlDecodeFallback (formEncode t) = t := fun t => by
    rw [urlDecodeFallback, formEncode, decode_form, lossy_utf8]
  refine ⟨fun h => ?_, fun h => ⟨?_, hform⟩⟩
  · by_contra hne
    exact (unsound_bytes s (Bool.eq_false_iff.2 hne)).lossy h.1
  · rw [urlDecodeFallback, urlReference, sound_bytes s h]

/-- Of `%%41` every character is kept, where the escape behind the first percent sign is an `A`. -/
theorem url_decode_swallowed : ¬ ∀ s, urlDecodeFallback s = urlReference s := fun h =>
  absurd (h "%%41".toList) (by decide)

end Metalogos.Server
