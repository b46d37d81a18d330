import Mathlib

/-!
# Reading bytes as text

`String::from_utf8_lossy`: a UTF-8 sequence is read as its character, and each longest start of a sequence that is not
one of them, or a byte that starts none, as U+FFFD. The reader goes from byte to byte with what it has of a sequence.

A character is read back from its bytes (`lossy_char`), and an ASCII byte is read as itself behind any bytes
(`lossy_ascii`).
-/
namespace Metalogos.Lib

/-- The start of a sequence: its bits, the bytes that may come next, and how many come after that one. -/
structure Partial where
  bits : Nat
  low : Nat
  high : Nat
  more : Nat
  tail : 0x80 ≤ low
  deriving DecidableEq, Repr

/-- The sequence that a byte above 127 starts. -/
def leadByte (b : Nat) : Option Partial :=
  if b < 0xC2 then none
  else if b < 0xE0 then some ⟨b - 0xC0, 0x80, 0xBF, 0, Nat.le_refl _⟩
  else if b < 0xF0 then
    some ⟨b - 0xE0, if b = 0xE0 then 0xA0 else 0x80, if b = 0xED then 0x9F else 0xBF, 1, by split <;> omega⟩
  else if b < 0xF5 then
    some ⟨b - 0xF0, if b = 0xF0 then 0x90 else 0x80, if b = 0xF4 then 0x8F else 0xBF, 2, by split <;> omega⟩
  else none

def replacement : Char := Char.ofNat 0xFFFD

/-- A byte behind a whole sequence. -/
def startByte (b : Nat) : List Char × Option Partial :=
  if b < 0x80 then ([Char.ofNat b], none)
  else match leadByte b with
    | some p => ([], some p)
    | none => ([replacement], none)

/-- A byte behind the start of a sequence; one that does not go on with it starts anew. -/
def nextByte (p : Partial) (b : Nat) : List Char × Option Partial :=
  if p.low ≤ b ∧ b ≤ p.high then
    match p.more with
    | 0 => ([Char.ofNat (p.bits * 64 + (b - 0x80))], none)
    | more + 1 => ([], some ⟨p.bits * 64 + (b - 0x80), 0x80, 0xBF, more, Nat.le_refl _⟩)
  else (replacement :: (startByte b).1, (startByte b).2)

def lossyFrom : Option Partial → List UInt8 → List Char
  | none, [] => []
  | some _, [] => [replacement]
  | none, b :: bytes => (startByte b.toNat).1 ++ lossyFrom (startByte b.toNat).2 bytes
  | some p, b :: bytes => (nextByte p b.toNat).1 ++ lossyFrom (nextByte p b.toNat).2 bytes

/-- `String::from_utf8_lossy` -/
def fromUtf8Lossy (bytes : List UInt8) : List Char := lossyFrom none bytes

/-- The bytes of a text. -/
def utf8Bytes (s : List Char) : List UInt8 := s.flatMap String.utf8EncodeChar

/-! ## What is read back -/

theorem startByte_ascii {b : Nat} (h : b < 0x80) : startByte b = ([Char.ofNat b], none) := if_pos h

/-- An ASCII byte ends whatever is before it. -/
theorem lossy_ascii {b : UInt8} (h : b.toNat < 0x80) (before after : List UInt8) :
    ∀ p, lossyFrom p (before ++ b :: after) = lossyFrom p before ++ Char.ofNat b.toNat :: fromUtf8Lossy after := by
  induction before with
  | nil =>
    intro p
    cases p with
    | none => simp only [List.nil_append, lossyFrom, startByte_ascii h, List.singleton_append, fromUtf8Lossy]
    | some p =>
      have hlow : ¬(p.low ≤ b.toNat ∧ b.toNat ≤ p.high) := fun hin => by
        have htail := p.tail
        omega
      simp only [List.nil_append, lossyFrom, nextByte, if_neg hlow, startByte_ascii h, List.cons_append,
        fromUtf8Lossy]
  | cons a before ih =>
    intro p
    cases p with
    | none => simp only [List.cons_append, lossyFrom, ih, List.append_assoc]
    | some p => simp only [List.cons_append, lossyFrom, ih, List.append_assoc]

theorem toNat_byte {n : Nat} (h : n < 256) : (UInt8.ofNat n).toNat = n := by
  rw [UInt8.toNat_ofNat']
  exact Nat.mod_eq_of_lt h

theorem nextByte_last {bits low high b : Nat} {tail : 0x80 ≤ low} (h : low ≤ b ∧ b ≤ high) :
    nextByte ⟨bits, low, high, 0, tail⟩ b = ([Char.ofNat (bits * 64 + (b - 0x80))], none) := if_pos h

theorem nextByte_more {bits low high more b : Nat} {tail : 0x80 ≤ low} (h : low ≤ b ∧ b ≤ high) :
    nextByte ⟨bits, low, high, more + 1, tail⟩ b =
      ([], some ⟨bits * 64 + (b - 0x80), 0x80, 0xBF, more, Nat.le_refl _⟩) :=
  if_pos h

theorem startByte_lead {b : Nat} {p : Partial} (h : 0x80 ≤ b) (hp : leadByte b = some p) :
    startByte b = ([], some p) := by
  rw [startByte, if_neg (by omega), hp]

/-- A character is read back. -/
theorem lossy_char (c : Char) (after : List UInt8) :
    fromUtf8Lossy (String.utf8EncodeChar c ++ after) = c :: fromUtf8Lossy after := by
  have hvalid : c.val.toNat < 0xD800 ∨ 0xDFFF < c.val.toNat ∧ c.val.toNat < 0x110000 := c.valid
  have hback : Char.ofNat c.val.toNat = c := Char.ofNat_toNat c
  unfold String.utf8EncodeChar fromUtf8Lossy
  generalize c.val.toNat = v at hvalid hback
  dsimp only
  split_ifs with h1 h2 h3
  · have hb : (UInt8.ofNat v).toNat = v := toNat_byte (by omega)
    simp only [List.cons_append, List.nil_append, lossyFrom, hb, startByte_ascii (show v < 0x80 by omega), hback]
  · have hb0 : (UInt8.ofNat (v / 64 % 0x20 + 0xC0)).toNat = v / 64 % 0x20 + 0xC0 := toNat_byte (by omega)
    have hb1 : (UInt8.ofNat (v % 0x40 + 0x80)).toNat = v % 0x40 + 0x80 := toNat_byte (by omega)
    have hlead : leadByte (v / 64 % 0x20 + 0xC0) =
        some ⟨v / 64 % 0x20 + 0xC0 - 0xC0, 0x80, 0xBF, 0, Nat.le_refl _⟩ := by
      rw [leadByte, if_neg (by omega), if_pos (by omega)]
    have hbits : (v / 64 % 0x20 + 0xC0 - 0xC0) * 64 + (v % 0x40 + 0x80 - 0x80) = v := by omega
    have hend := @nextByte_last (v / 64 % 0x20 + 0xC0 - 0xC0) 0x80 0xBF (v % 0x40 + 0x80) (Nat.le_refl _) (by omega)
    simp only [List.cons_append, List.nil_append, lossyFrom, hb0, hb1, startByte_lead (by omega) hlead, hend, hbits,
      hback]
  · have hb0 : (UInt8.ofNat (v / 4096 % 0x10 + 0xE0)).toNat = v / 4096 % 0x10 + 0xE0 := toNat_byte (by omega)
    have hb1 : (UInt8.ofNat (v / 64 % 0x40 + 0x80)).toNat = v / 64 % 0x40 + 0x80 := toNat_byte (by omega)
    have hb2 : (UInt8.ofNat (v % 0x40 + 0x80)).toNat = v % 0x40 + 0x80 := toNat_byte (by omega)
    have hlead : ∃ low high tail, leadByte (v / 4096 % 0x10 + 0xE0) =
        some ⟨v / 4096 % 0x10 + 0xE0 - 0xE0, low, high, 1, tail⟩ ∧ low ≤ v / 64 % 0x40 + 0x80 ∧
          v / 64 % 0x40 + 0x80 ≤ high := by
      refine ⟨_, _, _, by rw [leadByte, if_neg (by omega), if_neg (by omega), if_pos (by omega)], ?_, ?_⟩
      · split <;> omega
      · split <;> omega
    obtain ⟨low, high, tail, hlead, hin⟩ := hlead
    have hbits : ((v / 4096 % 0x10 + 0xE0 - 0xE0) * 64 + (v / 64 % 0x40 + 0x80 - 0x80)) * 64 +
        (v % 0x40 + 0x80 - 0x80) = v := by omega
    have hnext : nextByte ⟨v / 4096 % 0x10 + 0xE0 - 0xE0, low, high, 1, tail⟩ (v / 64 % 0x40 + 0x80) = _ :=
      nextByte_more hin
    have hend := @nextByte_last ((v / 4096 % 0x10 + 0xE0 - 0xE0) * 64 + (v / 64 % 0x40 + 0x80 - 0x80)) 0x80 0xBF
      (v % 0x40 + 0x80) (Nat.le_refl _) (by omega)
    simp only [List.cons_append, List.nil_append, lossyFrom, hb0, hb1, hb2, startByte_lead (by omega) hlead, hnext,
      hend, hbits, hback]
  · have hb0 : (UInt8.ofNat (v / 262144 % 0x08 + 0xF0)).toNat = v / 262144 % 0x08 + 0xF0 := toNat_byte (by omega)
    have hb1 : (UInt8.ofNat (v / 4096 % 0x40 + 0x80)).toNat = v / 4096 % 0x40 + 0x80 := toNat_byte (by omega)
    have hb2 : (UInt8.ofNat (v / 64 % 0x40 + 0x80)).toNat = v / 64 % 0x40 + 0x80 := toNat_byte (by omega)
    have hb3 : (UInt8.ofNat (v % 0x40 + 0x80)).toNat = v % 0x40 + 0x80 := toNat_byte (by omega)
    have hlead : ∃ low high tail, leadByte (v / 262144 % 0x08 + 0xF0) =
        some ⟨v / 262144 % 0x08 + 0xF0 - 0xF0, low, high, 2, tail⟩ ∧ low ≤ v / 4096 % 0x40 + 0x80 ∧
          v / 4096 % 0x40 + 0x80 ≤ high := by
      refine ⟨_, _, _, by rw [leadByte, if_neg (by omega), if_neg (by omega), if_neg (by omega), if_pos (by omega)],
        ?_, ?_⟩
      · split <;> omega
      · split <;> omega
    obtain ⟨low, high, tail, hlead, hin⟩ := hlead
    have hbits : (((v / 262144 % 0x08 + 0xF0 - 0xF0) * 64 + (v / 4096 % 0x40 + 0x80 - 0x80)) * 64 +
        (v / 64 % 0x40 + 0x80 - 0x80)) * 64 + (v % 0x40 + 0x80 - 0x80) = v := by omega
    have hnext : nextByte ⟨v / 262144 % 0x08 + 0xF0 - 0xF0, low, high, 2, tail⟩ (v / 4096 % 0x40 + 0x80) = _ :=
      nextByte_more hin
    have hnext' : nextByte ⟨(v / 262144 % 0x08 + 0xF0 - 0xF0) * 64 + (v / 4096 % 0x40 + 0x80 - 0x80), 0x80, 0xBF, 1,
        Nat.le_refl _⟩ (v / 64 % 0x40 + 0x80) = _ := nextByte_more (by omega)
    have hend := @nextByte_last (((v / 262144 % 0x08 + 0xF0 - 0xF0) * 64 + (v / 4096 % 0x40 + 0x80 - 0x80)) * 64 +
      (v / 64 % 0x40 + 0x80 - 0x80)) 0x80 0xBF (v % 0x40 + 0x80) (Nat.le_refl _) (by omega)
    simp only [List.cons_append, List.nil_append, lossyFrom, hb0, hb1, hb2, hb3, startByte_lead (by omega) hlead, hnext,
      hnext', hend, hbits, hback]

theorem lossy_utf8 (s : List Char) : fromUtf8Lossy (utf8Bytes s) = s := by
  induction s with
  | nil => rfl
  | cons c s ih =>
    unfold utf8Bytes at ih ⊢
    rw [List.flatMap_cons, lossy_char, ih]

/-! ## What is not read -/

/-- The sequence is of a character above U+003F. -/
def Partial.Wide (p : Partial) : Prop := 1 ≤ p.bits ∨ 0 < p.more ∧ 0x80 < p.low

theorem wide_of_leadByte {b : Nat} {p : Partial} (h : leadByte b = some p) : p.Wide := by
  unfold leadByte at h
  by_cases h1 : b < 0xC2
  · rw [if_pos h1] at h
    exact absurd h (Option.some_ne_none p).symm
  rw [if_neg h1] at h
  by_cases h2 : b < 0xE0
  · rw [if_pos h2] at h
    rw [← Option.some.inj h]
    exact .inl (show 1 ≤ b - 0xC0 by omega)
  rw [if_neg h2] at h
  by_cases h3 : b < 0xF0
  · rw [if_pos h3] at h
    rw [← Option.some.inj h]
    by_cases hb : b = 0xE0
    · exact .inr ⟨Nat.one_pos, show 0x80 < if b = 0xE0 then 0xA0 else 0x80 by rw [if_pos hb]; omega⟩
    · exact .inl (show 1 ≤ b - 0xE0 by omega)
  rw [if_neg h3] at h
  by_cases h4 : b < 0xF5
  · rw [if_pos h4] at h
    rw [← Option.some.inj h]
    by_cases hb : b = 0xF0
    · exact .inr ⟨Nat.two_pos, show 0x80 < if b = 0xF0 then 0x90 else 0x80 by rw [if_pos hb]; omega⟩
    · exact .inl (show 1 ≤ b - 0xF0 by omega)
  · rw [if_neg h4] at h
    exact absurd h (Option.some_ne_none p).symm

theorem toNat_ofNat_cases (n : Nat) : (Char.ofNat n).toNat = n ∨ (Char.ofNat n).toNat = 0 := by
  unfold Char.ofNat
  split
  · exact .inl rfl
  · exact .inr rfl

theorem head_of_partial {c : Char} (hpos : 0 < c.toNat) (hsmall : c.toNat < 64) :
    ∀ (bytes : List UInt8) (p : Partial), p.Wide → (lossyFrom (some p) bytes).head? ≠ some c := by
  have hrep : replacement ≠ c := by
    rintro rfl
    exact absurd hsmall (by decide)
  intro bytes
  induction bytes with
  | nil =>
    intro p _ h
    exact hrep (Option.some.inj h)
  | cons b bytes ih =>
    intro p hp
    rw [lossyFrom, nextByte]
    split_ifs with hin
    · cases hmore : p.more with
      | zero =>
        have hbits : 1 ≤ p.bits := hp.resolve_right fun h => by omega
        intro h
        have hchar : Char.ofNat (p.bits * 64 + (b.toNat - 0x80)) = c := Option.some.inj h
        rw [← hchar] at hpos hsmall
        rcases toNat_ofNat_cases (p.bits * 64 + (b.toNat - 0x80)) with hn | hn
        · omega
        · omega
      | succ more =>
        refine ih _ (.inl ?_)
        rcases hp with h | h
        · dsimp only
          omega
        · dsimp only
          omega
    · intro h
      exact hrep (Option.some.inj h)

/-- A byte above 127 is not read as a character of the first 64. -/
theorem head_of_lead {c : Char} (hpos : 0 < c.toNat) (hsmall : c.toNat < 64) {b : UInt8} (hb : 0x80 ≤ b.toNat)
    (bytes : List UInt8) : (fromUtf8Lossy (b :: bytes)).head? ≠ some c := by
  rw [fromUtf8Lossy, lossyFrom, startByte, if_neg (by omega)]
  cases hlead : leadByte b.toNat with
  | none =>
    intro h
    have hrep : replacement = c := Option.some.inj h
    rw [← hrep] at hsmall
    exact absurd hsmall (by decide)
  | some p => exact head_of_partial hpos hsmall bytes p (wide_of_leadByte hlead)

theorem lossy_cons {b : UInt8} (h : b.toNat < 0x80) (bytes : List UInt8) :
    fromUtf8Lossy (b :: bytes) = Char.ofNat b.toNat :: fromUtf8Lossy bytes := lossy_ascii h [] bytes none

end Metalogos.Lib
