import Mathlib.Data.List.Basic
import Mathlib.Algebra.GroupWithZero.Nat

/-!
# Cutting a text at byte offsets

A text is a list of characters and is cut at offsets of its UTF-8 bytes. `Boundary n s`: the offset lies between two
characters, so that the cut is one of the text (`splitBytes_iff`). `sliceBytes` is what `str::get(p..e)` hands out, and
also `from_utf8` of the bytes between, for a piece that is not empty.
-/
namespace Metalogos.Lib

def byteLen (s : List Char) : Nat := (s.map Char.utf8Size).sum

/-- The two sides of an offset that lies between two characters. -/
def splitBytes : Nat → List Char → Option (List Char × List Char)
  | 0, s => some ([], s)
  | _ + 1, [] => none
  | n + 1, c :: s => if c.utf8Size ≤ n + 1 then (splitBytes (n + 1 - c.utf8Size) s).map fun ab => (c :: ab.1, ab.2) else none

def sliceBytes (s : List Char) (p e : Nat) : Option (List Char) := do
  let ab ← splitBytes p s
  let mb ← splitBytes (e - p) ab.2
  some mb.1

def Boundary (n : Nat) (s : List Char) : Prop := ∃ a b, s = a ++ b ∧ byteLen a = n

section

variable {s a b m : List Char} {n p e : Nat}

@[simp] theorem byteLen_nil : byteLen [] = 0 := rfl

@[simp] theorem byteLen_cons (c : Char) (s : List Char) : byteLen (c :: s) = c.utf8Size + byteLen s := by
  simp [byteLen]

@[simp] theorem byteLen_append (s t : List Char) : byteLen (s ++ t) = byteLen s + byteLen t := by
  simp [byteLen]

theorem byteLen_eq_zero (h : byteLen s = 0) : s = [] := by
  cases s with
  | nil => rfl
  | cons c s =>
    have hpos := c.utf8Size_pos
    rw [byteLen_cons] at h
    omega

theorem splitBytes_iff : splitBytes n s = some (a, b) ↔ s = a ++ b ∧ byteLen a = n := by
  induction s generalizing n a with
  | nil =>
    cases n with
    | zero =>
      constructor
      · intro h
        cases h
        exact ⟨rfl, rfl⟩
      · rintro ⟨h, -⟩
        obtain ⟨rfl, rfl⟩ := List.append_eq_nil_iff.1 h.symm
        rfl
    | succ n =>
      constructor
      · intro h
        cases h
      · rintro ⟨h, hn⟩
        obtain ⟨rfl, rfl⟩ := List.append_eq_nil_iff.1 h.symm
        cases hn
  | cons c s ih =>
    cases n with
    | zero =>
      constructor
      · intro h
        cases h
        exact ⟨rfl, rfl⟩
      · rintro ⟨h, hn⟩
        obtain rfl := byteLen_eq_zero hn
        rw [splitBytes, h]
        rfl
    | succ n =>
      have hpos := c.utf8Size_pos
      rw [splitBytes]
      split_ifs with hle
      · rw [Option.map_eq_some_iff]
        constructor
        · rintro ⟨ab, hab, heq⟩
          cases heq
          obtain ⟨h, hn⟩ := ih.1 hab
          rw [byteLen_cons, hn, h]
          exact ⟨rfl, by omega⟩
        · rintro ⟨h, hn⟩
          cases a with
          | nil => cases hn
          | cons d a =>
            obtain ⟨rfl, htail⟩ := List.cons.inj h
            rw [byteLen_cons] at hn
            exact ⟨(a, b), ih.2 ⟨htail, by omega⟩, rfl⟩
      · constructor
        · intro h
          cases h
        · rintro ⟨h, hn⟩
          cases a with
          | nil => cases hn
          | cons d a =>
            obtain ⟨rfl, -⟩ := List.cons.inj h
            rw [byteLen_cons] at hn
            omega

theorem sliceBytes_iff : sliceBytes s p e = some m ↔ ∃ a b, s = a ++ (m ++ b) ∧ byteLen a = p ∧ byteLen m = e - p := by
  unfold sliceBytes
  simp only [Option.bind_eq_bind, Option.bind_eq_some_iff, Option.some.injEq]
  constructor
  · rintro ⟨⟨a, r⟩, ha, ⟨m', b⟩, hm, rfl⟩
    obtain ⟨rfl, hp⟩ := splitBytes_iff.1 ha
    obtain ⟨rfl, he⟩ := splitBytes_iff.1 hm
    exact ⟨a, b, rfl, hp, he⟩
  · rintro ⟨a, b, rfl, hp, he⟩
    exact ⟨(a, m ++ b), splitBytes_iff.2 ⟨rfl, hp⟩, (m, b), splitBytes_iff.2 ⟨rfl, he⟩, rfl⟩

theorem boundary_end : Boundary (byteLen s) s := ⟨s, [], (List.append_nil s).symm, rfl⟩

/-- Two offsets between characters are the ends of a piece. -/
theorem exists_slice (hp : Boundary p s) (he : Boundary e s) (hle : p ≤ e) : ∃ m, sliceBytes s p e = some m := by
  obtain ⟨a, b, hs, ha⟩ := hp
  obtain ⟨a', b', hs', ha'⟩ := he
  rcases List.append_eq_append_iff.1 (hs.symm.trans hs') with ⟨m, hm, hb⟩ | ⟨m, hm, hb⟩
  · subst hm
    rw [byteLen_append] at ha'
    exact ⟨m, sliceBytes_iff.2 ⟨a, b', by rw [hs, hb], ha, by omega⟩⟩
  · subst hm
    rw [byteLen_append] at ha
    have hnil : m = [] := byteLen_eq_zero (by omega)
    subst hnil
    exact ⟨[], sliceBytes_iff.2 ⟨a', b, by simpa using hs, by simpa using ha, by simp; omega⟩⟩

theorem boundary_of_slice (h : sliceBytes s p e = some m) (hle : p ≤ e) : Boundary p s ∧ Boundary e s := by
  obtain ⟨a, b, hs, ha, hm⟩ := sliceBytes_iff.1 h
  exact ⟨⟨a, m ++ b, hs, ha⟩, a ++ m, b, by rw [hs, List.append_assoc], by rw [byteLen_append]; omega⟩

end

end Metalogos.Lib
