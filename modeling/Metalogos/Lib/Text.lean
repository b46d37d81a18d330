import Mathlib.Data.List.Basic

/-!
# Text: hex digits, lines, trimming, joining

`hexEncode`/`hexDecode` between bytes and lower-case hex, `lines` and `trim` as Rust's `str::lines`
and `str::trim` have them, on character lists. The two facts a line-based format needs: hex decodes
back (`hexDecode_encode`), and newline-terminated lines come back as they were (`lines_terminated`).
What was joined is known again from where it was cut (`intercalate_inj`), or from the separator where
no piece has one (`intercalate_inj_of_free`).
-/
namespace Metalogos.Lib

/-! ## Hex -/

def hexDigit (n : Nat) : Char := "0123456789abcdef".toList.getD n '0'

def hexValue (c : Char) : Option Nat :=
  let n := c.toNat
  if 48 ≤ n ∧ n ≤ 57 then some (n - 48)
  else if 97 ≤ n ∧ n ≤ 102 then some (n - 87)
  else if 65 ≤ n ∧ n ≤ 70 then some (n - 55)
  else none

def hexEncode : List UInt8 → List Char
  | [] => []
  | b :: bs => hexDigit (b.toNat / 16) :: hexDigit (b.toNat % 16) :: hexEncode bs

/-- Both letter cases are read; an odd number of digits is refused. -/
def hexDecode : List Char → Option (List UInt8)
  | [] => some []
  | [_] => none
  | hi :: lo :: rest => do
    let h ← hexValue hi
    let l ← hexValue lo
    let bs ← hexDecode rest
    some (UInt8.ofNat (h * 16 + l) :: bs)

theorem hexValue_digit : ∀ n < 16, hexValue (hexDigit n) = some n := by decide

theorem hexDecode_encode : ∀ bs : List UInt8, hexDecode (hexEncode bs) = some bs
  | [] => rfl
  | b :: bs => by
    have hb : b.toNat < 256 := b.toNat_lt
    have hsum : b.toNat / 16 * 16 + b.toNat % 16 = b.toNat := Nat.div_add_mod' _ _
    rw [hexEncode, hexDecode, hexValue_digit _ (by omega), hexValue_digit _ (by omega),
      hexDecode_encode bs]
    show some (UInt8.ofNat (b.toNat / 16 * 16 + b.toNat % 16) :: bs) = some (b :: bs)
    rw [hsum, UInt8.ofNat_toNat]

theorem length_hexEncode : ∀ bs : List UInt8, (hexEncode bs).length = 2 * bs.length
  | [] => rfl
  | b :: bs => by
    simp only [hexEncode, List.length_cons, length_hexEncode bs]
    omega

/-! ## Lines -/

/-- `split('\n')`: always at least one piece. -/
def splitLines : List Char → List (List Char)
  | [] => [[]]
  | c :: cs =>
    if c = '\n' then [] :: splitLines cs
    else match splitLines cs with
      | l :: ls => (c :: l) :: ls
      | [] => [[c]]

def stripCr (l : List Char) : List Char := if l.getLast? = some '\r' then l.dropLast else l

/-- `str::lines`: an empty last piece is no line, and `\r\n` ends one too. -/
def lines (s : List Char) : List (List Char) :=
  let ps := splitLines s
  ps.dropLast.map stripCr ++ ps.getLast?.toList.filter (· ≠ [])

theorem lines_eq {s : List Char} {ls : List (List Char)} {last : List Char} (h : splitLines s = ls ++ [last]) :
    lines s = ls.map stripCr ++ if last = [] then [] else [last] := by
  unfold lines
  dsimp only
  rw [h, List.dropLast_concat, List.getLast?_concat]
  by_cases hlast : last = [] <;> simp [hlast]

theorem splitLines_terminated {l : List Char} (rest : List Char) (h : '\n' ∉ l) :
    splitLines (l ++ '\n' :: rest) = l :: splitLines rest := by
  induction l with
  | nil => simp [splitLines]
  | cons c l ih =>
    simp only [List.mem_cons, not_or] at h
    rw [List.cons_append, splitLines, if_neg (Ne.symm h.1), ih h.2]

/-- Newline-terminated lines without a newline of their own are read back. -/
theorem lines_terminated {ls : List (List Char)} (hn : ∀ l ∈ ls, '\n' ∉ l)
    (hr : ∀ l ∈ ls, l.getLast? ≠ some '\r') : lines (ls.flatMap (· ++ ['\n'])) = ls := by
  have hsplit : splitLines (ls.flatMap (· ++ ['\n'])) = ls ++ [[]] := by
    induction ls with
    | nil => rfl
    | cons l ls ih =>
      rw [List.flatMap_cons, List.append_assoc, List.singleton_append,
        splitLines_terminated _ (hn l (by simp)), ih (fun x hx => hn x (by simp [hx]))
          (fun x hx => hr x (by simp [hx]))]
      rfl
  rw [lines_eq hsplit, if_pos rfl, List.append_nil]
  conv_rhs => rw [← List.map_id ls]
  refine List.map_congr_left fun l hl => ?_
  simp [stripCr, hr l hl]

theorem splitLines_last {l : List Char} (h : '\n' ∉ l) : splitLines l = [l] := by
  induction l with
  | nil => rfl
  | cons c l ih =>
    simp only [List.mem_cons, not_or] at h
    rw [splitLines, if_neg (Ne.symm h.1), ih h.2]

theorem splitLines_intercalate {ls : List (List Char)} (hn : ∀ l ∈ ls, '\n' ∉ l) (hne : ls ≠ []) :
    splitLines (['\n'].intercalate ls) = ls := by
  induction ls with
  | nil => exact absurd rfl hne
  | cons l ls ih =>
    cases ls with
    | nil => rw [List.intercalate_singleton, splitLines_last (hn l List.mem_cons_self)]
    | cons m ls =>
      have hrest := ih (fun x hx => hn x (List.mem_cons_of_mem l hx)) (List.cons_ne_nil m ls)
      rw [List.intercalate_cons_cons, List.append_assoc, List.singleton_append,
        splitLines_terminated _ (hn l List.mem_cons_self), hrest]

/-- Lines that were joined are read back, all but the last without a carriage return at their end. -/
theorem lines_intercalate {ls : List (List Char)} {last : List Char} (hn : ∀ l ∈ ls ++ [last], '\n' ∉ l)
    (hlast : last ≠ []) : lines (['\n'].intercalate (ls ++ [last])) = ls.map stripCr ++ [last] := by
  rw [lines_eq (splitLines_intercalate hn (List.append_ne_nil_of_right_ne_nil ls (List.cons_ne_nil last []))),
    if_neg hlast]

/-- Lines that end with a carriage return and a newline are read back. -/
theorem lines_crlf {ls : List (List Char)} (hn : ∀ l ∈ ls, '\n' ∉ l) :
    lines (ls.flatMap (· ++ ['\r', '\n'])) = ls := by
  have hsplit : splitLines (ls.flatMap (· ++ ['\r', '\n'])) = ls.map (· ++ ['\r']) ++ [[]] := by
    induction ls with
    | nil => rfl
    | cons l ls ih =>
      have hl : '\n' ∉ l ++ ['\r'] := by simpa using hn l List.mem_cons_self
      have happ : l ++ ['\r', '\n'] = (l ++ ['\r']) ++ ['\n'] := by simp
      rw [List.flatMap_cons, happ, List.append_assoc, List.singleton_append, splitLines_terminated _ hl,
        ih fun x hx => hn x (List.mem_cons_of_mem l hx)]
      rfl
  rw [lines_eq hsplit, if_pos rfl, List.append_nil, List.map_map]
  conv_rhs => rw [← List.map_id ls]
  refine List.map_congr_left fun l _ => ?_
  simp [stripCr]

/-! ## Joining -/

section

variable {α : Type} {ls ls' : List (List α)}

theorem length_intercalate {sep : List α} (hlen : ls.map List.length = ls'.map List.length) :
    (sep.intercalate ls).length = (sep.intercalate ls').length := by
  induction ls generalizing ls' with
  | nil =>
    obtain rfl : ls' = [] := by simpa using hlen.symm
    rfl
  | cons l ls ih =>
    cases ls' with
    | nil => cases hlen
    | cons l' ls' =>
      obtain ⟨hl, hls⟩ := List.cons.inj hlen
      cases ls with
      | nil =>
        obtain rfl : ls' = [] := by simpa using hls.symm
        simpa using hl
      | cons m ls =>
        cases ls' with
        | nil => cases hls
        | cons m' ls' =>
          rw [List.intercalate_cons_cons, List.intercalate_cons_cons, List.length_append, List.length_append, ih hls,
            List.length_append, List.length_append, hl]

/-- Texts cut at the same places and joined to the same text are the same. -/
theorem intercalate_inj {sep : List α} (hlen : ls.map List.length = ls'.map List.length)
    (h : sep.intercalate ls = sep.intercalate ls') : ls = ls' := by
  induction ls generalizing ls' with
  | nil => simpa using hlen.symm
  | cons l ls ih =>
    cases ls' with
    | nil => cases hlen
    | cons l' ls' =>
      obtain ⟨hl, hls⟩ := List.cons.inj hlen
      cases ls with
      | nil =>
        obtain rfl : ls' = [] := by simpa using hls.symm
        simpa using h
      | cons m ls =>
        cases ls' with
        | nil => cases hls
        | cons m' ls' =>
          rw [List.intercalate_cons_cons, List.intercalate_cons_cons, List.append_assoc, List.append_assoc] at h
          obtain ⟨rfl, hrest⟩ := List.append_inj h hl
          rw [ih hls (List.append_cancel_left hrest)]

/-- Texts without the separator that are joined to the same text are the same. -/
theorem intercalate_inj_of_free [DecidableEq α] {c : α} (hls : ∀ l ∈ ls, c ∉ l) (hls' : ∀ l ∈ ls', c ∉ l)
    (hne : ls ≠ []) (hne' : ls' ≠ []) (h : [c].intercalate ls = [c].intercalate ls') : ls = ls' := by
  rw [← List.splitOn_intercalate c hls hne, h, List.splitOn_intercalate c hls' hne']

end

/-! ## Cutting at the first separator -/

section

variable {α : Type} [DecidableEq α] {c : α} {l : List α}

theorem takeWhile_ne_append (h : c ∉ l) (rest : List α) : (l ++ c :: rest).takeWhile (· ≠ c) = l := by
  induction l with
  | nil => simp
  | cons d l ih =>
    simp only [List.mem_cons, not_or] at h
    rw [List.cons_append, List.takeWhile_cons, if_pos (decide_eq_true (Ne.symm h.1)), ih h.2]

theorem dropWhile_ne_append (h : c ∉ l) (rest : List α) : (l ++ c :: rest).dropWhile (· ≠ c) = c :: rest := by
  induction l with
  | nil => simp
  | cons d l ih =>
    simp only [List.mem_cons, not_or] at h
    rw [List.cons_append, List.dropWhile_cons, if_pos (decide_eq_true (Ne.symm h.1)), ih h.2]

theorem takeWhile_ne_self (h : c ∉ l) : l.takeWhile (· ≠ c) = l := by
  induction l with
  | nil => rfl
  | cons d l ih =>
    simp only [List.mem_cons, not_or] at h
    rw [List.takeWhile_cons, if_pos (decide_eq_true (Ne.symm h.1)), ih h.2]

end

/-! ## Trimming -/

/-- Unicode `White_Space`. -/
def isWhite (c : Char) : Bool :=
  let n := c.toNat
  (9 ≤ n && n ≤ 13) || n = 32 || n = 0x85 || n = 0xA0 || n = 0x1680 || (0x2000 ≤ n && n ≤ 0x200A)
    || n = 0x2028 || n = 0x2029 || n = 0x202F || n = 0x205F || n = 0x3000

/-- `str::trim`. -/
def trim (s : List Char) : List Char := ((s.dropWhile isWhite).reverse.dropWhile isWhite).reverse

/-- `str::trim_end`. -/
def trimEnd (s : List Char) : List Char := (s.reverse.dropWhile isWhite).reverse

theorem trim_of_solid {s : List Char} (hf : ∀ c ∈ s.head?, isWhite c = false)
    (hl : ∀ c ∈ s.getLast?, isWhite c = false) : trim s = s := by
  have hdrop {l : List Char} (h : ∀ c ∈ l.head?, isWhite c = false) : l.dropWhile isWhite = l := by
    cases l with
    | nil => rfl
    | cons c l => simp [h c (by simp)]
  unfold trim
  rw [hdrop hf, hdrop (by rwa [List.head?_reverse]), List.reverse_reverse]

theorem trimEnd_concat {s : List Char} {c : Char} (hc : isWhite c = true) : trimEnd (s ++ [c]) = trimEnd s := by
  simp [trimEnd, hc]

theorem trimEnd_append {s t : List Char} {c : Char} (hc : isWhite c = false) :
    trimEnd (s ++ c :: t) = s ++ c :: trimEnd t := by
  unfold trimEnd
  rw [List.reverse_append, List.reverse_cons, List.append_assoc, List.dropWhile_append]
  split <;> simp_all

theorem trim_of_head {c : Char} {s : List Char} (hc : isWhite c = false) : trim (c :: s) = trimEnd (c :: s) := by
  unfold trim trimEnd
  rw [List.dropWhile_cons_of_neg (by simp [hc])]

theorem trimEnd_stripCr (s : List Char) : trimEnd (stripCr s) = trimEnd s := by
  unfold stripCr
  split
  · rename_i h
    have hs := List.dropLast_append_getLast? '\r' h
    conv_rhs => rw [← hs, trimEnd_concat (by decide)]
  · rfl

end Metalogos.Lib
