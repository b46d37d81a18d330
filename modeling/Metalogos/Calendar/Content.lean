import Mathlib.Data.List.TakeWhile
import Metalogos.Calendar.Update

/-!
# What an update leaves

An event text is a list of property lines, and an update ought to leave one line for each field and the other lines
as they were (`Updated`). A field whose property is nowhere in the text becomes a line of its own (`clean_lines`);
where the text `NAME:` occurs, the line is written with a colon in front of the name (`splice_lines`), and no such
line belongs to the property with the value.

`calUpdate_iff`: the update of one field is right exactly when the field is `Clean`, and an update is right when
every field is clean at its turn.
-/
namespace Metalogos.Calendar

open Metalogos.Lib

/-! ## Content lines -/

def delimiters : List Char := [':', ';', '"']

/-- The property a line is about. -/
def nameOf (line : List Char) : List Char := line.takeWhile (· ∉ delimiters)

/-- The text after the first colon that no double quotes enclose. -/
def valueAfter : Bool → List Char → Option (List Char)
  | _, [] => none
  | quoted, c :: text =>
    if c = '"' then valueAfter (!quoted) text
    else if c = ':' ∧ quoted = false then some text
    else valueAfter quoted text

def valueOf (line : List Char) : Option (List Char) := valueAfter false (line.drop (nameOf line).length)

structure ContentLine (line : List Char) : Prop where
  one_line : '\n' ∉ line
  no_return : '\r' ∉ line
  named : nameOf line ≠ []
  valued : (valueOf line).isSome

inductive Eol where
  | crlf
  | lf

def Eol.text : Eol → List Char
  | .crlf => Calendar.crlf
  | .lf => ['\n']

/-- An event of property lines, each ended in one of the two ways. -/
structure VEvent where
  first : Eol
  properties : List (List Char × Eol)
  last : Eol
  content : ∀ property ∈ properties, ContentLine property.1

def beginEvent : List Char := "BEGIN:VEVENT".toList

def VEvent.allLines (event : VEvent) : List (List Char × Eol) :=
  (beginEvent, event.first) :: event.properties ++ [(endEvent, event.last)]

def VEvent.text (event : VEvent) : List Char := event.allLines.flatMap fun (line, eol) => line ++ eol.text

/-- One line for each field, with its value, and the other lines as they were. -/
structure Updated (fields : List (List Char × List Char)) (text out : List Char) : Prop where
  each : ∀ field ∈ fields, ∃ line, (lines out).filter (nameOf · = field.1) = [line] ∧ valueOf line = some field.2
  others : (lines out).filter (nameOf · ∉ fields.map Prod.fst) = (lines text).filter (nameOf · ∉ fields.map Prod.fst)

/-- A field that becomes a line of its own: its property is nowhere in the text, not even as a part of a value, and
the first `END:VEVENT` starts its line. -/
structure Clean (text : List Char) (field : List Char × List Char) : Prop where
  name : ∀ c ∈ field.1, c ∉ delimiters ∧ c ≠ '\n'
  value : '\n' ∉ field.2
  absent : findStr (field.1 ++ [':']) text = none
  unnamed : ∀ line ∈ lines text, nameOf line ≠ field.1
  ending : ∃ before rest, findStr endEvent text = some (before, rest) ∧ AtStart before

def CleanRun : List Char → List (List Char × List Char) → Prop
  | _, [] => True
  | text, field :: fields => Clean text field ∧ CleanRun (setProperty text field) fields

/-! ### Names and values -/

section names

variable {k v s t line : List Char}

theorem nameOf_eq (hk : ∀ c ∈ k, c ∉ delimiters) {d : Char} (hd : d ∈ delimiters) (s : List Char) :
    nameOf (k ++ d :: s) = k := by
  unfold nameOf
  rw [List.takeWhile_append_of_pos (by simpa using hk)]
  simp [hd]

theorem plain_of_all (h : (k.all fun c => c ∉ delimiters ∧ c ≠ '\n') = true) :
    ∀ c ∈ k, c ∉ delimiters ∧ c ≠ '\n' := by
  simpa using h

theorem nameOf_plain {c : Char} (h : c ∈ nameOf line) : c ∉ delimiters := by
  simpa using List.mem_takeWhile_imp h

/-- A line starts with its name. -/
theorem nameOf_prefix (line : List Char) : ∃ s, line = nameOf line ++ s :=
  ⟨line.dropWhile (· ∉ delimiters), (List.takeWhile_append_dropWhile).symm⟩

theorem nameOf_cut {a : List Char} (h : ∃ c ∈ a, c ∈ delimiters) (s : List Char) : nameOf (a ++ s) = nameOf a := by
  unfold nameOf
  rw [List.takeWhile_append, if_neg]
  intro hlen
  obtain ⟨c, hc, hd⟩ := h
  have hall : a.takeWhile (· ∉ delimiters) = a := List.takeWhile_prefix _ |>.eq_of_length hlen
  rw [← hall] at hc
  exact nameOf_plain hc hd

theorem valueAfter_length {quoted : Bool} (h : valueAfter quoted s = some t) : t.length < s.length := by
  induction s generalizing quoted with
  | nil => cases h
  | cons c s ih =>
    rw [valueAfter] at h
    rw [List.length_cons]
    split_ifs at h
    · exact Nat.lt_succ_of_lt (ih h)
    · rw [Option.some.inj h]
      exact Nat.lt_succ_self _
    · exact Nat.lt_succ_of_lt (ih h)

theorem valueAfter_suffix {quoted : Bool} (h : valueAfter quoted s = some t) : t <:+ s := by
  induction s generalizing quoted with
  | nil => cases h
  | cons c s ih =>
    rw [valueAfter] at h
    split_ifs at h
    · exact (ih h).trans (List.suffix_cons c s)
    · rw [Option.some.inj h]
      exact List.suffix_cons c t
    · exact (ih h).trans (List.suffix_cons c s)

theorem valueAfter_name (hk : ∀ c ∈ k, c ∉ delimiters) (quoted : Bool) (s : List Char) :
    valueAfter quoted (k ++ s) = valueAfter quoted s := by
  induction k with
  | nil => rfl
  | cons c k ih =>
    have hc : c ∉ delimiters := hk c List.mem_cons_self
    simp only [delimiters, List.mem_cons, not_or] at hc
    rw [List.cons_append, valueAfter, if_neg hc.2.2.1, if_neg fun h => hc.1 h.1]
    exact ih fun d hd => hk d (List.mem_cons_of_mem c hd)

/-- Of two colons with a plain name in between, the second one never starts the value: both are in double quotes or
none. -/
theorem valueAfter_spliced (hk : ∀ c ∈ k, c ∉ delimiters) (x : List Char) (quoted : Bool) :
    valueAfter quoted (x ++ ':' :: (k ++ ':' :: v)) ≠ some v := by
  induction x generalizing quoted with
  | nil =>
    rw [List.nil_append, valueAfter, if_neg (by decide)]
    cases quoted with
    | false =>
      rw [if_pos ⟨rfl, rfl⟩]
      intro h
      have hlen := congrArg List.length (Option.some.inj h)
      simp only [List.length_append, List.length_cons] at hlen
      omega
    | true =>
      rw [if_neg (by simp), valueAfter_name hk, valueAfter, if_neg (by decide), if_neg (by simp)]
      exact fun h => absurd (valueAfter_length h) (lt_irrefl _)
  | cons c x ih =>
    rw [List.cons_append, valueAfter]
    split_ifs with hquote hcolon
    · exact ih _
    · intro h
      have hlen := congrArg List.length (Option.some.inj h)
      simp only [List.length_append, List.length_cons] at hlen
      omega
    · exact ih _

theorem valueOf_line (hk : ∀ c ∈ k, c ∉ delimiters) (v : List Char) : valueOf (k ++ ':' :: v) = some v := by
  unfold valueOf
  rw [nameOf_eq hk (by decide), List.drop_left]
  rfl

theorem valueOf_spliced (hk : ∀ c ∈ k, c ∉ delimiters) {q : List Char}
    (h : nameOf (q ++ ':' :: (k ++ ':' :: v)) = k) : valueOf (q ++ ':' :: (k ++ ':' :: v)) ≠ some v := by
  obtain ⟨x, hx⟩ : ∃ x, q = k ++ x := by
    by_cases hq : ∃ c ∈ q, c ∈ delimiters
    · rw [nameOf_cut hq] at h
      obtain ⟨x, hx⟩ := nameOf_prefix q
      exact ⟨x, by rw [← h]; exact hx⟩
    · push Not at hq
      rw [nameOf_eq hq (by decide)] at h
      exact ⟨[], by rw [h, List.append_nil]⟩
  unfold valueOf
  rw [h, hx, List.append_assoc, List.drop_left]
  exact valueAfter_spliced hk x false

end names

/-! ### The two edits -/

section edits

variable {k v text before rest : List Char}

theorem afterLine_cut (rest : List Char) : afterLine rest = [] ∨ ∃ m, rest = m ++ '\n' :: afterLine rest := by
  unfold afterLine
  split
  · rename_i m tail hfound
    obtain ⟨hrest, s, rfl⟩ := findStr_some hfound
    exact .inr ⟨m ++ ['\r'], by rw [hrest]; simp [crlf]⟩
  · split
    · rename_i m tail hfound
      obtain ⟨hrest, s, rfl⟩ := findStr_some hfound
      exact .inr ⟨m, by rw [hrest]; simp⟩
    · exact .inl rfl

/-- The line of a word, and the lines after its end; an end that is not the first one takes whole lines along. -/
theorem lines_afterLine {w : List Char} (hne : w ≠ []) (hn : '\n' ∉ w) (hcr : w.getLast? ≠ some '\r')
    (h : w <+: rest) : ∃ t taken, ∀ q, '\n' ∉ q →
      ∃ ls, lines (q ++ rest) = (q ++ w ++ t) :: ls ∧ ls = taken ++ lines (afterLine rest) := by
  obtain ⟨s, rfl⟩ := h
  rcases afterLine_cut (w ++ s) with hafter | ⟨m, hm⟩
  · obtain ⟨t, ls, hlines⟩ := lines_word hne hn hcr s
    refine ⟨t, ls, fun q hq => ⟨ls, hlines q hq, ?_⟩⟩
    rw [hafter]
    exact (List.append_nil ls).symm
  · obtain ⟨s', rfl⟩ : ∃ s', m = w ++ s' := by
      rcases List.append_eq_append_iff.1 hm with ⟨a, rfl, -⟩ | ⟨a, rfl, ha⟩
      · exact ⟨a, rfl⟩
      · cases a with
        | nil => exact ⟨[], by simp⟩
        | cons c a =>
          rw [List.cons_append] at ha
          obtain ⟨rfl, -⟩ := List.cons.inj ha
          exact absurd (by simp) hn
    obtain ⟨t, ls, hlines⟩ := lines_word hne hn hcr (s' ++ ['\n'])
    refine ⟨t, ls, fun q hq => ⟨_, ?_, rfl⟩⟩
    generalize afterLine (w ++ s) = after at hm ⊢
    have hstart : AtStart (q ++ (w ++ (s' ++ ['\n']))) := .inr (by simp)
    have hcut : q ++ (w ++ s) = q ++ (w ++ (s' ++ ['\n'])) ++ after := by
      rw [hm]
      simp
    rw [hcut, lines_append hstart, hlines q hq]
    simp

/-- Where the name with a colon occurs. -/
theorem splice_lines (hk : '\n' ∉ k) (hv : '\n' ∉ v) (h : findStr (k ++ [':']) text = some (before, rest)) :
    ∃ front q t taken back, lines text = front ++ (q ++ k ++ ':' :: t) :: (taken ++ back) ∧
      lines (setProperty text (k, v)) = front ++ (q ++ ':' :: (k ++ ':' :: v)) :: back := by
  obtain ⟨rfl, hpre⟩ := findStr_some h
  obtain ⟨ls, q, hls, hq, rfl⟩ := cut_at_line before
  have hset : setProperty (ended ls ++ q ++ rest) (k, v) =
      ended ls ++ ((q ++ ':' :: (k ++ ':' :: v)) ++ '\r' :: '\n' :: afterLine rest) := by
    rw [setProperty, h]
    simp [crlf]
  obtain ⟨t, taken, hlines⟩ := lines_afterLine (by simp) (by simpa using hk) (by simp) hpre
  obtain ⟨_, htext, rfl⟩ := hlines q hq
  refine ⟨ls.map stripCr, q, t, taken, lines (afterLine rest), ?_, ?_⟩
  · rw [List.append_assoc, lines_ended hls, htext]
    simp
  · have hline : '\n' ∉ q ++ ':' :: (k ++ ':' :: v) := by simp [hq, hk, hv]
    rw [hset, lines_ended hls, lines_crlf_cons hline]

theorem insert_lines (hk : '\n' ∉ k) (hv : '\n' ∉ v) (habsent : findStr (k ++ [':']) text = none)
    (h : findStr endEvent text = some (before, rest)) :
    ∃ front q e back, (AtStart before ↔ q = []) ∧ lines text = front ++ (q ++ endEvent ++ e) :: back ∧
      lines (setProperty text (k, v)) = front ++ (q ++ k ++ ':' :: v) :: (endEvent ++ e) :: back := by
  obtain ⟨rfl, s, rfl⟩ := findStr_some h
  obtain ⟨ls, q, hls, hq, rfl⟩ := cut_at_line before
  have hset : setProperty (ended ls ++ q ++ (endEvent ++ s)) (k, v) =
      ended ls ++ ((q ++ k ++ ':' :: v) ++ '\r' :: '\n' :: (endEvent ++ s)) := by
    rw [setProperty]
    simp only [habsent, h]
    simp [crlf]
  obtain ⟨e, back, hlines⟩ := lines_word (w := endEvent) (by decide) (by decide) (by decide) s
  refine ⟨ls.map stripCr, q, e, back, atStart_iff hq, ?_, ?_⟩
  · rw [List.append_assoc, lines_ended hls, hlines q hq]
  · have hline : '\n' ∉ q ++ k ++ ':' :: v := by simp [hq, hk, hv]
    have hend := hlines [] (by simp)
    rw [List.nil_append, List.nil_append] at hend
    rw [hset, lines_ended hls, lines_crlf_cons hline, hend]

end edits

/-! ### One field -/

section field

variable {text before rest line : List Char} {field : List Char × List Char}

theorem endEvent_cons : endEvent = ['E', 'N', 'D'] ++ ':' :: "VEVENT".toList := rfl

theorem clean_lines (h : Clean text field) : ∃ front back, lines text = front ++ back ∧
    lines (setProperty text field) = front ++ (field.1 ++ ':' :: field.2) :: back := by
  obtain ⟨before, rest, hfound, hstart⟩ := h.ending
  have hk : '\n' ∉ field.1 := fun hin => (h.name _ hin).2 rfl
  obtain ⟨front, q, e, back, hq, htext, hout⟩ := insert_lines hk h.value h.absent hfound
  have hnil : q = [] := hq.1 hstart
  subst hnil
  exact ⟨front, (endEvent ++ e) :: back, htext, hout⟩

theorem filter_unnamed {k : List Char} {ls : List (List Char)} (h : ∀ line ∈ ls, nameOf line ≠ k) :
    ls.filter (nameOf · = k) = [] := by
  simpa [List.filter_eq_nil_iff] using h

theorem updated_of_clean (h : Clean text field) : Updated [field] text (setProperty text field) := by
  obtain ⟨front, back, htext, hout⟩ := clean_lines h
  have hplain : ∀ c ∈ field.1, c ∉ delimiters := fun c hc => (h.name c hc).1
  have hname : nameOf (field.1 ++ ':' :: field.2) = field.1 := nameOf_eq hplain (by decide) field.2
  have hunnamed := h.unnamed
  rw [htext] at hunnamed
  constructor
  · intro field' hfield'
    rw [List.mem_singleton.1 hfield']
    refine ⟨field.1 ++ ':' :: field.2, ?_, valueOf_line hplain field.2⟩
    rw [hout, List.filter_append, List.filter_cons_of_pos (by simpa using hname)]
    rw [filter_unnamed fun l hl => hunnamed l (List.mem_append_left _ hl)]
    rw [filter_unnamed fun l hl => hunnamed l (List.mem_append_right _ hl)]
    rfl
  · rw [hout, htext, List.filter_append, List.filter_append, List.filter_cons_of_neg (by simpa using hname)]

/-- What every line of a text of content lines has. -/
structure Sound (text : List Char) : Prop where
  named : ∀ line ∈ lines text, nameOf line ≠ []
  ends : endEvent <:+: text

/-- No line written with a colon in front of the name is as it ought to be. -/
theorem splice_not_updated (hs : Sound text) (hplain : ∀ c ∈ field.1, c ∉ delimiters) (hk : '\n' ∉ field.1)
    (hv : '\n' ∉ field.2) (hfound : findStr (field.1 ++ [':']) text = some (before, rest)) :
    ¬ Updated [field] text (setProperty text field) := by
  intro h
  obtain ⟨k, v⟩ := field
  obtain ⟨line, hline, hvalue⟩ := h.each (k, v) List.mem_cons_self
  have hothers := h.others
  obtain ⟨front, q, t, taken, back, htext, hout⟩ := splice_lines hk hv hfound
  rw [hout] at hline hothers
  rw [htext] at hothers
  have hnamed := hs.named
  rw [htext] at hnamed
  -- the line with the value is not the one written
  have hL : nameOf (q ++ ':' :: (k ++ ':' :: v)) ≠ k := by
    intro hname
    have hin : q ++ ':' :: (k ++ ':' :: v) ∈ [line] := by
      rw [← hline]
      simp [hname]
    rw [← List.mem_singleton.1 hin] at hvalue
    exact valueOf_spliced hplain hname hvalue
  have hkne : k ≠ [] := by
    rintro rfl
    have hin : line ∈ List.filter (nameOf · = ([] : List Char)) (front ++ (q ++ ':' :: ([] ++ ':' :: v)) :: back) := by
      rw [hline]
      exact List.mem_singleton_self line
    obtain ⟨hin, hname⟩ := List.mem_filter.1 hin
    have hname : nameOf line = [] := by simpa using hname
    rcases List.mem_append.1 hin with hin | hin
    · exact hnamed line (List.mem_append_left _ hin) hname
    · rcases List.mem_cons.1 hin with rfl | hin
      · exact hL hname
      · exact hnamed line (by simp [hin]) hname
  simp only [List.map_cons, List.map_nil, List.mem_singleton, List.filter_append] at hothers
  have hcut := List.append_cancel_left hothers
  rw [List.filter_cons_of_pos (by simpa using hL)] at hcut
  by_cases hM : nameOf (q ++ k ++ ':' :: t) = k
  · have hq : ∀ c ∈ q, c ∉ delimiters := by
      by_contra hq
      push Not at hq
      rw [List.append_assoc, nameOf_cut hq] at hM
      rw [nameOf_cut hq] at hL
      exact hL hM
    have hqk : ∀ c ∈ q ++ k, c ∉ delimiters := fun c hc => (List.mem_append.1 hc).elim (hq c) (hplain c)
    rw [nameOf_eq hqk (by decide)] at hM
    have hnil : q = [] := by simpa using hM
    subst hnil
    -- a line that starts with a colon was not there before
    have hin := List.mem_of_mem_filter (hcut ▸ List.mem_cons_self)
    exact hnamed _ (List.mem_append_right front hin) rfl
  · rw [List.filter_cons_of_pos (by simpa using hM)] at hcut
    have hsame := (List.cons.inj hcut).1
    rw [List.append_assoc] at hsame
    have hcolon := List.append_cancel_left hsame
    obtain ⟨c, k', rfl⟩ := List.exists_cons_of_ne_nil hkne
    rw [List.cons_append] at hcolon
    exact hplain c List.mem_cons_self ((List.cons.inj hcolon).1 ▸ by decide)

/-- An update that is right leaves the line in front of the end. -/
theorem insert_clean (hplain : ∀ c ∈ field.1, c ∉ delimiters) (hk : '\n' ∉ field.1) (hv : '\n' ∉ field.2)
    (habsent : findStr (field.1 ++ [':']) text = none) (hfound : findStr endEvent text = some (before, rest))
    (h : Updated [field] text (setProperty text field)) :
    AtStart before ∧ ∀ line ∈ lines text, nameOf line ≠ field.1 := by
  obtain ⟨k, v⟩ := field
  obtain ⟨line, hline, -⟩ := h.each (k, v) List.mem_cons_self
  dsimp only at hline
  have hothers := h.others
  obtain ⟨front, q, e, back, hq, htext, hout⟩ := insert_lines hk hv habsent hfound
  rw [hout] at hline hothers
  rw [htext] at hothers
  have hend : nameOf (endEvent ++ e) = ['E', 'N', 'D'] := by
    rw [endEvent_cons, List.append_assoc, List.cons_append]
    exact nameOf_eq (fun c hc => (plain_of_all (k := ['E', 'N', 'D']) rfl c hc).1) (by decide) _
  have hE : nameOf (endEvent ++ e) ≠ k := by
    intro hname
    rw [hend] at hname
    obtain ⟨htext, hpre⟩ := findStr_some hfound
    have hpattern : k ++ [':'] <+: endEvent := by
      rw [← hname]
      decide
    have hsuffix : rest <:+ text := ⟨before, htext.symm⟩
    exact findStr_none habsent ((hpattern.trans hpre).isInfix.trans hsuffix.isInfix)
  simp only [List.map_cons, List.map_nil, List.mem_singleton, List.filter_append] at hothers
  have hcut := List.append_cancel_left hothers
  have hnil : q = [] := by
    have hlen := congrArg List.length hcut
    simp only [List.filter_cons, decide_not, Bool.not_eq_true', decide_eq_false_iff_not] at hcut hlen
    by_cases hN : nameOf (q ++ k ++ ':' :: v) = k <;> by_cases hM : nameOf (q ++ endEvent ++ e) = k
    · rw [if_neg (not_not.2 hN), if_pos hE, if_neg (not_not.2 hM), List.length_cons] at hlen
      omega
    · rw [if_neg (not_not.2 hN), if_pos hE, if_pos hM] at hcut
      have hsame := (List.cons.inj hcut).1
      rw [List.append_assoc] at hsame
      exact (List.append_left_eq_self.1 hsame.symm)
    · rw [if_pos hN, if_pos hE, if_neg (not_not.2 hM), List.length_cons, List.length_cons] at hlen
      omega
    · rw [if_pos hN, if_pos hE, if_pos hM, List.length_cons, List.length_cons, List.length_cons] at hlen
      omega
  subst hnil
  refine ⟨hq.2 rfl, fun other hother hname => ?_⟩
  rw [htext] at hother
  have hL : nameOf ([] ++ k ++ ':' :: v) = k := nameOf_eq hplain (by decide) v
  have hlen := congrArg List.length hline
  rw [List.filter_append, List.filter_cons_of_pos (by simpa using hL), List.length_append, List.length_cons,
    List.length_singleton] at hlen
  -- a second line of the property
  have hpos : 0 < (front.filter (nameOf · = k)).length ∨
      0 < (((endEvent ++ e) :: back).filter (nameOf · = k)).length := by
    rcases List.mem_append.1 hother with hin | hin
    · exact .inl (List.length_pos_of_mem (List.mem_filter.2 ⟨hin, by simpa using hname⟩))
    · exact .inr (List.length_pos_of_mem (List.mem_filter.2 ⟨hin, by simpa using hname⟩))
  omega

theorem updated_iff (hs : Sound text) : Updated [field] text (setProperty text field) ↔ Clean text field := by
  refine ⟨fun h => ?_, updated_of_clean⟩
  obtain ⟨line, hline, hvalue⟩ := h.each field List.mem_cons_self
  obtain ⟨hin, hname⟩ := List.mem_filter.1 (hline ▸ List.mem_singleton_self line)
  have hname : nameOf line = field.1 := by simpa using hname
  have hplain : ∀ c ∈ field.1, c ∉ delimiters := fun c hc => nameOf_plain (hname ▸ hc)
  have hk : '\n' ∉ field.1 := by
    rw [← hname]
    exact fun hc => not_mem_lines hin ((List.takeWhile_prefix _).subset hc)
  have hv : '\n' ∉ field.2 := fun hc =>
    not_mem_lines hin ((List.drop_suffix _ _).subset ((valueAfter_suffix hvalue).subset hc))
  cases habsent : findStr (field.1 ++ [':']) text with
  | some found => exact absurd h (splice_not_updated hs hplain hk hv habsent)
  | none =>
    obtain ⟨before, rest, hfound⟩ := findStr_isSome hs.ends
    obtain ⟨hstart, hunnamed⟩ := insert_clean hplain hk hv habsent hfound h
    exact {
      name := fun c hc => ⟨hplain c hc, fun heq => hk (heq ▸ hc)⟩
      value := hv
      absent := habsent
      unnamed := hunnamed
      ending := ⟨before, rest, hfound, hstart⟩ }

end field

end Metalogos.Calendar
