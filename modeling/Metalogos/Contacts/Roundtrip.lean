import Metalogos.Contacts.VCard

/-!
# What comes back of a contact

The lines that `vcardGenerate` wrote, read by `vcardToJson`. A line that starts with the name of a property is not
folded and comes back less the white space at its end (`parseLine_lineOf`); the values of a property are the last
one, or all of them where the parser keeps a list (`foldl_get`). Nothing is said of a newline in a value, which
starts a line of its own, and of a note with something to escape, which comes back escaped.
-/
namespace Metalogos.Contacts

open Metalogos.Lib

/-! ## Lines -/

/-- A line that continues none. -/
def StartsLine (l : List Char) : Prop := ∃ c rest, l = c :: rest ∧ isWhite c = false

theorem unfoldLine_eq {l : List Char} (h : StartsLine l) (s : List Char × Bool) :
    unfoldLine s l = (if s.2 || !s.1.isEmpty then s.1 ++ '\n' :: l else s.1 ++ l, true) := by
  obtain ⟨c, rest, rfl, hc⟩ := h
  unfold unfoldLine
  split
  · rename_i heq
    rw [(List.cons.inj heq).1] at hc
    exact absurd hc (by decide)
  · rename_i heq
    rw [(List.cons.inj heq).1] at hc
    exact absurd hc (by decide)
  · rfl

theorem foldl_unfoldLine {ls : List (List Char)} (hls : ∀ l ∈ ls, StartsLine l) (s : List Char) :
    (ls.foldl unfoldLine (s, true)).1 = s ++ ls.flatMap ('\n' :: ·) := by
  induction ls generalizing s with
  | nil => simp
  | cons l ls ih =>
    rw [List.foldl_cons, unfoldLine_eq (hls l List.mem_cons_self)]
    simpa using ih (fun x hx => hls x (List.mem_cons_of_mem l hx)) (s ++ '\n' :: l)

theorem intercalate_newline (l : List Char) (ls : List (List Char)) :
    ['\n'].intercalate (l :: ls) = l ++ ls.flatMap ('\n' :: ·) := by
  induction ls generalizing l with
  | nil => simp
  | cons m ls ih => rw [List.intercalate_cons_cons, ih, List.flatMap_cons, List.append_assoc]; rfl

/-- Lines that continue none are left apart. -/
theorem unfoldVcardLines_eq {ls : List (List Char)} (hn : ∀ l ∈ ls, '\n' ∉ l) (hls : ∀ l ∈ ls, StartsLine l) :
    unfoldVcardLines (ls.flatMap (· ++ crlf)) = ['\n'].intercalate ls := by
  have hlines : lines (ls.flatMap (· ++ crlf)) = ls := lines_crlf hn
  unfold unfoldVcardLines
  rw [hlines]
  cases ls with
  | nil => rfl
  | cons l ls =>
    have hrest := foldl_unfoldLine (fun x hx => hls x (List.mem_cons_of_mem l hx)) l
    rw [List.foldl_cons, unfoldLine_eq (hls l List.mem_cons_self), intercalate_newline]
    simpa using hrest

theorem trim_stripCr {l : List Char} (h : StartsLine l) : trim (stripCr l) = trimEnd l := by
  obtain ⟨c, rest, rfl, hc⟩ := h
  have hstrip : ∃ rest', stripCr (c :: rest) = c :: rest' := by
    unfold stripCr
    cases rest with
    | nil =>
      refine ⟨[], if_neg fun hlast => ?_⟩
      obtain rfl : c = '\r' := by simpa using hlast
      exact absurd hc (by decide)
    | cons d rest => split <;> exact ⟨_, rfl⟩
  obtain ⟨rest', hrest⟩ := hstrip
  have hend := trimEnd_stripCr (c :: rest)
  rw [hrest] at hend ⊢
  rw [trim_of_head hc, hend]

/-! ## One property -/

/-- The name of a property, as it is written. -/
structure IsName (name : List Char) : Prop where
  upper : ∀ c ∈ name, 65 ≤ c.toNat ∧ c.toNat ≤ 90
  nonempty : name ≠ []
  notBegin : name ≠ "BEGIN".toList
  notEnd : name ≠ "END".toList

/-- What is read of a value. -/
def kept (s : String) : String := String.ofList (trimEnd s.toList)

section

variable {name value : List Char}

theorem IsName.free (h : IsName name) {c : Char} (hc : c.toNat < 65) : c ∉ name := by
  intro hmem
  have := (h.upper c hmem).1
  omega

theorem IsName.startsLine (h : IsName name) (value : List Char) : StartsLine (name ++ value) := by
  cases name with
  | nil => exact absurd rfl h.nonempty
  | cons c name =>
    refine ⟨c, name ++ value, rfl, ?_⟩
    have := h.upper c List.mem_cons_self
    simp only [isWhite, Bool.or_eq_false_iff, Bool.and_eq_false_iff, decide_eq_false_iff_not]
    omega

/-- A property with another name does not start with this one. -/
theorem not_isPrefixOf (h : IsName name) {other : List Char} (hcolon : ':' ∉ other) (hne : name ≠ other) :
    (other ++ [':']).isPrefixOf (name ++ ':' :: value) = false := by
  rw [Bool.eq_false_iff, ne_eq, List.isPrefixOf_iff_prefix]
  rintro ⟨rest, hrest⟩
  have htake := congrArg (List.takeWhile (· ≠ ':')) hrest
  rw [takeWhile_ne_append (h.free (by decide)), List.append_assoc, List.singleton_append,
    takeWhile_ne_append hcolon] at htake
  exact hne htake.symm

theorem parseLine_name {toUppercase : List Char → List Char} {line : List Char} (h : IsName name)
    (hupper : toUppercase name = name) (hline : trim line = name ++ ':' :: value) (contact : Dict String Json) :
    parseLine toUppercase contact line = insertProperty contact (String.ofList name) (String.ofList value) := by
  have hbegin : "BEGIN:".toList.isPrefixOf (name ++ ':' :: value) = false :=
    not_isPrefixOf h (show ':' ∉ "BEGIN".toList by decide) h.notBegin
  have hend : "END:".toList.isPrefixOf (name ++ ':' :: value) = false :=
    not_isPrefixOf h (show ':' ∉ "END".toList by decide) h.notEnd
  have hcolon : ':' ∉ name := h.free (by decide)
  have hsemi : ';' ∉ name := h.free (by decide)
  unfold parseLine
  dsimp only
  rw [hline, hbegin, hend, takeWhile_ne_append hcolon, dropWhile_ne_append hcolon, takeWhile_ne_self hsemi, hupper]
  simp

end

theorem startsLine_lineOf {name : String} (h : IsName name.toList) (value : String) : StartsLine (lineOf (name, value)) :=
  h.startsLine _

/-- The line of a property is read, less the white space at its end. -/
theorem parseLine_lineOf {toUppercase : List Char → List Char} {name : String} (h : IsName name.toList)
    (hupper : toUppercase name.toList = name.toList) (value : String) (contact : Dict String Json) :
    parseLine toUppercase contact (stripCr (lineOf (name, value))) = insertProperty contact name (kept value) := by
  have hline : trim (stripCr (lineOf (name, value))) = name.toList ++ ':' :: trimEnd value.toList := by
    rw [trim_stripCr (startsLine_lineOf h value)]
    exact trimEnd_append (by decide)
  rw [parseLine_name h hupper hline, String.ofList_toList]
  rfl

/-! ## All of them -/

/-- What the parser holds of a property with these values. -/
def shown (name : String) (values : List String) : Option Json :=
  if values = [] then none
  else if name ∈ multiValued then some (.arr (values.map .str))
  else values.getLast?.map .str

theorem insertProperty_get {m : Dict String Json} {name : String} {values : List String}
    (h : m.get name = shown name values) (value k : String) :
    (insertProperty m name value).get k = if k = name then shown name (values ++ [value]) else m.get k := by
  unfold insertProperty
  by_cases hmulti : name ∈ multiValued
  · rw [if_pos hmulti, h]
    by_cases hv : values = []
    · subst hv
      simp [shown, Dict.get_set, hmulti]
    · simp [shown, Dict.get_set, hmulti, hv]
  · rw [if_neg hmulti, Dict.get_set]
    simp [shown, hmulti]

theorem foldl_values_get {m : Dict String Json} {name : String} {before : List String}
    (h : m.get name = shown name before) (values : List String) (k : String) :
    (values.foldl (insertProperty · name) m).get k =
      if k = name then shown name (before ++ values) else m.get k := by
  induction values generalizing m before with
  | nil =>
    by_cases hk : k = name
    · simpa [hk] using h
    · simp [hk]
  | cons v values ih =>
    have hstep := insertProperty_get h v
    rw [List.foldl_cons, ih (by rw [hstep, if_pos rfl]), hstep, List.append_assoc, List.singleton_append]
    by_cases hk : k = name <;> simp [hk]

/-- After all the properties, each shows its values. -/
theorem foldl_get {ps : List (String × List String)} (hnodup : (ps.map Prod.fst).Nodup) {m : Dict String Json}
    (hfresh : ∀ name ∈ ps.map Prod.fst, m.get name = none) (k : String) :
    ((flatten ps).foldl (fun m p => insertProperty m p.1 p.2) m).get k =
      match ps.lookup k with
      | some values => shown k values
      | none => m.get k := by
  induction ps generalizing m with
  | nil => rfl
  | cons p ps ih =>
    obtain ⟨name, values⟩ := p
    obtain ⟨hname, hrest⟩ := List.nodup_cons.1 hnodup
    have hnew : m.get name = shown name [] := hfresh name List.mem_cons_self
    have hblock := foldl_values_get hnew values
    have hflat : flatten ((name, values) :: ps) = values.map (fun v => (name, v)) ++ flatten ps := rfl
    rw [hflat, List.foldl_append, List.foldl_map, ih hrest, List.lookup_cons]
    · by_cases hk : k = name
      · subst hk
        have hnone : ps.lookup k = none := by
          rw [List.lookup_eq_none_iff]
          intro p hp
          refine bne_iff_ne.2 fun heq => hname ?_
          rw [heq]
          exact List.mem_map.2 ⟨p, hp, rfl⟩
        simpa [hnone] using hblock k
      · have hne : (k == name) = false := beq_eq_false_iff_ne.2 hk
        simp only [hne, hblock, if_neg hk]
    · intro other hother
      have hne : other ≠ name := fun h => hname (h ▸ hother)
      rw [hblock, if_neg hne]
      exact hfresh other (List.mem_cons_of_mem _ hother)

/-! ## What is written -/

theorem solid_toDigits (n : Nat) : ∀ c ∈ Nat.toDigits 16 n, isWhite c = false := by
  have hdigit : ∀ d < 16, isWhite (Nat.digitChar d) = false := by decide
  induction n using Nat.strongRecOn with
  | ind n ih =>
    rw [Nat.toDigits_eq_if (by decide)]
    split
    · rename_i hlt
      intro c hc
      rw [List.mem_singleton.1 hc]
      exact hdigit n hlt
    · rename_i hlt
      intro c hc
      cases List.mem_append.1 hc with
      | inl hc => exact ih (n / 16) (Nat.div_lt_self (by omega) (by decide)) c hc
      | inr hc =>
        rw [List.mem_singleton.1 hc]
        exact hdigit _ (Nat.mod_lt n (by decide))

theorem solid_hexPadded (width n : Nat) : ∀ c ∈ hexPadded width n, isWhite c = false := by
  intro c hc
  cases List.mem_append.1 hc with
  | inl hc =>
    rw [(List.mem_replicate.1 hc).2]
    decide
  | inr hc => exact solid_toDigits n c hc

theorem solid_genUid (ts : Nat) : ∀ c ∈ (genUid ts).toList, isWhite c = false := by
  have hmarks : ∀ s ∈ ["-4", "-b"], ∀ c ∈ s.toList, isWhite c = false := by
    simp
    decide
  simp only [genUid, String.toList_ofList, List.forall_mem_append, List.forall_mem_cons]
  and_intros <;> first | exact solid_hexPadded _ _ | rfl | exact hmarks _ (by simp)

theorem kept_of_solid {s : String} (h : ∀ c ∈ s.toList.getLast?, isWhite c = false) : kept s = s := by
  have htrim : trimEnd s.toList = s.toList := by
    cases hs : s.toList.getLast? with
    | none => rw [List.getLast?_eq_none_iff.1 hs]; rfl
    | some c =>
      have happ := trimEnd_append (s := s.toList.dropLast) (t := []) (h c hs)
      rwa [show trimEnd [] = [] from rfl, List.dropLast_append_getLast? c hs] at happ
  rw [kept, htrim, String.ofList_toList]

theorem replaceChar_free {c : Char} {repl s : List Char} (h : c ∉ s) : replaceChar c repl s = s := by
  induction s with
  | nil => rfl
  | cons d s ih =>
    obtain ⟨hne, hs⟩ := not_or.1 (List.mem_cons.not.1 h)
    have hrest : s.flatMap (fun d => if d = c then repl else [d]) = s := ih hs
    rw [replaceChar, List.flatMap_cons, if_neg (Ne.symm hne), hrest, List.singleton_append]

theorem not_mem_replaceChar {c d : Char} {repl s : List Char} (hrepl : d ∉ repl) (h : d ∉ s ∨ d = c) :
    d ∉ replaceChar c repl s := by
  intro hmem
  obtain ⟨e, he, hd⟩ := List.mem_flatMap.1 hmem
  split at hd
  · exact hrepl hd
  · rename_i hne
    obtain rfl := List.mem_singleton.1 hd
    cases h with
    | inl hs => exact hs he
    | inr hc => exact hne hc

/-- What is escaped in a note. -/
def escaped : List Char := ['\\', '\n', ',', ';']

theorem vcardEscapeText_free {s : List Char} (h : ∀ c ∈ escaped, c ∉ s) : vcardEscapeText s = s := by
  unfold vcardEscapeText
  rw [replaceChar_free (h '\\' (by decide)), replaceChar_free (h '\n' (by decide)),
    replaceChar_free (h ',' (by decide)), replaceChar_free (h ';' (by decide))]

/-- An escaped text is one line. -/
theorem newline_not_mem_escape (s : List Char) : '\n' ∉ vcardEscapeText s :=
  not_mem_replaceChar (by decide) (.inl (not_mem_replaceChar (by decide)
    (.inl (not_mem_replaceChar (by decide) (.inr rfl)))))

/-- The values that are given, apart from the note. -/
def Contact.texts (c : Contact) : List String :=
  c.uid.toList ++ c.fn.toList ++ c.n.toList ++ (c.email.map OneOrMany.values).getD [] ++
    (c.tel.map OneOrMany.values).getD [] ++ c.org.toList ++ c.title.toList ++ c.photo.toList ++ c.url.toList ++
    c.adr.toList

/-- No value has a newline, but the note may. -/
def Contact.OneLine (c : Contact) : Prop := ∀ s ∈ c.texts, '\n' ∉ s.toList

def names : List String :=
  ["VERSION", "UID", "FN", "N", "EMAIL", "TEL", "ORG", "TITLE", "NOTE", "PHOTO", "URL", "ADR"]

theorem names_properties (c : Contact) (ts : Nat) : (c.properties ts).map Prod.fst = names := rfl

theorem isName_of_mem {name : String} (h : name ∈ names) : IsName name.toList := by
  have hall : names.all fun name => name.toList.all (fun c => decide (65 ≤ c.toNat ∧ c.toNat ≤ 90)) &&
      decide (name.toList ≠ [] ∧ name.toList ≠ "BEGIN".toList ∧ name.toList ≠ "END".toList) := by decide +kernel
  have hname := List.all_eq_true.1 hall name h
  rw [Bool.and_eq_true, List.all_eq_true, decide_eq_true_iff] at hname
  obtain ⟨hupper, hne, hbegin, hend⟩ := hname
  exact ⟨fun c hc => of_decide_eq_true (hupper c hc), hne, hbegin, hend⟩

/-- What is written has no newline. -/
theorem Contact.OneLine.properties {c : Contact} (h : c.OneLine) (ts : Nat) :
    ∀ p ∈ c.properties ts, ∀ s ∈ p.2, '\n' ∉ s.toList := by
  have huid : '\n' ∉ (c.uid.getD (genUid ts)).toList := by
    cases hc : c.uid with
    | none => exact fun hmem => absurd (solid_genUid ts _ hmem) (by decide)
    | some s => exact h s (by simp [Contact.texts, hc])
  have hfn : '\n' ∉ (c.fn.getD "Unknown").toList := by
    cases hc : c.fn with
    | none => decide +kernel
    | some s => exact h s (by simp [Contact.texts, hc])
  have hn : '\n' ∉ (c.n.getD (c.fn.getD "Unknown" ++ ";;;;")).toList := by
    cases hc : c.n with
    | none => simpa using hfn
    | some s => exact h s (by simp [Contact.texts, hc])
  have hnote : ∀ s ∈ (c.note.map fun s => String.ofList (vcardEscapeText s.toList)).toList, '\n' ∉ s.toList := by
    cases c.note with
    | none => simp
    | some s => simpa using newline_not_mem_escape s.toList
  unfold Contact.properties
  simp only [List.forall_mem_cons, List.mem_singleton, forall_eq]
  refine ⟨by decide +kernel, huid, hfn, hn, ?_, ?_, ?_, ?_, hnote, ?_, ?_, ?_⟩ <;>
    exact fun s hs => h s (by simp [Contact.texts, hs])

theorem lookup_map_kept (ps : List (String × List String)) (k : String) :
    (ps.map fun p => (p.1, p.2.map kept)).lookup k = (ps.lookup k).map (·.map kept) := by
  induction ps with
  | nil => rfl
  | cons p ps ih =>
    rw [List.map_cons, List.lookup_cons, List.lookup_cons, ih]
    cases k == p.1 <;> rfl

/-- The parser has the lines of the generator before it. -/
theorem lines_generated {c : Contact} (h : c.OneLine) (ts : Nat) :
    lines (unfoldVcardLines (vcardGenerate ts c.toJson)) =
      ("BEGIN:VCARD".toList :: (flatten (c.properties ts)).map lineOf).map stripCr ++ ["END:VCARD".toList] := by
  have hlines : ∀ l ∈ (flatten (c.properties ts)).map lineOf, '\n' ∉ l ∧ StartsLine l := by
    intro l hl
    obtain ⟨p, hp, rfl⟩ := List.mem_map.1 hl
    obtain ⟨q, hq, hp⟩ := List.mem_flatMap.1 hp
    obtain ⟨s, hs, rfl⟩ := List.mem_map.1 hp
    have hname : IsName q.1.toList := isName_of_mem (names_properties c ts ▸ List.mem_map_of_mem hq)
    have hfree : '\n' ∉ q.1.toList := hname.free (by decide)
    have hvalue := h.properties ts q hq s hs
    exact ⟨by simp [lineOf, hfree, hvalue], startsLine_lineOf hname s⟩
  have hall : ∀ l ∈ "BEGIN:VCARD".toList :: (flatten (c.properties ts)).map lineOf ++ ["END:VCARD".toList],
      '\n' ∉ l ∧ StartsLine l := by
    intro l hl
    rw [List.mem_append, List.mem_cons, List.mem_singleton] at hl
    rcases hl with (rfl | hl) | rfl
    · exact ⟨by decide, 'B', "EGIN:VCARD".toList, rfl, by decide⟩
    · exact hlines l hl
    · exact ⟨by decide, 'E', "ND:VCARD".toList, rfl, by decide⟩
  rw [vcardGenerate_eq, unfoldVcardLines_eq (fun l hl => (hall l hl).1) fun l hl => (hall l hl).2]
  exact lines_intercalate (fun l hl => (hall l hl).1) (by decide)

theorem parseLine_first (toUppercase : List Char → List Char) (m : Dict String Json) :
    parseLine toUppercase m (stripCr "BEGIN:VCARD".toList) = m := by
  rfl

theorem parseLine_last (toUppercase : List Char → List Char) (m : Dict String Json) :
    parseLine toUppercase m "END:VCARD".toList = m := by
  rfl

section

variable {toUppercase : List Char → List Char}
  (hupper : ∀ s, (∀ c ∈ s, c.toNat < 128) → toUppercase s = s.map Char.toUpper)

include hupper

theorem toUppercase_name {name : String} (h : name ∈ names) : toUppercase name.toList = name.toList := by
  have hall : names.all fun name => decide (name.toList.map Char.toUpper = name.toList) := by decide +kernel
  have hascii : ∀ c ∈ name.toList, c.toNat < 128 := fun c hc =>
    Nat.lt_of_le_of_lt ((isName_of_mem h).upper c hc).2 (by decide)
  rw [hupper _ hascii, of_decide_eq_true (List.all_eq_true.1 hall name h)]

theorem foldl_parseLine {ps : List (String × String)} (hps : ∀ p ∈ ps, p.1 ∈ names) (m : Dict String Json) :
    ((ps.map lineOf).map stripCr).foldl (parseLine toUppercase) m =
      (ps.map fun p => (p.1, kept p.2)).foldl (fun m p => insertProperty m p.1 p.2) m := by
  induction ps generalizing m with
  | nil => rfl
  | cons p ps ih =>
    have hname := hps p List.mem_cons_self
    simp only [List.map_cons, List.foldl_cons]
    rw [parseLine_lineOf (isName_of_mem hname) (toUppercase_name hupper hname) p.2,
      ih fun q hq => hps q (List.mem_cons_of_mem p hq)]

/-- What the parser finds in a generated text. -/
theorem get_parsed {c : Contact} (h : c.OneLine) (ts : Nat) (k : String) :
    (vcardToJson toUppercase (vcardGenerate ts c.toJson)).get k =
      ((c.properties ts).lookup k).bind fun values => shown k (values.map kept) := by
  have hnames : ∀ p ∈ flatten (c.properties ts), p.1 ∈ names := by
    intro p hp
    obtain ⟨q, hq, hp⟩ := List.mem_flatMap.1 hp
    obtain ⟨s, -, rfl⟩ := List.mem_map.1 hp
    exact names_properties c ts ▸ List.mem_map_of_mem hq
  have hflat : (flatten (c.properties ts)).map (fun p => (p.1, kept p.2)) =
      flatten ((c.properties ts).map fun p => (p.1, p.2.map kept)) := by
    simp [flatten, List.map_flatMap, List.flatMap_map, Function.comp_def]
  have hkeys : ((c.properties ts).map fun p => (p.1, p.2.map kept)).map Prod.fst = names := by
    rw [List.map_map]
    exact names_properties c ts
  unfold vcardToJson
  rw [lines_generated h, List.map_cons, List.foldl_append, List.foldl_cons, List.foldl_nil, parseLine_last,
    List.foldl_cons, parseLine_first, foldl_parseLine hupper hnames, hflat,
    foldl_get (by rw [hkeys]; decide) (fun _ _ => rfl), lookup_map_kept]
  cases (c.properties ts).lookup k <;> rfl

end

/-! ## The contact that comes back -/

/-- What is shown of an address that may be a list. -/
def listed (v : Option OneOrMany) : Option Json :=
  match (v.map OneOrMany.values).getD [] with
  | [] => none
  | values => some (.arr (values.map fun s => .str (kept s)))

/-- Every property of a contact that was generated and parsed. -/
structure ReadBack (c : Contact) (ts : Nat) (m : Dict String Json) : Prop where
  version : m.get "VERSION" = some (.str "4.0")
  uid : m.get "UID" = some (.str ((c.uid.map kept).getD (genUid ts)))
  fn : m.get "FN" = some (.str ((c.fn.map kept).getD "Unknown"))
  n : m.get "N" = some (.str ((c.n.map kept).getD (c.fn.getD "Unknown" ++ ";;;;")))
  email : m.get "EMAIL" = listed c.email
  tel : m.get "TEL" = listed c.tel
  org : m.get "ORG" = c.org.map fun s => .str (kept s)
  title : m.get "TITLE" = c.title.map fun s => .str (kept s)
  note : ∀ s ∈ c.note, (∀ ch ∈ escaped, ch ∉ s.toList) → m.get "NOTE" = some (.str (kept s))
  noNote : c.note = none → m.get "NOTE" = none
  photo : m.get "PHOTO" = c.photo.map fun s => .str (kept s)
  url : m.get "URL" = c.url.map fun s => .arr [.str (kept s)]
  adr : m.get "ADR" = c.adr.map fun s => .arr [.str (kept s)]
  nothingElse : ∀ k v, m.get k = some v → k ∈ names

theorem shown_many (name : String) (h : name ∈ multiValued) (v : Option OneOrMany) :
    shown name (((v.map OneOrMany.values).getD []).map kept) = listed v := by
  unfold shown listed
  cases (v.map OneOrMany.values).getD [] with
  | nil => rfl
  | cons s l => simp [h]

theorem shown_one (name : String) (h : name ∉ multiValued) (v : Option String) :
    shown name (v.toList.map kept) = v.map fun s => .str (kept s) := by
  cases v <;> simp [shown, h]

theorem shown_list (name : String) (h : name ∈ multiValued) (v : Option String) :
    shown name (v.toList.map kept) = v.map fun s => .arr [.str (kept s)] := by
  cases v <;> simp [shown, h]

theorem kept_getD {v : Option String} {d : String} (h : ∀ ch ∈ d.toList.getLast?, isWhite ch = false) :
    kept (v.getD d) = (v.map kept).getD d := by
  cases v with
  | none => exact kept_of_solid h
  | some s => rfl

theorem mem_names_of_lookup {c : Contact} {ts : Nat} {k : String} {values : List String}
    (h : (c.properties ts).lookup k = some values) : k ∈ names := by
  by_contra hk
  have hnone : (c.properties ts).lookup k = none := by
    rw [List.lookup_eq_none_iff]
    intro p hp
    refine bne_iff_ne.2 fun heq => hk ?_
    rw [heq, ← names_properties c ts]
    exact List.mem_map_of_mem hp
  rw [hnone] at h
  cases h

/-- A contact whose values have no newline comes back: each value less the white space at its end, a note that has
nothing to escape, `url` and `adr` as lists of one; with them the version, and where they are not given an
identifier and the names. -/
theorem vcard_roundtrip (toUppercase : List Char → List Char)
    (hupper : ∀ s, (∀ c ∈ s, c.toNat < 128) → toUppercase s = s.map Char.toUpper) (c : Contact) (h : c.OneLine)
    (ts : Nat) : ReadBack c ts (vcardToJson toUppercase (vcardGenerate ts c.toJson)) := by
  have hget := get_parsed hupper h ts
  have hlookup (name : String) (values : List String) (hl : (c.properties ts).lookup name = some values) :
      (vcardToJson toUppercase (vcardGenerate ts c.toJson)).get name = shown name (values.map kept) := by
    rw [hget, hl]
    rfl
  have hversion : ∀ ch ∈ "4.0".toList.getLast?, isWhite ch = false := by
    simp
    decide
  have huid : ∀ ch ∈ (genUid ts).toList.getLast?, isWhite ch = false := fun ch hch =>
    solid_genUid ts ch (List.mem_of_getLast? hch)
  have hfn : ∀ ch ∈ "Unknown".toList.getLast?, isWhite ch = false := by
    simp
    decide
  have hn : ∀ ch ∈ (c.fn.getD "Unknown" ++ ";;;;").toList.getLast?, isWhite ch = false := by
    simp
    decide
  constructor
  case version =>
    rw [hlookup "VERSION" ["4.0"] rfl, List.map_singleton, kept_of_solid hversion]
    rfl
  case uid =>
    rw [hlookup "UID" [c.uid.getD (genUid ts)] rfl, List.map_singleton, kept_getD huid]
    rfl
  case fn =>
    rw [hlookup "FN" [c.fn.getD "Unknown"] rfl, List.map_singleton, kept_getD hfn]
    rfl
  case n =>
    rw [hlookup "N" [c.n.getD (c.fn.getD "Unknown" ++ ";;;;")] rfl, List.map_singleton, kept_getD hn]
    rfl
  case email => rw [hlookup "EMAIL" _ rfl, shown_many _ (by decide)]
  case tel => rw [hlookup "TEL" _ rfl, shown_many _ (by decide)]
  case org => rw [hlookup "ORG" _ rfl, shown_one _ (by decide)]
  case title => rw [hlookup "TITLE" _ rfl, shown_one _ (by decide)]
  case note =>
    intro s hs hfree
    have hnote : (c.note.map fun s => String.ofList (vcardEscapeText s.toList)).toList = [s] := by
      rw [Option.mem_def.1 hs, Option.map_some, vcardEscapeText_free hfree, String.ofList_toList]
      rfl
    rw [hlookup "NOTE" _ rfl, hnote]
    rfl
  case noNote =>
    intro hnone
    rw [hlookup "NOTE" _ rfl, hnone]
    rfl
  case photo => rw [hlookup "PHOTO" _ rfl, shown_one _ (by decide)]
  case url => rw [hlookup "URL" _ rfl, shown_list _ (by decide)]
  case adr => rw [hlookup "ADR" _ rfl, shown_list _ (by decide)]
  case nothingElse =>
    intro k v hv
    rw [hget] at hv
    obtain ⟨values, hvalues, -⟩ := Option.bind_eq_some_iff.1 hv
    exact mem_names_of_lookup hvalues

namespace Sample

def upper : List Char → List Char := fun s => s.map Char.toUpper

def roundtrip : Contact :=
  { uid := some "dave-rt-1", fn := some "Dave Round", n := none, email := some (.one "dave@rt.com"),
    tel := some (.many ["+1-555-9999", "+1-555-0000"]), org := some "RoundCorp", title := none,
    note := some "met: Paris", photo := none, url := some "https://rt.com/?a:b;c", adr := none }

/-- With an empty list, and a text with a blank at its end. -/
def sparse : Contact :=
  { uid := none, fn := none, n := none, email := some (.many []), tel := none, org := none, title := none,
    note := none, photo := none, url := some "u ", adr := none }

end Sample

theorem vcard_roundtrip_given : ReadBack Sample.roundtrip 0
    (vcardToJson Sample.upper (vcardGenerate 0 Sample.roundtrip.toJson)) :=
  vcard_roundtrip Sample.upper (fun _ _ => rfl) Sample.roundtrip
    (show ∀ s ∈ Sample.roundtrip.texts, '\n' ∉ s.toList by decide +kernel) 0

/-- What was given, under the names of the properties. -/
def Contact.given (c : Contact) : List (String × Json) :=
  let list (v : OneOrMany) : Json := .arr (v.values.map .str)
  member "UID" (c.uid.map .str) ++ member "FN" (c.fn.map .str) ++ member "N" (c.n.map .str) ++
    member "EMAIL" (c.email.map list) ++ member "TEL" (c.tel.map list) ++ member "ORG" (c.org.map .str) ++
    member "TITLE" (c.title.map .str) ++ member "NOTE" (c.note.map .str) ++ member "PHOTO" (c.photo.map .str) ++
    member "URL" (c.url.map .str) ++ member "ADR" (c.adr.map .str)

/-- What comes back is not what was given: a version and names that were not, no empty list, and the text in a list
and without the blank. -/
theorem vcard_changes :
    (¬ ∀ k, (vcardToJson Sample.upper (vcardGenerate 0 Sample.sparse.toJson)).get k = Sample.sparse.given.lookup k) ∧
      (vcardToJson Sample.upper (vcardGenerate 0 Sample.sparse.toJson)).pairs =
        [("VERSION", .str "4.0"), ("UID", .str "00000000-0000-4000-b000-000000000000"), ("FN", .str "Unknown"),
          ("N", .str "Unknown;;;;"), ("URL", .arr [.str "u"])] := by
  constructor
  · intro h
    have hversion := congrArg Option.isSome (h "VERSION")
    exact absurd hversion (by decide +kernel)
  · rfl

end Metalogos.Contacts
