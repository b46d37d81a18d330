import Metalogos.Labels.Lattice
import Metalogos.Lib.Text

/-!
# Label annotations: reading and printing

`Label::parse` (`src/labels.rs:374-501`) cuts an annotation at the commas outside parentheses, reads
each part, and cuts the list inside `consent(…)` at every comma. `Display` prints the three
components again.

The cut inside `consent(…)` does not look at parentheses, so a scope may hold one side of a pair:
`consent(z(,a))` names the scopes `z(` and `a)`. They are printed in order, the other way round, and
what is printed is not read: `parse_display_iff` says for which labels it is.
-/
namespace Metalogos.Labels
open Metalogos.Machine (Conf Integrity)
open Metalogos.Lib

/-! ## Printing -/

/-- mirrors src/labels.rs:116-123 -/
def confWord (c : Conf) : List Char := c.word.toList

/-- mirrors src/labels.rs:168-173 -/
def integrityWord (i : Integrity) : List Char := i.word.toList

/-- mirrors src/labels.rs:216-227 -/
def ConsentScope.display (c : ConsentScope) : List Char :=
  if c.scopes = [] then [] else "consent(".toList ++ (", ".toList.intercalate c.scopes ++ [')'])

/-- mirrors src/labels.rs:291-302 -/
def Label.display (l : Label) : List Char :=
  confWord l.conf ++ (", ".toList ++ (integrityWord l.integrity ++
    if l.consent.scopes = [] then [] else ", ".toList ++ l.consent.display))

/-! ## Reading -/

/-- mirrors src/labels.rs:316-333 -/
inductive LabelParseErrorKind where
  | empty | duplicateConf | duplicateIntegrity | duplicateConsent | unknownWord | emptyConsentList | missingConf
  deriving DecidableEq

/-- mirrors src/labels.rs:309-314 -/
structure LabelParseError where
  kind : LabelParseErrorKind
  word : List Char
  deriving DecidableEq

/-- mirrors src/labels.rs:106-114 -/
def parseConf (word : List Char) : Option Conf :=
  [Conf.public_, .consented, .private_, .poisoned].find? fun c => confWord c = word

/-- mirrors src/labels.rs:160-166 -/
def parseIntegrity (word : List Char) : Option Integrity :=
  [Integrity.untrusted, .trusted].find? fun i => integrityWord i = word

/-- The cut at commas outside parentheses; `current` is the part that is open.
mirrors src/labels.rs:389-425 -/
def scanParts (raw : List Char) : Nat → List Char → List Char → Except LabelParseError (List (List Char))
  | depth, current, [] => if depth ≠ 0 then .error ⟨.unknownWord, raw⟩ else .ok [current]
  | depth, current, ch :: rest =>
    if ch = '(' then scanParts raw (depth + 1) (current ++ [ch]) rest
    else if ch = ')' then
      if depth = 0 then .error ⟨.unknownWord, current⟩ else scanParts raw (depth - 1) (current ++ [ch]) rest
    else if ch = ',' ∧ depth = 0 then (scanParts raw 0 [] rest).map (current :: ·)
    else scanParts raw depth (current ++ [ch]) rest

/-- `str::strip_prefix("consent(")`. -/
def stripConsent (part : List Char) : Option (List Char) :=
  if "consent(".toList <+: part then some (part.drop 8) else none

/-- `str::strip_suffix(')')`. -/
def stripClose (rest : List Char) : Option (List Char) :=
  if rest.getLast? = some ')' then some rest.dropLast else none

/-- mirrors src/labels.rs:449-454 -/
def scopesOf (inner : List Char) : List Scope := ((inner.splitOn ',').map trim).filter (· ≠ [])

/-- The variables of the loop over the parts. -/
structure Parsed where
  conf : Option Conf := none
  integrity : Option Integrity := none
  consent : Option ConsentScope := none

/-- mirrors src/labels.rs:427-489 -/
def readPart (acc : Parsed) (raw : List Char) : Except LabelParseError Parsed :=
  let part := trim raw
  if part = [] then .error ⟨.unknownWord, part⟩
  else match stripConsent part with
  | some rest =>
    if acc.consent.isSome then .error ⟨.duplicateConsent, part⟩
    else match stripClose rest with
    | none => .error ⟨.unknownWord, part⟩
    | some inner =>
      if scopesOf inner = [] then .error ⟨.emptyConsentList, part⟩
      else .ok { acc with consent := some (.fromScopes (scopesOf inner)) }
  | none =>
    match parseConf part with
    | some c => if acc.conf.isSome then .error ⟨.duplicateConf, part⟩ else .ok { acc with conf := some c }
    | none =>
      match parseIntegrity part with
      | some i =>
        if acc.integrity.isSome then .error ⟨.duplicateIntegrity, part⟩ else .ok { acc with integrity := some i }
      | none => .error ⟨.unknownWord, part⟩

/-- mirrors src/labels.rs:374-501 -/
def Label.parse (text : List Char) : Except LabelParseError Label :=
  let raw := trim text
  if raw = [] then .error ⟨.empty, []⟩
  else do
    let parts ← scanParts raw 0 [] raw
    let acc ← parts.foldlM readPart {}
    match acc.conf with
    | none => .error ⟨.missingConf, raw⟩
    | some c => .ok ⟨c, acc.integrity.getD .trusted, acc.consent.getD .empty⟩

/-! ## The scan -/

/-- The depth after a text, if no parenthesis closes at depth 0. -/
def depthAfter : Nat → List Char → Option Nat
  | d, [] => some d
  | d, ch :: rest =>
    if ch = '(' then depthAfter (d + 1) rest
    else if ch = ')' then if d = 0 then none else depthAfter (d - 1) rest
    else depthAfter d rest

/-- Printed one after the other from depth `d` on, the scopes are at depth 1 or more at each comma between
them, and at depth 1 at the end. -/
def NestedFrom : Nat → List Scope → Prop
  | d, [] => d = 1
  | d, [s] => depthAfter d s = some 1
  | d, s :: t :: ss => ∃ d', depthAfter d s = some (d' + 1) ∧ NestedFrom (d' + 1) (t :: ss)

/-- The parentheses of the scopes, in their order, go together. -/
def ConsentScope.Nested (c : ConsentScope) : Prop := NestedFrom 1 c.scopes

variable {raw : List Char}

theorem depthAfter_plain {s : List Char} (hopen : '(' ∉ s) (hclose : ')' ∉ s) (d : Nat) : depthAfter d s = some d := by
  induction s with
  | nil => rfl
  | cons ch s ih =>
    simp only [List.mem_cons, not_or] at hopen hclose
    rw [depthAfter, if_neg (Ne.symm hopen.1), if_neg (Ne.symm hclose.1), ih hopen.2 hclose.2]

/-- A text without commas is copied into the open part. -/
theorem scanParts_append {s : List Char} (hs : ',' ∉ s) (rest : List Char) : ∀ {d d' : Nat} {cur : List Char},
    depthAfter d s = some d' → scanParts raw d cur (s ++ rest) = scanParts raw d' (cur ++ s) rest := by
  induction s with
  | nil =>
    intro d d' cur h
    obtain rfl : d = d' := by simpa [depthAfter] using h
    rw [List.append_nil, List.nil_append]
  | cons ch s ih =>
    intro d d' cur h
    simp only [List.mem_cons, not_or] at hs
    unfold depthAfter at h
    rw [List.cons_append, scanParts]
    by_cases ho : ch = '('
    · rw [if_pos ho] at h ⊢
      rw [ih hs.2 h, List.append_assoc, List.singleton_append]
    · rw [if_neg ho] at h ⊢
      by_cases hc : ch = ')'
      · rw [if_pos hc] at h ⊢
        by_cases h0 : d = 0
        · rw [if_pos h0] at h
          cases h
        · rw [if_neg h0] at h ⊢
          rw [ih hs.2 h, List.append_assoc, List.singleton_append]
      · rw [if_neg hc] at h ⊢
        rw [if_neg fun hcomma => hs.1 hcomma.1.symm, ih hs.2 h, List.append_assoc, List.singleton_append]

/-- A parenthesis that closes nothing is refused. -/
theorem scanParts_none {s : List Char} (hs : ',' ∉ s) (rest : List Char) : ∀ {d : Nat} {cur : List Char},
    depthAfter d s = none → ∃ e, scanParts raw d cur (s ++ rest) = .error e := by
  induction s with
  | nil =>
    intro d cur h
    cases h
  | cons ch s ih =>
    intro d cur h
    simp only [List.mem_cons, not_or] at hs
    unfold depthAfter at h
    rw [List.cons_append, scanParts]
    by_cases ho : ch = '('
    · rw [if_pos ho] at h ⊢
      exact ih hs.2 h
    · rw [if_neg ho] at h ⊢
      by_cases hc : ch = ')'
      · rw [if_pos hc] at h ⊢
        by_cases h0 : d = 0
        · rw [if_pos h0]
          exact ⟨_, rfl⟩
        · rw [if_neg h0] at h ⊢
          exact ih hs.2 h
      · rw [if_neg hc] at h ⊢
        rw [if_neg fun hcomma => hs.1 hcomma.1.symm]
        exact ih hs.2 h

/-- The open part stays at the front. -/
theorem scanParts_head {s : List Char} : ∀ {d : Nat} {cur : List Char} {ps : List (List Char)},
    scanParts raw d cur s = .ok ps → ∃ x ps', ps = (cur ++ x) :: ps' := by
  induction s with
  | nil =>
    intro d cur ps h
    unfold scanParts at h
    split_ifs at h
    cases h
    exact ⟨[], [], by rw [List.append_nil]⟩
  | cons ch s ih =>
    intro d cur ps h
    have hcopy {d' : Nat} (h : scanParts raw d' (cur ++ [ch]) s = .ok ps) : ∃ x ps', ps = (cur ++ x) :: ps' := by
      obtain ⟨x, ps', rfl⟩ := ih h
      exact ⟨ch :: x, ps', by simp⟩
    unfold scanParts at h
    split_ifs at h
    · exact hcopy h
    · exact hcopy h
    · cases hr : scanParts raw 0 [] s with
      | error e =>
        rw [hr] at h
        cases h
      | ok qs =>
        rw [hr] at h
        cases h
        exact ⟨[], qs, by rw [List.append_nil]⟩
    · exact hcopy h

theorem scanParts_comma (cur rest : List Char) :
    scanParts raw 0 cur (',' :: rest) = (scanParts raw 0 [] rest).map (cur :: ·) := by
  rw [scanParts, if_neg (by decide), if_neg (by decide), if_pos ⟨rfl, rfl⟩]

theorem scanParts_inner {d : Nat} (cur rest : List Char) :
    scanParts raw (d + 1) cur (", ".toList ++ rest) = scanParts raw (d + 1) (cur ++ ", ".toList) rest := by
  show scanParts raw (d + 1) cur (',' :: ' ' :: rest) = _
  rw [scanParts, if_neg (by decide), if_neg (by decide), if_neg (by simp), scanParts, if_neg (by decide),
    if_neg (by decide), if_neg (by simp), List.append_assoc]
  rfl

/-- Scopes that are nested stay in one part. -/
theorem scanParts_nested {ss : List Scope} (hcomma : ∀ s ∈ ss, ',' ∉ s) (hne : ss ≠ []) :
    ∀ {d : Nat} {cur : List Char}, NestedFrom d ss →
      scanParts raw d cur (", ".toList.intercalate ss ++ [')']) = .ok [cur ++ (", ".toList.intercalate ss ++ [')'])] := by
  induction ss with
  | nil => exact absurd rfl hne
  | cons s ss ih =>
    intro d cur h
    obtain ⟨hs, hss⟩ := List.forall_mem_cons.1 hcomma
    cases ss with
    | nil =>
      rw [List.intercalate_singleton, scanParts_append hs _ h, scanParts, if_neg (by decide), if_pos rfl,
        if_neg (by decide), scanParts, if_neg (by decide), List.append_assoc]
    | cons t ss =>
      obtain ⟨d', hd, hrest⟩ := h
      rw [List.intercalate_cons_cons, List.append_assoc, List.append_assoc, scanParts_append hs _ hd,
        scanParts_inner, ih hss (List.cons_ne_nil t ss) hrest]
      simp only [List.append_assoc]

/-- Scopes that are not are refused by the scan, or fall into several parts. -/
theorem scanParts_not_nested {ss : List Scope} (hcomma : ∀ s ∈ ss, ',' ∉ s) (hne : ss ≠ []) :
    ∀ {d : Nat} {cur : List Char}, ¬ NestedFrom d ss → ∀ {ps},
      scanParts raw d cur (", ".toList.intercalate ss ++ [')']) = .ok ps → ∃ x p ps', ps = (cur ++ x) :: p :: ps' := by
  induction ss with
  | nil => exact absurd rfl hne
  | cons s ss ih =>
    intro d cur h ps hok
    obtain ⟨hs, hss⟩ := List.forall_mem_cons.1 hcomma
    cases hd : depthAfter d s with
    | none =>
      cases ss with
      | nil =>
        have hbad : ∃ e, scanParts raw d cur (s ++ [')']) = .error e := scanParts_none hs [')'] hd
        obtain ⟨e, he⟩ := hbad
        rw [List.intercalate_singleton, he] at hok
        cases hok
      | cons t ss =>
        have hbad : ∃ e, scanParts raw d cur (s ++ (", ".toList ++ (", ".toList.intercalate (t :: ss) ++ [')']))) =
            .error e := scanParts_none hs _ hd
        obtain ⟨e, he⟩ := hbad
        rw [List.intercalate_cons_cons, List.append_assoc, List.append_assoc, he] at hok
        cases hok
    | some d' =>
      cases ss with
      | nil =>
        rw [List.intercalate_singleton, scanParts_append hs _ hd, scanParts, if_neg (by decide), if_pos rfl] at hok
        have hd1 : d' ≠ 1 := by
          rintro rfl
          exact h hd
        split_ifs at hok with h0
        rw [scanParts, if_pos (by omega)] at hok
        cases hok
      | cons t ss =>
        rw [List.intercalate_cons_cons, List.append_assoc, List.append_assoc, scanParts_append hs _ hd] at hok
        cases d' with
        | zero =>
          rw [show ", ".toList = ',' :: [' '] from rfl, List.cons_append, scanParts_comma] at hok
          cases hr : scanParts raw 0 [] ([' '] ++ ((',' :: [' ']).intercalate (t :: ss) ++ [')'])) with
          | error e =>
            rw [hr] at hok
            cases hok
          | ok qs =>
            obtain ⟨x, qs', rfl⟩ := scanParts_head hr
            rw [hr] at hok
            cases hok
            exact ⟨s, _, qs', rfl⟩
        | succ d' =>
          have hrest : ¬ NestedFrom (d' + 1) (t :: ss) := fun hn => h ⟨d', hd, hn⟩
          rw [scanParts_inner] at hok
          obtain ⟨x, p, ps', rfl⟩ := ih hss (List.cons_ne_nil t ss) hrest hok
          exact ⟨s ++ (", ".toList ++ x), p, ps', by simp only [List.append_assoc]⟩

/-! ## The parts -/

/-- With all three components set, every further part is refused. -/
theorem readPart_full {acc : Parsed} (hc : acc.conf.isSome) (hi : acc.integrity.isSome) (hs : acc.consent.isSome)
    (part : List Char) : ∃ e, readPart acc part = .error e := by
  unfold readPart
  simp only [hc, hi, hs, if_true]
  split_ifs
  · exact ⟨_, rfl⟩
  · cases stripConsent (trim part) with
    | some rest => exact ⟨_, rfl⟩
    | none =>
      cases parseConf (trim part) with
      | some c => exact ⟨_, rfl⟩
      | none => cases parseIntegrity (trim part) <;> exact ⟨_, rfl⟩

theorem trim_space (s : List Char) : trim (' ' :: s) = trim s := by
  unfold trim
  rw [List.dropWhile_cons_of_pos (by decide)]

theorem trim_confWord (c : Conf) : trim (confWord c) = confWord c := by
  cases c <;> decide

theorem trim_integrityWord (i : Integrity) : trim (integrityWord i) = integrityWord i := by
  cases i <;> decide

theorem readPart_conf (c : Conf) : readPart {} (confWord c) = .ok { conf := some c } := by
  unfold readPart
  rw [trim_confWord]
  cases c <;> rfl

theorem readPart_integrity (acc : Parsed) (i : Integrity) (h : acc.integrity = none) :
    readPart acc (' ' :: integrityWord i) = .ok { acc with integrity := some i } := by
  unfold readPart
  rw [trim_space, trim_integrityWord, h]
  cases i <;> rfl

/-- The part that `Display` writes for the scopes starts with `consent(`, and no other component is read from it. -/
theorem readPart_consent_ok {acc acc' : Parsed} {x : List Char}
    (h : readPart acc (' ' :: "consent(".toList ++ x) = .ok acc') : acc'.conf = acc.conf ∧
      acc'.integrity = acc.integrity ∧ acc'.consent.isSome := by
  have htrim : trim (' ' :: "consent(".toList ++ x) = "consent(".toList ++ trimEnd x := by
    show trim (' ' :: ("consent".toList ++ '(' :: x)) = "consent".toList ++ '(' :: trimEnd x
    rw [trim_space, ← trimEnd_append (by decide)]
    exact trim_of_head (by decide)
  have hstrip : stripConsent ("consent(".toList ++ trimEnd x) = some (trimEnd x) := by
    unfold stripConsent
    rw [if_pos (List.prefix_append _ _)]
    rfl
  unfold readPart at h
  dsimp only at h
  rw [htrim, hstrip] at h
  dsimp only at h
  split_ifs at h with h₁ h₂
  cases hc : stripClose (trimEnd x) with
  | none =>
    rw [hc] at h
    cases h
  | some inner =>
    rw [hc] at h
    dsimp only at h
    split_ifs at h
    cases h
    exact ⟨rfl, rfl, rfl⟩

/-- What a scope is after reading: not empty, trimmed, without a comma. -/
structure Solid (s : Scope) : Prop where
  ne : s ≠ []
  trimmed : trim s = s
  comma : ',' ∉ s

theorem intercalate_comma_space (s : Scope) (ss : List Scope) :
    ", ".toList.intercalate (s :: ss) = [','].intercalate (s :: ss.map (' ' :: ·)) := by
  induction ss generalizing s with
  | nil => rfl
  | cons t ss ih =>
    rw [List.intercalate_cons_cons, ih t, List.map_cons, List.intercalate_cons_cons]
    cases ss with
    | nil => simp
    | cons u ss =>
      rw [List.map_cons, List.intercalate_cons_cons, List.intercalate_cons_cons]
      simp

/-- Printed scopes are cut where they were joined. -/
theorem scopesOf_intercalate {ss : List Scope} (hss : ∀ s ∈ ss, Solid s) (hne : ss ≠ []) :
    scopesOf (", ".toList.intercalate ss) = ss := by
  cases ss with
  | nil => exact absurd rfl hne
  | cons s ss =>
    obtain ⟨hs, hrest⟩ := List.forall_mem_cons.1 hss
    have hfree : ∀ l ∈ s :: ss.map (' ' :: ·), ',' ∉ l := by
      refine List.forall_mem_cons.2 ⟨hs.comma, fun l hl => ?_⟩
      obtain ⟨t, ht, rfl⟩ := List.mem_map.1 hl
      simpa using (hrest t ht).comma
    have hmap : ss.map (trim ∘ (' ' :: ·)) = ss := by
      conv_rhs => rw [← List.map_id ss]
      refine List.map_congr_left fun t ht => ?_
      show trim (' ' :: t) = t
      rw [trim_space, (hrest t ht).trimmed]
    unfold scopesOf
    rw [intercalate_comma_space, List.splitOn_intercalate ',' hfree (List.cons_ne_nil _ _), List.map_cons, List.map_map,
      hs.trimmed, hmap]
    refine List.filter_eq_self.2 fun t ht => ?_
    simpa using (hss t ht).ne

theorem readPart_consent (acc : Parsed) (c : ConsentScope) (h : acc.consent = none) (hss : ∀ s ∈ c.scopes, Solid s)
    (hne : c.scopes ≠ []) :
    readPart acc (' ' :: "consent(".toList ++ (", ".toList.intercalate c.scopes ++ [')'])) =
      .ok { acc with consent := some c } := by
  have htrim : trim (' ' :: "consent(".toList ++ (", ".toList.intercalate c.scopes ++ [')'])) =
      "consent(".toList ++ (", ".toList.intercalate c.scopes ++ [')']) := by
    show trim (' ' :: ("consent(".toList ++ (", ".toList.intercalate c.scopes ++ [')']))) = _
    rw [trim_space]
    refine trim_of_solid ?_ ?_
    · intro ch hch
      obtain rfl : 'c' = ch := by simpa using hch
      decide
    · intro ch hch
      rw [← List.append_assoc, List.getLast?_concat] at hch
      obtain rfl : ')' = ch := by simpa using hch
      decide
  have hstrip : stripConsent ("consent(".toList ++ (", ".toList.intercalate c.scopes ++ [')'])) =
      some (", ".toList.intercalate c.scopes ++ [')']) := by
    unfold stripConsent
    rw [if_pos (List.prefix_append _ _)]
    rfl
  have hclose : stripClose (", ".toList.intercalate c.scopes ++ [')']) = some (", ".toList.intercalate c.scopes) := by
    unfold stripClose
    rw [if_pos List.getLast?_concat, List.dropLast_concat]
  unfold readPart
  dsimp only
  rw [htrim, hstrip]
  simp only [h, hclose, scopesOf_intercalate hss hne, ConsentScope.fromScopes_scopes, if_neg hne]
  rfl

/-! ## Reading what was printed -/

theorem comma_notMem_confWord (c : Conf) : ',' ∉ confWord c := by
  cases c <;> decide

theorem comma_notMem_integrityWord (i : Integrity) : ',' ∉ ' ' :: integrityWord i := by
  cases i <;> decide

theorem depthAfter_confWord (c : Conf) : depthAfter 0 (confWord c) = some 0 := by
  cases c <;> rfl

theorem depthAfter_integrityWord (i : Integrity) : depthAfter 0 (' ' :: integrityWord i) = some 0 := by
  cases i <;> rfl

theorem trim_display (l : Label) : trim l.display = l.display := by
  unfold Label.display ConsentScope.display
  refine trim_of_solid ?_ ?_
  · intro ch hch
    revert hch
    cases l.conf <;> rintro ⟨⟩ <;> decide
  · intro ch hch
    by_cases hc : l.consent.scopes = []
    · rw [if_pos hc, List.append_nil, List.getLast?_append, List.getLast?_append] at hch
      revert hch
      cases l.integrity <;> rintro ⟨⟩ <;> decide
    · rw [if_neg hc, if_neg hc] at hch
      simp only [← List.append_assoc] at hch
      rw [List.getLast?_concat] at hch
      obtain rfl : ')' = ch := by simpa using hch
      decide

theorem display_ne (l : Label) : l.display ≠ [] := by
  unfold Label.display
  cases l.conf <;> simp [confWord, Conf.word]

/-- The first two parts of what is printed. -/
theorem scanParts_display (l : Label) (rest : List Char) :
    scanParts raw 0 [] (confWord l.conf ++ (", ".toList ++ (integrityWord l.integrity ++ rest))) =
      (scanParts raw 0 (' ' :: integrityWord l.integrity) rest).map (confWord l.conf :: ·) := by
  rw [scanParts_append (comma_notMem_confWord l.conf) _ (depthAfter_confWord l.conf)]
  show scanParts raw 0 (confWord l.conf) (',' :: ((' ' :: integrityWord l.integrity) ++ rest)) = _
  have hdepth := depthAfter_integrityWord l.integrity
  rw [scanParts_comma, scanParts_append (comma_notMem_integrityWord l.integrity) _ hdepth]
  rfl

theorem parse_display_of_empty {l : Label} (h : l.consent.scopes = []) : Label.parse l.display = .ok l := by
  have hconsent : l.consent = .empty := by
    ext s
    rw [h]
    rfl
  unfold Label.parse
  dsimp only
  rw [trim_display, if_neg (display_ne l)]
  conv_lhs => rw [Label.display, if_pos h, scanParts_display, scanParts, if_neg (by decide)]
  obtain ⟨c, i, s⟩ := l
  obtain rfl : s = .empty := hconsent
  show (([confWord c, ' ' :: integrityWord i].foldlM readPart {}) >>= _) = _
  rw [List.foldlM_cons, readPart_conf]
  show ((readPart { conf := some c } (' ' :: integrityWord i) >>= fun acc => [].foldlM readPart acc) >>= _) = _
  rw [readPart_integrity _ _ rfl]
  rfl

theorem scanParts_display_consent {l : Label} (h : l.consent.scopes ≠ []) : scanParts raw 0 [] l.display =
    (scanParts raw 1 (' ' :: "consent(".toList) (", ".toList.intercalate l.consent.scopes ++ [')'])).map
      fun ps => confWord l.conf :: (' ' :: integrityWord l.integrity) :: ps := by
  rw [Label.display, if_neg h, scanParts_display, ConsentScope.display, if_neg h]
  show Except.map _ (scanParts raw 0 (' ' :: integrityWord l.integrity)
    (',' :: ((' ' :: "consent(".toList) ++ (", ".toList.intercalate l.consent.scopes ++ [')'])))) = _
  have hdepth : depthAfter 0 (' ' :: "consent(".toList) = some 1 := rfl
  rw [scanParts_comma, scanParts_append (by decide) _ hdepth, List.nil_append]
  cases scanParts raw 1 (' ' :: "consent(".toList) (", ".toList.intercalate l.consent.scopes ++ [')']) <;> rfl

theorem foldlM_display (l : Label) (ps : List (List Char)) :
    (confWord l.conf :: (' ' :: integrityWord l.integrity) :: ps).foldlM readPart {} =
      ps.foldlM readPart { conf := some l.conf, integrity := some l.integrity } := by
  rw [List.foldlM_cons, readPart_conf]
  show (((' ' :: integrityWord l.integrity) :: ps).foldlM readPart { conf := some l.conf }) = _
  rw [List.foldlM_cons, readPart_integrity _ _ rfl]
  rfl

/-- A printed label is read back exactly when its scopes are nested. -/
theorem parse_display_of_solid {l : Label} (hss : ∀ s ∈ l.consent.scopes, Solid s) (hne : l.consent.scopes ≠ []) :
    Label.parse l.display = .ok l ↔ l.consent.Nested := by
  have hcomma : ∀ s ∈ l.consent.scopes, ',' ∉ s := fun s hs => (hss s hs).comma
  unfold Label.parse
  dsimp only
  rw [trim_display, if_neg (display_ne l), scanParts_display_consent hne]
  constructor
  · intro h
    by_contra hnot
    cases hscan : scanParts l.display 1 (' ' :: "consent(".toList)
        (", ".toList.intercalate l.consent.scopes ++ [')']) with
    | error e =>
      rw [hscan] at h
      cases h
    | ok ps =>
      obtain ⟨x, p, ps', rfl⟩ := scanParts_not_nested hcomma hne hnot hscan
      rw [hscan] at h
      change (List.foldlM readPart {} _ >>= _) = _ at h
      rw [foldlM_display, List.foldlM_cons] at h
      -- the third part sets the last component, so that the fourth one is refused
      cases hthird : readPart { conf := some l.conf, integrity := some l.integrity }
          (' ' :: "consent(".toList ++ x) with
      | error e =>
        rw [hthird] at h
        cases h
      | ok acc =>
        obtain ⟨hc, hi, hs⟩ := readPart_consent_ok hthird
        have hconf : acc.conf.isSome := by
          rw [hc]
          rfl
        have hint : acc.integrity.isSome := by
          rw [hi]
          rfl
        obtain ⟨e, he⟩ := readPart_full hconf hint hs p
        rw [hthird] at h
        change (List.foldlM readPart acc (p :: ps') >>= _) = _ at h
        rw [List.foldlM_cons, he] at h
        cases h
  · intro hn
    rw [scanParts_nested hcomma hne hn]
    show (List.foldlM readPart {} _ >>= _) = _
    rw [foldlM_display, List.foldlM_cons, readPart_consent _ _ rfl hss hne]
    rfl

/-! ## What is read is solid -/

theorem trim_starts (s : List Char) : trim s <+: s.dropWhile isWhite := by
  unfold trim
  rw [← List.reverse_suffix, List.reverse_reverse]
  exact List.dropWhile_suffix _

theorem trim_subset (s : List Char) : trim s ⊆ s :=
  fun _ hc => (List.dropWhile_suffix _).subset ((trim_starts s).subset hc)

theorem head_dropWhile {s : List Char} {c : Char} (h : c ∈ (s.dropWhile isWhite).head?) : isWhite c = false := by
  have hnot := List.head?_dropWhile_not isWhite s
  rw [Option.mem_def] at h
  rw [h] at hnot
  exact hnot

theorem trim_trim (s : List Char) : trim (trim s) = trim s := by
  refine trim_of_solid (fun c hc => ?_) fun c hc => ?_
  · refine head_dropWhile (s := s) ?_
    obtain ⟨t, ht⟩ := trim_starts s
    rw [← ht]
    cases htrim : trim s with
    | nil => simp [htrim] at hc
    | cons d l => simpa [htrim] using hc
  · unfold trim at hc
    rw [List.getLast?_reverse] at hc
    exact head_dropWhile hc

theorem notMem_splitOn {x : List Char} : ∀ {p : List Char}, p ∈ x.splitOn ',' → ',' ∉ p := by
  induction x with
  | nil =>
    intro p hp
    rw [List.splitOn_nil] at hp
    simp_all
  | cons c x ih =>
    intro p hp
    unfold List.splitOn at hp ih
    rw [List.splitOnP_cons_eq_if_modifyHead] at hp
    split_ifs at hp with hc
    · rcases List.mem_cons.1 hp with rfl | hp
      · simp
      · exact ih hp
    · cases hx : List.splitOnP (· == ',') x with
      | nil => simp [hx] at hp
      | cons q qs =>
        rw [hx] at hp ih
        rcases List.mem_cons.1 hp with rfl | hp
        · have hq : ',' ∉ q := ih List.mem_cons_self
          simp only [List.mem_cons, not_or]
          exact ⟨fun heq => hc (by rw [← heq]; rfl), hq⟩
        · exact ih (List.mem_cons_of_mem q hp)

theorem solid_of_mem_scopesOf {inner : List Char} {s : Scope} (h : s ∈ scopesOf inner) : Solid s := by
  obtain ⟨hmem, hne⟩ := List.mem_filter.1 h
  obtain ⟨p, hp, rfl⟩ := List.mem_map.1 hmem
  exact ⟨by simpa using hne, trim_trim p, fun hc => notMem_splitOn hp (trim_subset p hc)⟩

theorem readPart_solid {acc acc' : Parsed} {part : List Char} (h : readPart acc part = .ok acc')
    (hacc : ∀ c ∈ acc.consent, ∀ s ∈ c.scopes, Solid s) : ∀ c ∈ acc'.consent, ∀ s ∈ c.scopes, Solid s := by
  unfold readPart at h
  dsimp only at h
  by_cases hpart : trim part = []
  · rw [if_pos hpart] at h
    cases h
  rw [if_neg hpart] at h
  cases hstrip : stripConsent (trim part) with
  | some rest =>
    rw [hstrip] at h
    dsimp only at h
    split_ifs at h
    cases hclose : stripClose rest with
    | none =>
      rw [hclose] at h
      cases h
    | some inner =>
      rw [hclose] at h
      dsimp only at h
      split_ifs at h
      cases h
      intro c hc s hs
      obtain rfl : ConsentScope.fromScopes (scopesOf inner) = c := by simpa using hc
      exact solid_of_mem_scopesOf (ConsentScope.mem_fromScopes.1 hs)
  | none =>
    rw [hstrip] at h
    dsimp only at h
    split at h
    · split_ifs at h
      cases h
      exact hacc
    · split at h
      · split_ifs at h
        cases h
        exact hacc
      · cases h

theorem parse_solid {text : List Char} {l : Label} (h : Label.parse text = .ok l) : ∀ s ∈ l.consent.scopes, Solid s := by
  unfold Label.parse at h
  dsimp only at h
  split_ifs at h
  cases hscan : scanParts (trim text) 0 [] (trim text) with
  | error e =>
    rw [hscan] at h
    cases h
  | ok parts =>
    rw [hscan] at h
    change (parts.foldlM readPart {} >>= _) = _ at h
    have hfold : ∀ {ps : List (List Char)} {acc acc' : Parsed}, ps.foldlM readPart acc = .ok acc' →
        (∀ c ∈ acc.consent, ∀ s ∈ c.scopes, Solid s) → ∀ c ∈ acc'.consent, ∀ s ∈ c.scopes, Solid s := by
      intro ps
      induction ps with
      | nil =>
        intro acc acc' h hacc
        cases h
        exact hacc
      | cons p ps ih =>
        intro acc acc' h hacc
        rw [List.foldlM_cons] at h
        cases hp : readPart acc p with
        | error e =>
          rw [hp] at h
          cases h
        | ok acc₁ =>
          rw [hp] at h
          exact ih h (readPart_solid hp hacc)
    cases hread : parts.foldlM readPart {} with
    | error e =>
      rw [hread] at h
      cases h
    | ok acc =>
      have hsolid := hfold hread (by simp)
      rw [hread] at h
      change (match acc.conf with | none => _ | some c => _) = _ at h
      cases hc : acc.conf with
      | none =>
        rw [hc] at h
        cases h
      | some c =>
        rw [hc] at h
        cases h
        intro s hs
        cases hcons : acc.consent with
        | none => simp [hcons, ConsentScope.empty] at hs
        | some cs => exact hsolid cs hcons s (by simpa [hcons] using hs)

/-! ## The round trip -/

/-- The scopes are empty or nested. -/
def Label.Readable (l : Label) : Prop := l.consent.scopes = [] ∨ l.consent.Nested

theorem nestedFrom_plain {ss : List Scope} (h : ∀ s ∈ ss, '(' ∉ s ∧ ')' ∉ s) : NestedFrom 1 ss := by
  induction ss with
  | nil => rfl
  | cons s ss ih =>
    obtain ⟨⟨ho, hc⟩, hss⟩ := List.forall_mem_cons.1 h
    cases ss with
    | nil => exact depthAfter_plain ho hc 1
    | cons t ss => exact ⟨0, depthAfter_plain ho hc 1, ih hss⟩

/-- Labels of plain scopes are read back; a label that was read is read back exactly when its scopes are nested. -/
theorem parse_display_iff (text : List Char) (l : Label) :
    ((∀ s ∈ l.consent.scopes, s ≠ [] ∧ trim s = s ∧ ',' ∉ s ∧ '(' ∉ s ∧ ')' ∉ s) → Label.parse l.display = .ok l) ∧
    (Label.parse text = .ok l → (Label.parse l.display = .ok l ↔ l.Readable)) := by
  constructor
  · intro hss
    by_cases hne : l.consent.scopes = []
    · exact parse_display_of_empty hne
    · have hsolid : ∀ s ∈ l.consent.scopes, Solid s := by
        intro s hs
        obtain ⟨h₁, h₂, h₃, -⟩ := hss s hs
        exact ⟨h₁, h₂, h₃⟩
      exact (parse_display_of_solid hsolid hne).2 (nestedFrom_plain fun s hs => (hss s hs).2.2.2)
  · intro h
    unfold Label.Readable
    by_cases hne : l.consent.scopes = []
    · exact ⟨fun _ => .inl hne, fun _ => parse_display_of_empty hne⟩
    · rw [parse_display_of_solid (parse_solid h) hne]
      simp [hne]

/-- Two scopes that hold one side of a pair each change places. -/
theorem parse_display_unnested : ¬ ∀ (text : List Char) (l : Label), Label.parse text = .ok l →
    Label.parse l.display = .ok l := by
  intro h
  have hread : Label.parse "private, consent(z(,a))".toList =
      .ok ⟨.private_, .trusted, .fromScopes ["z(".toList, "a)".toList]⟩ := rfl
  have hagain : Label.parse (⟨.private_, .trusted, .fromScopes ["z(".toList, "a)".toList]⟩ : Label).display =
      .error ⟨.unknownWord, "z()".toList⟩ := rfl
  have := h _ _ hread
  rw [hagain] at this
  cases this

end Metalogos.Labels
