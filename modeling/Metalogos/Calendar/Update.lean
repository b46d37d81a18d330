import Mathlib.Data.List.Infix
import Metalogos.Lib.ByteCut
import Metalogos.Lib.Json
import Metalogos.Lib.Lines
import Metalogos.Lib.Replace

/-!
# Updating an event

`cal_update` goes over the fields in the order of the map and edits the text of the event: where the text
`NAME:` occurs, the rest of that line is written anew; else a line is put in front of the first `END:VEVENT`.
`str::to_uppercase` and the texts of JSON values other than strings are parameters.
-/
namespace Metalogos.Calendar

open Metalogos.Lib

def replace (pat sub text : List Char) : List Char := replaceAll id pat sub text

/-- mirrors src/builtins/calendar.rs:853-859 -/
def escapeIcalText (text : List Char) : List Char :=
  let text := replace ['\\'] ['\\', '\\'] text
  let text := replace [';'] ['\\', ';'] text
  let text := replace [','] ['\\', ','] text
  let text := replace ['\r', '\n'] ['\\', 'n'] text
  replace ['\n'] ['\\', 'n'] text

/-- mirrors src/builtins/calendar.rs:825-846 -/
def formatDatetime (input : List Char) : List Char :=
  let s := trim input
  if 15 ≤ byteLen s ∧ s[8]? = some 'T' ∧ '-' ∉ s then
    if s.getLast? = some 'Z' then s else s ++ ['Z']
  else
    let cleaned := replace [' '] ['T'] s
    match cleaned.splitOn 'T' with
    | date :: time :: _ => replace ['-'] [] date ++ 'T' :: replace [':'] [] time ++ ['Z']
    | parts => replace ['-'] [] (parts.headD []) ++ ['T', '0', '0', '0', '0', '0', '0', 'Z']

/-- The property of a field.
mirrors src/builtins/calendar.rs:551-558 -/
def icalKey (toUppercase : String → String) (key : String) : List Char :=
  if key = "summary" then "SUMMARY".toList
  else if key = "description" then "DESCRIPTION".toList
  else if key = "location" then "LOCATION".toList
  else if key = "start" then "DTSTART".toList
  else if key = "end" then "DTEND".toList
  else (toUppercase key).toList

/-- mirrors src/builtins/calendar.rs:560-564 -/
def icalVal (key : String) (val : List Char) : List Char :=
  if key = "start" ∨ key = "end" then formatDatetime val else escapeIcalText val

/-- `none` where the field is left out.
mirrors src/builtins/calendar.rs:545-549 -/
def valStr (display : Json → String) : Json → Option (List Char)
  | .str s => some s.toList
  | .null => none
  | other => some (display other).toList

def crlf : List Char := ['\r', '\n']

def endEvent : List Char := ['E', 'N', 'D', ':', 'V', 'E', 'V', 'E', 'N', 'T']

/-- The text after the end of the line: the first `\r\n`, and only without one the first `\n`.
mirrors src/builtins/calendar.rs:570-574 -/
def afterLine (rest : List Char) : List Char :=
  match findStr crlf rest with
  | some (_, tail) => tail.drop 2
  | none =>
    match findStr ['\n'] rest with
    | some (_, tail) => tail.drop 1
    | none => []

/-- mirrors src/builtins/calendar.rs:566-592 -/
def setProperty (text : List Char) (field : List Char × List Char) : List Char :=
  let pattern := field.1 ++ [':']
  match findStr pattern text with
  | some (before, rest) => before ++ ':' :: pattern ++ field.2 ++ crlf ++ afterLine rest
  | none =>
    match findStr endEvent text with
    | some (before, rest) => before ++ field.1 ++ ':' :: field.2 ++ crlf ++ rest
    | none => text

section model

variable (toUppercase : String → String) (display : Json → String)

/-- The fields as they are written: properties with the escaped values. -/
def written (fields : List (String × Json)) : List (List Char × List Char) :=
  fields.filterMap fun (key, value) =>
    (valStr display value).map fun val => (icalKey toUppercase key, icalVal key val)

/-- mirrors src/builtins/calendar.rs:541-594 -/
def calUpdate (text : List Char) (fields : List (String × Json)) : List Char :=
  fields.foldl (fun text (key, value) =>
    match valStr display value with
    | none => text
    | some val => setProperty text (icalKey toUppercase key, icalVal key val)) text

theorem calUpdate_eq (text : List Char) (fields : List (String × Json)) :
    calUpdate toUppercase display text fields = (written toUppercase display fields).foldl setProperty text := by
  induction fields generalizing text with
  | nil => rfl
  | cons field fields ih =>
    obtain ⟨key, value⟩ := field
    rw [calUpdate, List.foldl_cons, ← calUpdate, ih]
    cases hval : valStr display value <;> simp [written, hval]

end model

end Metalogos.Calendar
