import Metalogos.Lang.Operators
import Metalogos.Lib.Dict
import Metalogos.Lib.Fallible
import Metalogos.Lib.Replace
import Metalogos.Template.Scan

/-!
# Rendering a template

`src/builtins/http.rs`: a template is registered with its body, its parameters and those of them it uses in
safe and in raw slots; `render` binds its arguments to the parameters and runs the replaces of
`render_template_body`, one parameter after the other in the order the hash map is iterated in. That order is
an argument here. The registry is the value of the global; its lock is never poisoned.
-/
namespace Metalogos.Template

open Metalogos.Lib Metalogos.Lang
open Metalogos.Parser (Text lbrace rbrace)

/-! ## Escaping -/

/-- The entity of an escaped character. -/
def entity (c : Char) : Option Text :=
  if c = '&' then some "&amp;".toList
  else if c = '<' then some "&lt;".toList
  else if c = '>' then some "&gt;".toList
  else if c = '"' then some "&quot;".toList
  else if c = '\'' then some "&#39;".toList
  else none

/-- mirrors src/builtins/string.rs:403-416 -/
def escapeHtmlChars (s : Text) : Text := s.flatMap fun c => (entity c).getD [c]

/-! ## The body -/

/-- `inner` between `width` braces. -/
def enclose (width : Nat) (inner : Text) : Text :=
  List.replicate width lbrace ++ inner ++ List.replicate width rbrace

def spaced (inner : Text) : Text := ' ' :: inner ++ [' ']

/-- The raw slots of a parameter. -/
def rawSpellings (key : Name) : List Text := [enclose 3 (spaced key.text), enclose 3 key.text]

/-- The safe slots of a parameter. -/
def safeSpellings (key : Name) : List Text :=
  [enclose 2 (spaced (key.text ++ " | safe".toList)), enclose 2 (key.text ++ "|safe".toList),
    enclose 2 (spaced (key.text ++ "|safe".toList)), enclose 2 (key.text ++ " | safe".toList)]

/-- The escaped slots of a parameter. -/
def plainSpellings (key : Name) : List Text := [enclose 2 key.text, enclose 2 (spaced key.text)]

/-- The `replace` calls of one parameter, in their order: what is replaced and by what. -/
def replaces {α : Type} (raw escaped : Text → List α) (safe : List Name) (key : Name) (val : Text) :
    List (Text × List α) :=
  (rawSpellings key).map (·, raw val) ++ (if key ∈ safe then (safeSpellings key).map (·, raw val) else []) ++
    (plainSpellings key).map (·, escaped val)

/-- mirrors src/builtins/http.rs:111-140 -/
def renderTemplateBody (body : Text) (vars : List (Name × Text)) (safe : List Name) : Text :=
  vars.foldl (fun result kv => replaceEach id (replaces id escapeHtmlChars safe kv.1 kv.2) result) body

/-! ## The registry -/

/-- mirrors src/builtins/http.rs:20-41 -/
structure TemplateEntry where
  body : Text
  params : List Name
  safeParams : List Name
  rawParams : List Name
  deriving DecidableEq

abbrev Registry := Dict Text TemplateEntry

/-- mirrors src/builtins/http.rs:57-66 -/
def templatePipeRefusal (body : Text) (params : List Name) : Option (Option Text) :=
  (pipeScan body params).map fun scan => scan.2.head?.map fun first =>
    "template '\x7b\x7b var | safe \x7d\x7d' form is the ONLY supported pipe stage (№695) — the tag '\x7b\x7b ".toList
      ++ first
      ++ " \x7d\x7d' is NOT supported; the raw insert is the triple-brace form '\x7b\x7b\x7b var \x7d\x7d\x7d' (N9, gh#1219)".toList

/-- `none` is a panic of the scan.
mirrors src/builtins/http.rs:71-101 -/
def registerTemplate (reg : Registry) (name body : Text) (params : List Name) :
    Option (Except Text Registry) := do
  match ← templatePipeRefusal body params with
  | some refusal => return .error ("template '".toList ++ name ++ "': ".toList ++ refusal)
  | none =>
    let safeIdx := (← pipeScan body params).1
    let rawIdx ← rawParamPositions body params
    return .ok (reg.set name
      { body, params, safeParams := safeIdx.filterMap (params[·]?), rawParams := rawIdx.filterMap (params[·]?) })

/-! ## The builtin -/

variable {F : Type} [FloatModel F]

/-- `Vec<String>` under `{:?}`: a name has nothing that Debug escapes. -/
def debugNames (params : List Name) : String :=
  "[" ++ ", ".intercalate (params.map fun p => "\"" ++ String.ofList p.text ++ "\"") ++ "]"

def isHtml : Value F → Bool
  | .html _ => true
  | _ => false

/-- The refusal of a slot that takes Html only. -/
def slotRefusal (template : String) (param : Name) (slot code : String) (val : Value F) : String :=
  let p := String.ofList param.text
  "render('" ++ template ++ "'): parameter '" ++ p ++ "' is used in the " ++ slot ++
    " but the value is not Html (" ++ val.typeName ++ ": " ++ val.display ++
    ") — build it with an explicit Html producer (" ++ code ++ ")"

/-- The text an argument is inserted with. -/
def argText : Value F → Text
  | .string s => s.toList
  | .html h => h.toList
  | other => other.display.toList

/-- One parameter against its argument. -/
def argVar (template : String) (entry : TemplateEntry) (param : Name) (val : Value F) : Except String Text :=
  let p := String.ofList param.text
  if param ∈ entry.safeParams ∧ ¬ isHtml val then
    .error (slotRefusal template param ("safe insert '\x7b\x7b " ++ p ++ " | safe \x7d\x7d'")
      "SAFE_PIPE_NOT_HTML, №695" val)
  else if param ∈ entry.rawParams ∧ ¬ isHtml val then
    .error (slotRefusal template param ("raw insert '\x7b\x7b\x7b " ++ p ++ " \x7d\x7d\x7d'")
      "RAW_SLOT_NOT_HTML, №765" val)
  else .ok (argText val)

/-- The map of the parameters: a repeated name keeps its last argument. -/
def argVars (template : String) (entry : TemplateEntry) (values : List (Value F)) :
    Except String (Dict Name Text) :=
  if values.length ≠ entry.params.length then
    .error ("render('" ++ template ++ "'): expected " ++ toString entry.params.length ++
      " argument(s) for params " ++ debugNames entry.params ++ ", got " ++ toString values.length)
  else
    (entry.params.zip values).foldlM (fun vars pv => do
      return vars.set pv.1 (← argVar template entry pv.1 pv.2)) Dict.empty

/-- `iter` is the order in which the map is iterated.
mirrors src/builtins/http.rs:572-662 -/
def builtinRender (reg : Registry) (iter : Dict Name Text → List (Name × Text)) (args : List (Value F)) :
    Except String (Value F) :=
  match args with
  | [] => .error "render() requires a template name"
  | .string template :: values =>
    match reg.get template.toList with
    | none => .error ("render(): unknown template '" ++ template ++ "' — declare it with `template " ++ template ++
        "(...) -> Html \x7b ... \x7d`")
    | some entry => do
      let vars ← argVars template entry values
      return .html (String.ofList (trim (renderTemplateBody entry.body (iter vars) entry.safeParams)))
  | other :: _ => .error (codedError "TYPE_MISMATCH" ("render() expected String argument, got " ++ other.typeName))

/-- A map that took the parameters has each of them once. -/
theorem argVars_nodup {template : String} {entry : TemplateEntry} {values : List (Value F)} {vars : Dict Name Text}
    (h : argVars template entry values = .ok vars) : vars.keys.Nodup := by
  rw [argVars] at h
  split at h
  · cases h
  · refine foldlM_relates (R := fun _ d d' => d.keys.Nodup → d'.keys.Nodup) (fun _ hd => hd)
      (fun {pv _ d _ _} hstep hrest hd => ?_) _ h List.nodup_nil
    obtain ⟨text, -, htext⟩ := bind_ok.mp hstep
    cases htext
    exact hrest (d.nodup_keys_set pv.1 text hd)

end Metalogos.Template
