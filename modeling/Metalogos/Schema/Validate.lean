import Mathlib.Data.List.Basic
import Metalogos.Lib.Json

/-!
# The JSON-Schema subset

`src/schema/validate.rs`: `check_schema_subset` walks the schema and refuses what lies outside of the subset;
`validate_json` walks a value along an accepted schema and collects the violations. Both walks go down through the
members of an object, so each definition here hands out what it does with every member (`checkers`, `validators`)
and the node looks up the ones it asks for. The texts that `serde_json` writes and its equality of two `f64` are
parameters.
-/
namespace Metalogos.Schema

open Metalogos.Lib

/-- What `serde_json` answers. -/
structure JsonText where
  display : Json → String
  debugList : List Json → String
  debugOption : Option String → String
  sameReal : String → String → Bool

mutual
/-- `==` on two trees; the members of objects are compared by name. -/
def same (x : JsonText) : Json → Json → Bool
  | .null, .null => true
  | .bool a, .bool b => a == b
  | .int m, .int n => m == n
  | .real s, .real t => x.sameReal s t
  | .str s, .str t => s == t
  | .arr l, .arr l' => sameItems x l l'
  | .obj fields, .obj fields' => fields.length == fields'.length && sameFields x fields fields'
  | _, _ => false

def sameItems (x : JsonText) : List Json → List Json → Bool
  | [], [] => true
  | j :: js, j' :: js' => same x j j' && sameItems x js js'
  | _, _ => false

def sameFields (x : JsonText) : List (String × Json) → List (String × Json) → Bool
  | [], _ => true
  | (name, j) :: rest, fields' =>
    (match fields'.lookup name with
      | some j' => same x j j'
      | none => false) && sameFields x rest fields'
end

def supportedKeywords : List String := ["type", "properties", "required", "items", "enum"]

def ignoredAnnotations : List String := ["$schema", "$id", "$comment", "title", "description", "default", "examples"]

def jsonTypeName : Json → String
  | .null => "null"
  | .bool _ => "boolean"
  | .int _ => "number"
  | .real _ => "number"
  | .str _ => "string"
  | .arr _ => "array"
  | .obj _ => "object"

/-! ## The check of the schema -/

def refuseIf (c : Bool) (text : String) : Except String Unit := if c then .error text else .ok ()

/-- mirrors src/schema/validate.rs:60-68 -/
def checkKeywords (caller path : String) : List (String × Json) → Except String Unit
  | [] => .ok ()
  | (key, _) :: rest =>
    if key ∈ supportedKeywords ∨ key ∈ ignoredAnnotations then checkKeywords caller path rest
    else .error s!"{caller}(): [LLM_SCHEMA_UNSUPPORTED_FEATURE] schema keyword '{key}' at {path} is outside the supported subset [\"type\", \"properties\", \"required\", \"items\", \"enum\"] (annotations [\"$schema\", \"$id\", \"$comment\", \"title\", \"description\", \"default\", \"examples\"] are ignored); see ADR-0133"

def rootType (map : List (String × Json)) : Option String := (map.lookup "type").bind Json.asStr

def checkRoot (x : JsonText) (caller path : String) (isRoot : Bool) (map : List (String × Json)) :
    Except String Unit :=
  let got := x.debugOption (rootType map)
  refuseIf (isRoot && rootType map != some "object")
    s!"{caller}(): [LLM_SCHEMA_UNSUPPORTED_FEATURE] root schema must be \x7b\"type\":\"object\",...\x7d — the ROOT schema describes an object (ADR-0133 root contract); got type {got} at {path}"

def checkType (caller path : String) (map : List (String × Json)) : Except String Unit :=
  match map.lookup "type" with
  | none => .ok ()
  | some (.str _) => .ok ()
  | some t =>
    let got := jsonTypeName t
    .error s!"{caller}(): [LLM_SCHEMA_UNSUPPORTED_FEATURE] 'type' at {path} must be a string, got {got} (ADR-0133)"

def checkRequired (caller path : String) (map : List (String × Json)) : Except String Unit :=
  let text := s!"{caller}(): [LLM_SCHEMA_UNSUPPORTED_FEATURE] 'required' at {path} must be an array of strings (ADR-0133)"
  match map.lookup "required" with
  | none => .ok ()
  | some (.arr req) => refuseIf (!req.all fun v => v.asStr.isSome) text
  | some _ => .error text

def checkEnum (caller path : String) (map : List (String × Json)) : Except String Unit :=
  let text := s!"{caller}(): [LLM_SCHEMA_UNSUPPORTED_FEATURE] 'enum' at {path} must be a non-empty array (ADR-0133)"
  match map.lookup "enum" with
  | none => .ok ()
  | some (.arr en) => refuseIf en.isEmpty text
  | some _ => .error text

/-- What is done with a member: as a schema node, and as the `properties` of one. -/
structure Checker where
  node : String → Except String Unit
  properties : String → Except String Unit

def eachProperty (path : String) : List (String × Checker) → Except String Unit
  | [] => .ok ()
  | (name, c) :: rest => do
    c.node s!"{path}.properties.{name}"
    eachProperty path rest

def onMember (members : List (String × Checker)) (key : String) (check : Checker → Except String Unit) :
    Except String Unit :=
  match members.lookup key with
  | some c => check c
  | none => .ok ()

/-- mirrors src/schema/validate.rs:60-127 -/
def checkMap (x : JsonText) (caller : String) (map : List (String × Json)) (members : List (String × Checker))
    (isRoot : Bool) (path : String) : Except String Unit := do
  checkKeywords caller path map
  checkRoot x caller path isRoot map
  checkType caller path map
  onMember members "properties" fun c => c.properties path
  checkRequired caller path map
  onMember members "items" fun c => c.node s!"{path}.items"
  checkEnum caller path map

mutual
/-- mirrors src/schema/validate.rs:42-129 -/
def checkSchemaNode (x : JsonText) (caller : String) : Json → Bool → String → Except String Unit
  | .obj map, isRoot, path => checkMap x caller map (checkers x caller map) isRoot path
  | schema, _, path =>
    let got := jsonTypeName schema
    .error s!"{caller}(): [LLM_SCHEMA_UNSUPPORTED_FEATURE] schema node at {path} must be a JSON object, got {got} (ADR-0133)"

def checkProperties (x : JsonText) (caller : String) : Json → String → Except String Unit
  | .obj props, path => eachProperty path (checkers x caller props)
  | props, path =>
    let got := jsonTypeName props
    .error s!"{caller}(): [LLM_SCHEMA_UNSUPPORTED_FEATURE] 'properties' at {path} must be an object, got {got} (ADR-0133)"

def checkers (x : JsonText) (caller : String) : List (String × Json) → List (String × Checker)
  | [] => []
  | (name, j) :: rest => (name, ⟨checkSchemaNode x caller j false, checkProperties x caller j⟩) :: checkers x caller rest
end

/-- mirrors src/schema/validate.rs:38-40 -/
def checkSchemaSubset (x : JsonText) (schema : Json) (caller : String) : Except String Unit :=
  checkSchemaNode x caller schema true "$"

/-! ## The violations of a value -/

/-- mirrors src/schema/validate.rs:237-249 -/
def typeMatches (value : Json) (t : String) : Bool :=
  if t = "string" then value.asStr.isSome
  else if t = "boolean" then (match value with | .bool _ => true | _ => false)
  else if t = "null" then (match value with | .null => true | _ => false)
  else if t = "number" then (match value with | .int _ => true | .real _ => true | _ => false)
  else if t = "integer" then value.asI64.isSome || value.asU64.isSome
  else if t = "array" then (match value with | .arr _ => true | _ => false)
  else if t = "object" then (match value with | .obj _ => true | _ => false)
  else false

/-- `trim_start_matches`: every leading copy is cut. -/
def trimStartMatches (pattern : List Char) : Nat → List Char → List Char
  | 0, s => s
  | n + 1, s => if pattern.isPrefixOf s then trimStartMatches pattern n (s.drop pattern.length) else s

def displayPath (path rootLabel : String) : String :=
  if path = "$" then rootLabel
  else
    let n := path.length
    let rest := String.ofList (trimStartMatches ['$'] n (trimStartMatches ['$', '.'] n path.toList))
    s!"{rootLabel}.{rest}"

/-- The longest piece of whole characters within `n` bytes. -/
def takeBytes : Nat → List Char → List Char
  | _, [] => []
  | n, c :: cs => if c.utf8Size ≤ n then c :: takeBytes (n - c.utf8Size) cs else []

def shortRepr (x : JsonText) (v : Json) : String :=
  let s := x.display v
  if s.utf8ByteSize > 60 then String.ofList (takeBytes 60 s.toList) ++ "..." else s

/-- The early returns of a node; `deeper` are the violations below it.
mirrors src/schema/validate.rs:153-178 -/
def judge (x : JsonText) (rootLabel : String) (value schema : Json) (path : String) (deeper : List String) : List String :=
  let at_ := displayPath path rootLabel
  let got := shortRepr x value
  let byType : List String := match (schema.get "type").bind Json.asStr with
    | some t =>
      let name := jsonTypeName value
      if typeMatches value t then deeper else [s!"{at_}: expected type {t}, got {name} {got}"]
    | none => deeper
  match schema.get "enum" with
  | some (.arr en) =>
    let literals := x.debugList en
    if en.any fun allowed => same x allowed value then byType
    else [s!"{at_}: value {got} is not one of the enum literals {literals}"]
  | _ => byType

def missing (rootLabel : String) (map : List (String × Json)) (schema : Json) (path : String) : List String :=
  match schema.get "required" with
  | some (.arr req) => (req.filterMap Json.asStr).flatMap fun name =>
      let at_ := displayPath path rootLabel
      if (map.lookup name).isSome then [] else [s!"{at_}: missing required field '{name}'"]
  | _ => []

def undeclared (rootLabel : String) (map props : List (String × Json)) (path : String) : List String :=
  map.flatMap fun kv =>
    let at_ := displayPath path rootLabel
    let key := kv.1
    if (props.lookup key).isSome then []
    else [s!"{at_}: unexpected field '{key}' is not declared in schema properties (strict-by-default, ADR-0133 D2)"]

/-- mirrors src/schema/validate.rs:180-218 -/
def ofObject (rootLabel : String) (strict : Bool) (map : List (String × Json))
    (members : List (String × (Json → String → List String))) (schema : Json) (path : String) : List String :=
  (match schema.get "properties" with
    | some (.obj props) =>
      (if strict then undeclared rootLabel map props path else []) ++
        props.flatMap fun kv => match members.lookup kv.1 with
          | some validate =>
            let name := kv.1
            validate kv.2 s!"{path}.{name}"
          | none => []
    | _ => []) ++ missing rootLabel map schema path

mutual
/-- The violations, in order.
mirrors src/schema/validate.rs:145-235 -/
def validateJson (x : JsonText) (rootLabel : String) (strict : Bool) : Json → Json → String → List String
  | .obj map, schema, path =>
    judge x rootLabel (.obj map) schema path (ofObject rootLabel strict map (validators x rootLabel strict map) schema path)
  | .arr items, schema, path =>
    judge x rootLabel (.arr items) schema path (match schema.get "items" with
      | some sub => validateItems x rootLabel strict items sub path 0
      | none => [])
  | value, schema, path => judge x rootLabel value schema path []

def validateItems (x : JsonText) (rootLabel : String) (strict : Bool) :
    List Json → Json → String → Nat → List String
  | [], _, _, _ => []
  | item :: items, schema, path, i =>
    validateJson x rootLabel strict item schema s!"{path}[{i}]" ++ validateItems x rootLabel strict items schema path (i + 1)

def validators (x : JsonText) (rootLabel : String) (strict : Bool) :
    List (String × Json) → List (String × (Json → String → List String))
  | [] => []
  | (name, j) :: rest => (name, validateJson x rootLabel strict j) :: validators x rootLabel strict rest
end

end Metalogos.Schema
