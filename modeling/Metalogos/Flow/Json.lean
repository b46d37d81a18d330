import Metalogos.Lang.Value

/-!
# Values in a checkpoint

`Value` derives `Serialize` and `Deserialize` (`src/interpreter/values.rs:47-49`): an externally tagged
tree, in which a secret, a grant and the two likeness handles are replaced by fixed markers
(`src/interpreter/values.rs:18-30`, `src/grants.rs:129-149`, `src/likeness.rs:58-82`). The text in
between is `serde_json`'s: `Wire` is what a tree can lose on the way.

`decode_encode`: what is read back is the value with its markers (`masked`), as long as the text keeps
its numbers.
-/
namespace Metalogos.Flow

open Metalogos.Lang

variable {F : Type}

/-- A JSON tree; a `float` is an `f64`, a `nat` one of the integer types. -/
inductive Json (F : Type) where
  | null
  | bool (b : Bool)
  | float (x : F)
  | nat (n : Nat)
  | str (s : String)
  | arr (items : List (Json F))
  | obj (fields : List (String × Json F))

/-! ## The text -/

/-- `serde_json::to_string` and `from_str`: a number may be written as `null` or read back as its
neighbour, and a text nested deeper than `limit` is refused. -/
structure Wire (F : Type) where
  reread : F → Option F
  limit : Nat
  refusal : String

/-- A number that comes back as it was. -/
def Wire.Exact (w : Wire F) (x : F) : Prop := w.reread x = some x

mutual
/-- How deep arrays and objects nest. -/
def Json.depth : Json F → Nat
  | .arr items => depthItems items + 1
  | .obj fields => depthFields fields + 1
  | _ => 0

def depthItems : List (Json F) → Nat
  | [] => 0
  | j :: js => max j.depth (depthItems js)

def depthFields : List (String × Json F) → Nat
  | [] => 0
  | (_, j) :: rest => max j.depth (depthFields rest)
end

mutual
/-- The tree that is read from the text of a tree. -/
def Json.reread (w : Wire F) : Json F → Json F
  | .float x => ((w.reread x).map .float).getD .null
  | .arr items => .arr (rereadItems w items)
  | .obj fields => .obj (rereadFields w fields)
  | j => j

def rereadItems (w : Wire F) : List (Json F) → List (Json F)
  | [] => []
  | j :: js => j.reread w :: rereadItems w js

def rereadFields (w : Wire F) : List (String × Json F) → List (String × Json F)
  | [] => []
  | (k, j) :: rest => (k, j.reread w) :: rereadFields w rest
end

/-- `serde_json::from_str` on the text of a tree. -/
def Wire.fromStr (w : Wire F) (j : Json F) : Except String (Json F) :=
  if j.depth ≤ w.limit then .ok (j.reread w) else .error w.refusal

/-! ## Writing -/

/-- The name of a handle's variant; that of a media handle is in front of its kind. -/
def variantName : HandleKind → String
  | .subgraph => "Subgraph"
  | .reflex => "Reflex"
  | .bpeVocab => "BpeVocab"
  | .vision => "Vision"
  | .voice => "Voice"
  | .audio => "Audio"
  | .video => "Video"
  | .llmStream => "LlmStream"
  | .media _ => "Media"
  | .grant => "Grant"
  | .likenessChallenge => "LikenessChallenge"
  | .likeness => "Likeness"
  | .memory => "Memory"
  | .duplex => "Duplex"
  | .device => "Device"
  | .worldState => "WorldState"
  | .actionChunk => "ActionChunk"
  | .pose => "Pose"
  | .trajectory => "Trajectory"
  | .goalPredicate => "GoalPredicate"
  | .proof => "Proof"
  | .seriesHandle => "SeriesHandle"
  | .forecastHandle => "ForecastHandle"

/-- What stands for the payload of a handle that is never written.
mirrors src/grants.rs:129-133, src/likeness.rs:58-75 -/
def deadMarker : HandleKind → Option String
  | .grant => some "[GRANT]"
  | .likenessChallenge => some "[LIKENESS_CHALLENGE]"
  | .likeness => some "[LIKENESS_TOKEN]"
  | _ => none

/-- The payload of a handle: a marker, or the index and the projection the value holds. -/
def encodeHandle (k : HandleKind) (id : Nat) (text : String) : Json F :=
  match deadMarker k, k with
  | some marker, _ => .str marker
  | none, .media t => .arr [.str t, .nat id, .str text]
  | none, _ => .arr [.nat id, .str text]

def encodeStrings (data : List (String × String)) : List (String × Json F) :=
  data.map fun kv => (kv.1, .str kv.2)

def encodePairs (headers : List (String × String)) : List (Json F) :=
  headers.map fun kv => .arr [.str kv.1, .str kv.2]

def encodeBytes (bytes : List UInt8) : List (Json F) := bytes.map fun b => .nat b.toNat

def encodeOption : Option String → Json F
  | none => .null
  | some s => .str s

mutual
/-- mirrors src/interpreter/values.rs:18-23, :47-199 -/
def encode : Value F → Json F
  | .string s => .obj [("String", .str s)]
  | .float x => .obj [("Float", .float x)]
  | .bool b => .obj [("Bool", .bool b)]
  | .struct t fields =>
    .obj [("Struct", .obj [("type_name", .str t), ("fields", .obj (encodeFields fields))])]
  | .list items => .obj [("List", .arr (encodeItems items))]
  | .fluid variants => .obj [("Fluid", .arr (encodeVariants variants))]
  | .unit => .str "Unit"
  | .html s => .obj [("Html", .str s)]
  | .query s => .obj [("Query", .str s)]
  | .secret _ => .obj [("Secret", .str "[SECRET]")]
  | .encrypted bytes => .obj [("Encrypted", .arr (encodeBytes bytes))]
  | .hash s => .obj [("Hash", .str s)]
  | .session data => .obj [("Session", .obj (encodeStrings data))]
  | .httpResponse status body contentType headers =>
    .obj [("HttpResponse", .obj [("status", .nat status), ("body", .str body),
      ("content_type", encodeOption contentType), ("headers", .arr (encodePairs headers))])]
  | .handle k id text => .obj [(variantName k, encodeHandle k id text)]

def encodeItems : List (Value F) → List (Json F)
  | [] => []
  | v :: vs => encode v :: encodeItems vs

def encodeFields : List (String × Value F) → List (String × Json F)
  | [] => []
  | (k, v) :: rest => (k, encode v) :: encodeFields rest

def encodeVariants : List (String × Value F × F) → List (Json F)
  | [] => []
  | (t, v, c) :: rest =>
    .obj [("type_name", .str t), ("value", encode v), ("confidence", .float c)] :: encodeVariants rest
end

/-! ## Reading -/

def decodeStrings : List (String × Json F) → Option (List (String × String))
  | [] => some []
  | (k, .str s) :: rest => (decodeStrings rest).map ((k, s) :: ·)
  | _ => none

def decodePairs : List (Json F) → Option (List (String × String))
  | [] => some []
  | .arr [.str k, .str s] :: rest => (decodePairs rest).map ((k, s) :: ·)
  | _ => none

def decodeBytes : List (Json F) → Option (List UInt8)
  | [] => some []
  | .nat n :: rest => if n < 256 then (decodeBytes rest).map (.ofNat n :: ·) else none
  | _ => none

def decodeOption : Json F → Option (Option String)
  | .null => some none
  | .str s => some (some s)
  | _ => none

/-- The variants that hold a handle, those with a marker and the media handles apart. -/
def handleKinds : List HandleKind :=
  [.subgraph, .reflex, .bpeVocab, .vision, .voice, .audio, .video, .llmStream, .memory, .duplex,
    .device, .worldState, .actionChunk, .pose, .trajectory, .goalPredicate, .proof, .seriesHandle,
    .forecastHandle]

/-- A marker is read as a handle that refuses every use, whatever text stands in it.
mirrors src/grants.rs:135-149, src/likeness.rs:64-82 -/
def tombstone : HandleKind → Value F
  | .grant => .handle .grant 0 "deserialized"
  | k => .handle k 0 ""

def decodeHandle (name : String) : Json F → Option (Value F)
  | .str _ =>
    ([.grant, .likenessChallenge, .likeness].find? (variantName · == name)).map tombstone
  | .arr [.str t, .nat id, .str text] =>
    if name == "Media" then some (.handle (.media t) id text) else none
  | .arr [.nat id, .str text] =>
    (handleKinds.find? (variantName · == name)).map (.handle · id text)
  | _ => none

mutual
/-- The trees that `encode` makes; the fields of a struct variant in its order. -/
def decode : Json F → Option (Value F)
  | .str "Unit" => some .unit
  | .obj [(name, payload)] => decodeVariant name payload
  | _ => none

def decodeVariant (name : String) (payload : Json F) : Option (Value F) :=
  match name, payload with
  | "String", .str s => some (.string s)
  | "Float", .float x => some (.float x)
  | "Bool", .bool b => some (.bool b)
  | "Struct", .obj [("type_name", .str t), ("fields", .obj fields)] =>
    (decodeFields fields).map (.struct t)
  | "List", .arr items => (decodeItems items).map .list
  | "Fluid", .arr items => (decodeVariants items).map .fluid
  | "Html", .str s => some (.html s)
  | "Query", .str s => some (.query s)
  | "Secret", .str s => some (.secret s)
  | "Encrypted", .arr items => (decodeBytes items).map .encrypted
  | "Hash", .str s => some (.hash s)
  | "Session", .obj data => (decodeStrings data).map .session
  | "HttpResponse", .obj [("status", .nat status), ("body", .str body), ("content_type", ct),
      ("headers", .arr headers)] => do
    let contentType ← decodeOption ct
    let headers ← decodePairs headers
    some (.httpResponse status body contentType headers)
  | name, payload => decodeHandle name payload

def decodeItems : List (Json F) → Option (List (Value F))
  | [] => some []
  | j :: js => do
    let v ← decode j
    let vs ← decodeItems js
    some (v :: vs)

def decodeFields : List (String × Json F) → Option (List (String × Value F))
  | [] => some []
  | (k, j) :: rest => do
    let v ← decode j
    let vs ← decodeFields rest
    some ((k, v) :: vs)

def decodeVariants : List (Json F) → Option (List (String × Value F × F))
  | [] => some []
  | .obj [("type_name", .str t), ("value", j), ("confidence", .float c)] :: rest => do
    let v ← decode j
    let vs ← decodeVariants rest
    some ((t, v, c) :: vs)
  | _ => none
end

/-! ## What comes back -/

mutual
/-- A value as a checkpoint gives it back. -/
def masked : Value F → Value F
  | .secret _ => .secret "[SECRET]"
  | .handle k id text => if (deadMarker k).isSome then tombstone k else .handle k id text
  | .struct t fields => .struct t (maskedFields fields)
  | .list items => .list (maskedItems items)
  | .fluid variants => .fluid (maskedVariants variants)
  | v => v

def maskedItems : List (Value F) → List (Value F)
  | [] => []
  | v :: vs => masked v :: maskedItems vs

def maskedFields : List (String × Value F) → List (String × Value F)
  | [] => []
  | (k, v) :: rest => (k, masked v) :: maskedFields rest

def maskedVariants : List (String × Value F × F) → List (String × Value F × F)
  | [] => []
  | (t, v, c) :: rest => (t, masked v, c) :: maskedVariants rest
end

mutual
/-- Every number in the value comes back as it was. -/
def Kept (w : Wire F) : Value F → Prop
  | .float x => w.Exact x
  | .struct _ fields => KeptFields w fields
  | .list items => KeptItems w items
  | .fluid variants => KeptVariants w variants
  | _ => True

def KeptItems (w : Wire F) : List (Value F) → Prop
  | [] => True
  | v :: vs => Kept w v ∧ KeptItems w vs

def KeptFields (w : Wire F) : List (String × Value F) → Prop
  | [] => True
  | (_, v) :: rest => Kept w v ∧ KeptFields w rest

def KeptVariants (w : Wire F) : List (String × Value F × F) → Prop
  | [] => True
  | (_, v, c) :: rest => w.Exact c ∧ Kept w v ∧ KeptVariants w rest
end

mutual
/-- No part of the value is a secret, a grant or a likeness handle. -/
def Plain : Value F → Prop
  | .secret _ => False
  | .handle k _ _ => deadMarker k = none
  | .struct _ fields => PlainFields fields
  | .list items => PlainItems items
  | .fluid variants => PlainVariants variants
  | _ => True

def PlainItems : List (Value F) → Prop
  | [] => True
  | v :: vs => Plain v ∧ PlainItems vs

def PlainFields : List (String × Value F) → Prop
  | [] => True
  | (_, v) :: rest => Plain v ∧ PlainFields rest

def PlainVariants : List (String × Value F × F) → Prop
  | [] => True
  | (_, v, _) :: rest => Plain v ∧ PlainVariants rest
end

mutual
/-- Such a value has no markers. -/
theorem masked_plain : ∀ v : Value F, Plain v → masked v = v
  | .string _, _ => rfl
  | .float _, _ => rfl
  | .bool _, _ => rfl
  | .struct t fields, h => congrArg (Value.struct t) (maskedFields_plain fields h)
  | .list items, h => congrArg Value.list (maskedItems_plain items h)
  | .fluid variants, h => congrArg Value.fluid (maskedVariants_plain variants h)
  | .unit, _ => rfl
  | .html _, _ => rfl
  | .query _, _ => rfl
  | .secret _, h => h.elim
  | .encrypted _, _ => rfl
  | .hash _, _ => rfl
  | .session _, _ => rfl
  | .httpResponse .., _ => rfl
  | .handle k id text, h => by
    have hk : deadMarker k = none := h
    rw [masked, hk]
    rfl

theorem maskedItems_plain : ∀ items : List (Value F), PlainItems items → maskedItems items = items
  | [], _ => rfl
  | v :: vs, h => by rw [maskedItems, masked_plain v h.1, maskedItems_plain vs h.2]

theorem maskedFields_plain :
    ∀ fields : List (String × Value F), PlainFields fields → maskedFields fields = fields
  | [], _ => rfl
  | (k, v) :: rest, h => by rw [maskedFields, masked_plain v h.1, maskedFields_plain rest h.2]

theorem maskedVariants_plain :
    ∀ variants : List (String × Value F × F), PlainVariants variants → maskedVariants variants = variants
  | [], _ => rfl
  | (t, v, c) :: rest, h => by
    rw [maskedVariants, masked_plain v h.1, maskedVariants_plain rest h.2]
end

section RoundTrip

variable (w : Wire F)

theorem decode_strings (data : List (String × String)) :
    decodeStrings (rereadFields w (encodeStrings data)) = some data := by
  induction data with
  | nil => rfl
  | cons kv data ih =>
    show (decodeStrings (rereadFields w (encodeStrings data))).map _ = _
    rw [ih]
    rfl

theorem decode_pairs (headers : List (String × String)) :
    decodePairs (rereadItems w (encodePairs headers)) = some headers := by
  induction headers with
  | nil => rfl
  | cons kv headers ih =>
    show (decodePairs (rereadItems w (encodePairs headers))).map _ = _
    rw [ih]
    rfl

theorem decode_bytes (bytes : List UInt8) :
    decodeBytes (rereadItems w (encodeBytes bytes)) = some bytes := by
  induction bytes with
  | nil => rfl
  | cons b bytes ih =>
    show (if b.toNat < 256 then
      (decodeBytes (rereadItems w (encodeBytes bytes))).map (UInt8.ofNat b.toNat :: ·) else none) = _
    rw [if_pos b.toNat_lt, ih, UInt8.ofNat_toNat]
    rfl

theorem decode_option (contentType : Option String) :
    decodeOption ((encodeOption contentType : Json F).reread w) = some contentType := by
  cases contentType <;> rfl

theorem decode_handle (k : HandleKind) (id : Nat) (text : String) :
    decode ((encode (.handle k id text : Value F)).reread w) = some (masked (.handle k id text)) := by
  cases k <;> rfl

variable {w}

theorem reread_float {x : F} (h : w.Exact x) : (Json.float x).reread w = .float x := by
  show ((w.reread x).map Json.float).getD .null = _
  rw [h]
  rfl

mutual
/-- The tree of a value is read as the value with its markers. -/
theorem decode_encode : ∀ v : Value F, Kept w v → decode ((encode v).reread w) = some (masked v)
  | .string _, _ => rfl
  | .float x, h => by
    show decode (.obj [("Float", (Json.float x).reread w)]) = _
    rw [reread_float h]
    rfl
  | .bool _, _ => rfl
  | .struct t fields, h => by
    show (decodeFields (rereadFields w (encodeFields fields))).map (Value.struct t) = _
    rw [decode_fields fields h]
    rfl
  | .list items, h => by
    show (decodeItems (rereadItems w (encodeItems items))).map Value.list = _
    rw [decode_items items h]
    rfl
  | .fluid variants, h => by
    show (decodeVariants (rereadItems w (encodeVariants variants))).map Value.fluid = _
    rw [decode_variants variants h]
    rfl
  | .unit, _ => rfl
  | .html _, _ => rfl
  | .query _, _ => rfl
  | .secret _, _ => rfl
  | .encrypted bytes, _ => by
    show (decodeBytes (rereadItems w (encodeBytes bytes))).map Value.encrypted = _
    rw [decode_bytes]
    rfl
  | .hash _, _ => rfl
  | .session data, _ => by
    show (decodeStrings (rereadFields w (encodeStrings data))).map Value.session = _
    rw [decode_strings]
    rfl
  | .httpResponse status body contentType headers, _ => by
    show (do
      let contentType ← decodeOption ((encodeOption contentType : Json F).reread w)
      let headers ← decodePairs (rereadItems w (encodePairs headers))
      some (Value.httpResponse status body contentType headers)) = _
    rw [decode_option, decode_pairs]
    rfl
  | .handle k id text, _ => decode_handle w k id text

theorem decode_items : ∀ items : List (Value F), KeptItems w items →
    decodeItems (rereadItems w (encodeItems items)) = some (maskedItems items)
  | [], _ => rfl
  | v :: vs, h => by
    show (do
      let v ← decode ((encode v).reread w)
      let vs ← decodeItems (rereadItems w (encodeItems vs))
      some (v :: vs)) = _
    rw [decode_encode v h.1, decode_items vs h.2]
    rfl

theorem decode_fields : ∀ fields : List (String × Value F), KeptFields w fields →
    decodeFields (rereadFields w (encodeFields fields)) = some (maskedFields fields)
  | [], _ => rfl
  | (k, v) :: rest, h => by
    show (do
      let v ← decode ((encode v).reread w)
      let vs ← decodeFields (rereadFields w (encodeFields rest))
      some ((k, v) :: vs)) = _
    rw [decode_encode v h.1, decode_fields rest h.2]
    rfl

theorem decode_variants : ∀ variants : List (String × Value F × F), KeptVariants w variants →
    decodeVariants (rereadItems w (encodeVariants variants)) = some (maskedVariants variants)
  | [], _ => rfl
  | (t, v, c) :: rest, h => by
    have hrest := decode_variants rest h.2.2
    have hc := reread_float h.1
    show decodeVariants (.obj [("type_name", .str t), ("value", (encode v).reread w),
      ("confidence", (Json.float c).reread w)] :: rereadItems w (encodeVariants rest)) = _
    rw [hc]
    show (do
      let v ← decode ((encode v).reread w)
      let vs ← decodeVariants (rereadItems w (encodeVariants rest))
      some ((t, v, c) :: vs)) = _
    rw [decode_encode v h.2.1, hrest]
    rfl
end

end RoundTrip

end Metalogos.Flow
