import Mathlib.Data.List.Basic
import Mathlib.Algebra.Group.Int.Defs
import Mathlib.Algebra.Group.Nat.Defs

/-!
# Runtime values

A metalogos program runs on two backends: the tree-walking interpreter
(`src/interpreter/`) and the bytecode machine (`src/vm.rs`). They share the value type
(`src/interpreter/values.rs:49-199`), its accessors and the shape of a `try` result;
the operators, which are written once per backend, are in `Metalogos.Lang.Operators`.

Floats are a parameter: `FloatModel F` lists the `f64` operations the modelled code
uses together with the facts about integers below `2^53` that the loop counters rely on.
Error texts are the source's, because parity of error messages is a property of the code.
-/
namespace Metalogos.Lang

/-- The `f64` operations of the modelled code, with the exactness of integers up to
`2^53` (IEEE-754 binary64) as fields. `toIsize` is Rust's saturating `as isize`,
`parse` is `str::parse::<f64>`, `print` is `Display`. -/
class FloatModel (F : Type) where
  add : F → F → F
  sub : F → F → F
  mul : F → F → F
  div : F → F → F
  feq : F → F → Bool
  flt : F → F → Bool
  fle : F → F → Bool
  ofNat : Nat → F
  toIsize : F → Int
  parse : String → Option F
  print : F → String
  add_one {n : Nat} : n < 2 ^ 53 → add (ofNat n) (ofNat 1) = ofNat (n + 1)
  flt_ofNat {m n : Nat} : m ≤ 2 ^ 53 → n ≤ 2 ^ 53 → flt (ofNat m) (ofNat n) = decide (m < n)
  toIsize_ofNat {n : Nat} : n ≤ 2 ^ 53 → toIsize (ofNat n) = n

namespace FloatModel

/-- The literal `0.0`. -/
def zero (F : Type) [FloatModel F] : F := ofNat 0

/-- The literal `1.0`. -/
def one (F : Type) [FloatModel F] : F := ofNat 1

end FloatModel

/-- Integer-valued floats, on which `f64` and `Int` agree while nothing rounds: what concrete runs
are evaluated over. -/
instance : FloatModel Int where
  add := (· + ·)
  sub := (· - ·)
  mul := (· * ·)
  div := (· / ·)
  feq a b := decide (a = b)
  flt a b := decide (a < b)
  fle a b := decide (a ≤ b)
  ofNat n := n
  toIsize := id
  parse := String.toInt?
  print := toString
  add_one _ := by simp
  flt_ofNat _ _ := by simp
  toIsize_ofNat _ := rfl

/-- Opaque handles: the value holds an index or a printable projection, never the artifact.
mirrors src/interpreter/values.rs:92-198 -/
inductive HandleKind where
  | subgraph | reflex | bpeVocab | vision | voice | audio | video | llmStream
  | media (typeName : String)
  | grant | likenessChallenge | likeness | memory | duplex | device | worldState | actionChunk
  | pose | trajectory | goalPredicate | proof | seriesHandle | forecastHandle
  deriving DecidableEq, Repr

/-- mirrors src/interpreter/values.rs:49-199; maps are association lists in iteration order. -/
inductive Value (F : Type) where
  | string (s : String)
  | float (f : F)
  | bool (b : Bool)
  | struct (typeName : String) (fields : List (String × Value F))
  | list (items : List (Value F))
  | fluid (variants : List (String × Value F × F))
  | unit
  | html (s : String)
  | query (s : String)
  | secret (s : String)
  | encrypted (bytes : List UInt8)
  | hash (s : String)
  | session (data : List (String × String))
  | httpResponse (status : Nat) (body : String) (contentType : Option String)
      (headers : List (String × String))
  | handle (kind : HandleKind) (id : Nat) (text : String)

variable {F : Type}

/-- mirrors src/interpreter/values.rs:336-380 -/
def HandleKind.typeName : HandleKind → String
  | .subgraph => "Subgraph"
  | .reflex => "Reflex"
  | .bpeVocab => "BpeVocab"
  | .vision => "vision"
  | .voice => "Voice"
  | .audio => "Audio"
  | .video => "Video"
  | .llmStream => "LlmStream"
  | .media t => t
  | .grant => "Grant"
  | .likenessChallenge => "LikenessChallenge"
  | .likeness => "LikenessToken"
  | .memory => "Memory"
  | .duplex => "Duplex"
  | .device => "Device"
  | .worldState => "WorldState"
  | .actionChunk => "ActionChunk"
  | .pose => "Pose"
  | .trajectory => "Trajectory"
  | .goalPredicate => "GoalPredicate"
  | .proof => "Proof"
  | .seriesHandle => "Series"
  | .forecastHandle => "Forecast"

namespace Value

/-- mirrors src/interpreter/values.rs:333-383 -/
def typeName : Value F → String
  | .string _ => "String"
  | .float _ => "Float"
  | .bool _ => "Bool"
  | .list _ => "List"
  | .struct _ _ => "Struct"
  | .fluid _ => "Fluid"
  | .unit => "Unit"
  | .html _ => "Html"
  | .query _ => "Query"
  | .secret _ => "Secret"
  | .encrypted _ => "Encrypted"
  | .hash _ => "Hash"
  | .session _ => "Session"
  | .httpResponse .. => "HttpResponse"
  | .handle k _ _ => k.typeName

/-- `matches!(v, Value::Unit)`. -/
def isUnit : Value F → Bool
  | .unit => true
  | _ => false

/-- `matches!(v, Value::HttpResponse { .. })`. -/
def isHttpResponse : Value F → Bool
  | .httpResponse .. => true
  | _ => false

@[simp] theorem isUnit_iff {v : Value F} : v.isUnit = true ↔ v = .unit := by
  cases v <;> simp [isUnit]

@[simp] theorem isUnit_unit : (Value.unit : Value F).isUnit = true := rfl

end Value

/-- `coded_error`: the `[CODE] ` stamp in front of the message.
mirrors src/interpreter/values.rs:869-871 -/
def codedError (code msg : String) : String := "[" ++ code ++ "] " ++ msg

/-- mirrors src/interpreter/values.rs:768-855 -/
def originStampedCodes : List String :=
  ["LLM_TIMEOUT", "LLM_PROVIDER_UNAVAILABLE", "SQL_ERROR", "SANDBOX_VIOLATION",
   "PRECISION_LOSS", "NOT_IMPLEMENTED", "BUILTIN_PARKED", "SINK_CLEARANCE_RUNTIME",
   "MEDIA_SEALED_EGRESS", "BACKEND_DEGRADED", "CRON_JOB_FAILED", "AUDIO_CONSENT_REQUIRED",
   "SESSION_UNKNOWN", "SESSION_CONTRACT", "MCP_SPAWN_FAILED", "MCP_TIMEOUT", "MCP_IO_ERROR",
   "MCP_TOOL_ERROR", "MCP_TOOL_NOT_FOUND", "EMBODIED_BACKEND_UNKNOWN",
   "EMBODIED_CLASS_MISMATCH", "EMBODIED_UNBOUNDED", "EMBODIED_HANDLE_UNKNOWN",
   "EMBODIED_PROOF_INVALID", "WORLD_STATE_PRIVATE", "FORECAST_TAINTED",
   "FORECAST_HANDLE_UNKNOWN", "MEMORY_RECALL_CONSENT_REQUIRED",
   "MEMORY_FORGET_CONSENT_REQUIRED", "MEMORY_POISONED", "SANDBOX_SENSITIVE_PATH",
   "MCP_PROTOCOL_ERROR", "MCP_NOT_ALLOWLISTED", "SPECTRAL_INPUT", "HTTP_TIMEOUT",
   "HTTP_CONNECT", "HTTP_STATUS", "HTTP_TIMEOUT_RANGE", "HTTP_HOST_NOT_ALLOWED",
   "HTTP_ROBOTS_DENIED", "HTTP_HEADER_NOT_ALLOWED", "HTTP_HEADER_INJECTION", "DATE_INVALID",
   "NORMAL_SAMPLE_STDDEV"]

/-- `str::starts_with`, on the character lists. -/
def startsWith (s p : String) : Bool := p.toList.isPrefixOf s.toList

/-- `str::contains`: some suffix starts with the needle. -/
def containsStr (s sub : String) : Bool := s.toList.tails.any (sub.toList.isPrefixOf ·)

/-- The code a caught error is filed under: its origin stamp, at position 0 only.
mirrors src/interpreter/values.rs:879-907 -/
def stableTryErrorCode (err : String) : String :=
  (originStampedCodes.find? fun c => startsWith err ("[" ++ c ++ "] ")).getD "RUNTIME_ERROR"

/-- The structured result of `try`, built by one function for both backends.
mirrors src/interpreter/values.rs:475-500 -/
def tryResultStruct (ok : Bool) (value : Value F) (error : Option (String × String)) : Value F :=
  .struct "TryResult" [("ok", .bool ok), ("value", value),
    ("error", match error with
      | none => .unit
      | some (code, message) =>
        .struct "TryError" [("code", .string code), ("message", .string message)])]

/-- What `try` makes of an evaluation: the two arms of `Expr::Try` and of `TryEval`. -/
def tryResult : Except String (Value F) → Value F
  | .ok v => tryResultStruct true v none
  | .error e => tryResultStruct false .unit (some (stableTryErrorCode e, e))

/-- mirrors src/ast.rs:1958-1972 -/
inductive BinOp where
  | add | sub | mul | div | gt | lt | ge | le | eq | ne | and | or
  deriving DecidableEq, Repr

/-- The `{:?}` spelling of an operator in a type-mismatch text. -/
def BinOp.debug : BinOp → String
  | .add => "Add" | .sub => "Sub" | .mul => "Mul" | .div => "Div"
  | .gt => "Gt" | .lt => "Lt" | .ge => "Ge" | .le => "Le"
  | .eq => "Eq" | .ne => "Ne" | .and => "And" | .or => "Or"

/-- mirrors src/ast.rs `CompareOp` -/
inductive CompareOp where
  | gt | lt | ge | le | eq | ne
  deriving DecidableEq, Repr

end Metalogos.Lang
