import Metalogos.Lang.Value

/-!
# Runtime labels and the sink gate's verdict

The machine keeps a label per variable name (`label_env`): `LabelJoin` joins the label of a
source builtin into it, `SinkCheck` reads it back in front of a sink call and refuses unless the
label is public (and trusted, for the two exec sinks). The lattice is `src/labels.rs`; which
builtins are sources and sinks is the table `src/builtins_classification.rs`, a parameter here.
-/
namespace Metalogos.Machine

/-- mirrors src/labels.rs:72-84 -/
inductive Conf where
  | public_ | consented | private_ | poisoned
  deriving DecidableEq, Repr

namespace Conf

def rank : Conf → Nat
  | .public_ => 0 | .consented => 1 | .private_ => 2 | .poisoned => 3

/-- Poisoned absorbs, otherwise the stronger level wins.
mirrors src/labels.rs:89-94 -/
def join (a b : Conf) : Conf := if a.rank ≤ b.rank then b else a

def word : Conf → String
  | .public_ => "public" | .consented => "consented" | .private_ => "private"
  | .poisoned => "poisoned"

end Conf

/-- mirrors src/labels.rs:136-146 -/
inductive Integrity where
  | untrusted | trusted
  deriving DecidableEq, Repr

/-- mirrors src/labels.rs:150-152 -/
def Integrity.join : Integrity → Integrity → Integrity
  | .trusted, .trusted => .trusted
  | _, _ => .untrusted

def Integrity.word : Integrity → String
  | .untrusted => "untrusted" | .trusted => "trusted"

/-- mirrors src/labels.rs:227-231; the default is `bottom`. -/
structure Label where
  conf : Conf := .public_
  integrity : Integrity := .trusted
  consent : List String := []
  deriving DecidableEq, Repr

/-- mirrors src/labels.rs:240-246 -/
def Label.join (a b : Label) : Label where
  conf := a.conf.join b.conf
  integrity := a.integrity.join b.integrity
  consent := a.consent.filter (· ∈ b.consent)

/-- mirrors src/labels.rs:271-279 -/
def Label.display (l : Label) : String :=
  l.conf.word ++ ", " ++ l.integrity.word
    ++ (if l.consent = [] then "" else ", consent(" ++ ", ".intercalate l.consent ++ ")")

/-- The classification table: which builtins are sources (and whether their data is secret)
and which are sinks.
mirrors src/builtins_classification.rs `classify` -/
structure Classification where
  isSource : String → Bool
  isSecret : String → Bool
  isSink : String → Bool

/-- mirrors src/vm.rs:5277-5297 -/
def Classification.runtimeSourceLabel (c : Classification) (name : String) : Label :=
  if c.isSource name then
    if c.isSecret name then { conf := .private_ } else { integrity := .untrusted }
  else {}

/-- mirrors src/audit.rs:5893-5909 -/
def sinkKind (fnName : String) : String :=
  if fnName ∈ ["exec", "exec_argv"] then "exec"
  else if fnName = "git_push" then "vcs"
  else if fnName = "tts_send" then "voice"
  else if fnName ∈ ["db_execute", "db_execute_with_grant"] then "db"
  else if fnName ∈ ["print", "respond", "respond_html", "html_response"] then "output"
  else if fnName ∈ ["write_file", "append_file", "delete_file", "media_save"] then "file"
  else if fnName ∈ ["memorize", "mem_set", "mtree_store", "kv_set"] then "memory"
  else "network"

/-- mirrors src/audit.rs:5914-5985 -/
def sinkCheckId (fnName : String) (argIndex : Nat) (label : Label) : String :=
  if label.conf = .poisoned then "SINK_CLEARANCE"
  else
    let kind := sinkKind fnName
    if kind = "voice" then "VOICE_EGRESS_UNCONSENTED"
    else if kind = "exec" then
      if label.integrity = .untrusted then "UNTRUSTED_EXEC_DECISION"
      else if label.conf = .private_ then "SECRET_TO_EXEC" else "SINK_CLEARANCE"
    else if kind = "vcs" then
      if label.conf = .private_ then "SECRET_EGRESS_VCS" else "UNTRUSTED_EGRESS_NETWORK"
    else if kind = "network" then
      if argIndex = 0 ∧ fnName ∈ ["http_post", "send_message"] then "SECRET_EGRESS_NETWORK"
      else if label.integrity = .untrusted then "UNTRUSTED_EGRESS_NETWORK"
      else "PII_EGRESS_NETWORK"
    else if kind = "output" then
      if label.integrity = .untrusted then "HTML_INJECTION" else "PII_EGRESS_OUTPUT"
    else if kind = "memory" then "TAINT_PERSISTENCE"
    else if kind = "file" then
      if label.conf = .private_ then "SECRET_LEAK" else "SINK_CLEARANCE"
    else if kind = "db" ∧ label = {} then "IRREVERSIBLE_NO_GRANT"
    else "SINK_CLEARANCE"

/-- The refusal condition of a sink check.
mirrors src/vm.rs:894-897 -/
def sinkRefuses (fnName : String) (label : Label) : Bool :=
  label.conf ≠ .public_ || (fnName ∈ ["exec", "exec_argv"] && label.integrity = .untrusted)

/-- `label_env`: a name without an entry carries `bottom`. -/
abbrev LabelEnv := String → Option Label

/-- What a label is read from: a variable, or a direct source call. On the wire the second is
spelled `@name`; identifiers never start with `@`. -/
inductive LabelRef where
  | var (name : String)
  | source (name : String)
  deriving DecidableEq, Repr

def LabelRef.text : LabelRef → String
  | .var x => x
  | .source f => "@" ++ f

/-- mirrors src/vm.rs:849-853,889-893 -/
def labelOf (c : Classification) (env : LabelEnv) : LabelRef → Label
  | .var x => (env x).getD {}
  | .source f => c.runtimeSourceLabel f

/-- mirrors src/vm.rs:848-861 -/
def execLabelJoin (c : Classification) (dst : String) (src : LabelRef) (env : LabelEnv) :
    LabelEnv :=
  fun x => if x = dst then some (((env dst).getD {}).join (labelOf c env src)) else env x

end Metalogos.Machine
