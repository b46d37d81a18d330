import Metalogos.Lib.ByteCut
import Metalogos.Template.Escapes

/-!
# The template engine

`src/builtins/template.rs`: `template_render` parses the tokens of a template into a tree of texts, variables, `if` and
`each` blocks, and renders the tree on a value. The parser walks the tokens with a stop tag; it is a function of a
budget, which the number of the tokens is enough for. A vector of nodes is one inductive type here: a node and the
nodes behind it.
-/
namespace Metalogos.Template

open Metalogos.Lib Metalogos.Lang
open Metalogos.Parser (Text lbrace rbrace)

/-! ## The tree -/

/-- mirrors src/builtins/template.rs:53-62 -/
inductive Cond where
  | truthy (path : Text)
  | eq (path lit : Text)
  | ne (path lit : Text)
  deriving DecidableEq, Repr

/-- mirrors src/builtins/template.rs:33-50; each constructor has the nodes that stand behind the node. -/
inductive Nodes where
  | nil
  | text (s : Text) (rest : Nodes)
  | var (path : Text) (raw : Bool) (rest : Nodes)
  | cond (c : Cond) (thn els rest : Nodes)
  | each (listPath : Text) (body rest : Nodes)
  deriving DecidableEq, Repr

/-- Why a template is refused; an opener is the text behind `#if` or `#each`. -/
inductive ParseError where
  | budget
  | literal (s : Text)
  | unmatched (opener : Text) (afterElse : Bool)
  | expected (close opener : Text) (found : Token)
  | unexpected (content : Text)
  | filterPipe (content : Text)
  | unmatchedBlock (close : Text)
  deriving DecidableEq

/-! ## The parser -/

/-- The text around the first place where two characters stand next to each other. -/
def cutPair (x y : Char) : Text → Option (Text × Text)
  | [] => none
  | c :: t =>
    if c = x ∧ t.head? = some y then some ([], t.drop 1) else (cutPair x y t).map fun ab => (c :: ab.1, ab.2)

/-- mirrors src/builtins/template.rs:265-281 -/
def unescapeLiteral : Text → Text
  | [] => []
  | c :: t =>
    if c = '\\' then
      match t with
      | [] => ['\\']
      | d :: t =>
        (if d = '"' then ['"'] else if d = '\\' then ['\\'] else if d = 'n' then ['\n'] else if d = 't' then ['\t']
          else ['\\', d]) ++ unescapeLiteral t
    else c :: unescapeLiteral t

/-- mirrors src/builtins/template.rs:253-282 -/
def parseStringLiteral (s : Text) : Except ParseError Text :=
  let s := trim s
  if byteLen s < 2 ∨ s.head? ≠ some '"' ∨ s.getLast? ≠ some '"' then .error (.literal s)
  else .ok (unescapeLiteral (s.drop 1).dropLast)

/-- mirrors src/builtins/template.rs:229-250 -/
def parseCond (src : Text) : Except ParseError Cond :=
  let s := trim src
  match cutPair '=' '=' s with
  | some (lhs, rhs) =>
    match parseStringLiteral (trim rhs) with
    | .error e => .error e
    | .ok lit => .ok (.eq (trim lhs) lit)
  | none =>
    match cutPair '!' '=' s with
    | some (lhs, rhs) =>
      match parseStringLiteral (trim rhs) with
      | .error e => .error e
      | .ok lit => .ok (.ne (trim lhs) lit)
    | none => .ok (.truthy s)

def stripPrefix (pre content : Text) : Option Text :=
  if pre.isPrefixOf content then some (content.drop pre.length) else none

def endIf : Text := "/if".toList

def endEach : Text := "/each".toList

def elseTag : Text := "else".toList

/-- The tag that a sequence of nodes ends at. -/
def stops (closeWith : Option Text) (content : Text) : Bool :=
  match closeWith with
  | some cw => decide (content = cw) || decide (cw = endIf ∧ content = elseTag)
  | none => false

/-- The close tag of a block. -/
def takeClose (close opener : Text) (afterElse : Bool) : List Token → Except ParseError (List Token)
  | [] => .error (.unmatched opener afterElse)
  | .tag content raw :: toks => if content = close then .ok toks else .error (.expected close opener (.tag content raw))
  | .text s :: _ => .error (.expected close opener (.text s))

/-- An `else` right here. -/
def takeElse : List Token → Option (List Token)
  | .tag content _ :: toks => if content = elseTag then some toks else none
  | _ => none

/-- mirrors src/builtins/template.rs:80-226 -/
def parseNodes : Nat → Option Text → List Token → Except ParseError (Nodes × List Token)
  | 0, _, _ => .error .budget
  | _ + 1, closeWith, [] =>
    match closeWith with
    | some cw => .error (.unmatchedBlock cw)
    | none => .ok (.nil, [])
  | fuel + 1, closeWith, .text s :: toks => do
    let (nodes, rest) ← parseNodes fuel closeWith toks
    .ok (.text s nodes, rest)
  | fuel + 1, closeWith, .tag content raw :: toks =>
    if stops closeWith content then .ok (.nil, .tag content raw :: toks)
    else
      match stripPrefix "#if ".toList content with
      | some opener => do
        let c ← parseCond (trim opener)
        let (thn, toks) ← parseNodes fuel (some endIf) toks
        let (els, behind) ← (takeElse toks).elim (.ok (.nil, toks)) (parseNodes fuel (some endIf))
        let toks ← takeClose endIf (trim opener) (takeElse toks).isSome behind
        let (nodes, rest) ← parseNodes fuel closeWith toks
        .ok (.cond c thn els nodes, rest)
      | none =>
        match stripPrefix "#each ".toList content with
        | some opener => do
          let (body, toks) ← parseNodes fuel (some endEach) toks
          let toks ← takeClose endEach (trim opener) false toks
          let (nodes, rest) ← parseNodes fuel closeWith toks
          .ok (.each (trim opener) body nodes, rest)
        | none =>
          if content = endIf ∨ content = endEach ∨ content = elseTag then .error (.unexpected content)
          else if '|' ∈ content then .error (.filterPipe content)
          else do
            let (nodes, rest) ← parseNodes fuel closeWith toks
            .ok (.var content raw nodes, rest)

/-- `none` is a panic of the tokenizer.
mirrors src/builtins/template.rs:73-78 -/
def parseTemplate (src : Text) : Option (Except ParseError Nodes) :=
  (tokenize src).map fun toks => (parseNodes (toks.length + 1) none toks).map Prod.fst

/-! ## The renderer -/

variable {F : Type} [FloatModel F]

def structFields : Value F → Option (List (String × Value F))
  | .struct _ fields => some fields
  | _ => none

/-- mirrors src/builtins/template.rs:284-326 -/
def resolvePath (data : Value F) (path : Text) : Option (Value F) :=
  let path := trim path
  if path = [] then none
  else if path = "this".toList then some data
  else
    match stripPrefix "this.".toList path with
    | some tail =>
      if trim tail = [] then none else (structFields data).bind (·.lookup (String.ofList (trim tail)))
    | none =>
      if '.' ∈ path then
        (structFields data).bind fun fields =>
          (fields.lookup (String.ofList (path.takeWhile (· ≠ '.')))).bind fun inner =>
            (structFields inner).bind (·.lookup (String.ofList ((path.dropWhile (· ≠ '.')).drop 1)))
      else (structFields data).bind (·.lookup (String.ofList path))

mutual
/-- mirrors src/builtins/template.rs:330-422 -/
def valueToString : Value F → String
  | .string s => s
  | .float f => FloatModel.print f
  | .bool b => toString b
  | .unit => ""
  | .list items => ", ".intercalate (itemStrings items)
  | .struct t fields =>
    t ++ " \x7b " ++ ", ".intercalate ((fieldStrings fields).map fun kv => kv.1 ++ ": " ++ kv.2) ++ " \x7d"
  | .html _ => "[Html]"
  | .query _ => "[Query]"
  | .secret _ => "[Secret]"
  | .encrypted _ => "[Encrypted]"
  | .hash _ => "[Hash]"
  | .session _ => "[Session]"
  | .httpResponse status .. => "[HttpResponse " ++ toString status ++ "]"
  | .fluid variants => ((bestVariant (variantStrings variants)).map (·.1)).getD "()"
  | .handle k id text => k.display id text

def itemStrings : List (Value F) → List String
  | [] => []
  | v :: vs => valueToString v :: itemStrings vs

def fieldStrings : List (String × Value F) → List (String × String)
  | [] => []
  | (k, v) :: rest => (k, valueToString v) :: fieldStrings rest

def variantStrings : List (String × Value F × F) → List (String × F)
  | [] => []
  | (_, v, c) :: rest => (valueToString v, c) :: variantStrings rest
end

/-- mirrors src/builtins/template.rs:433-455 -/
def evalCond (data : Value F) : Cond → Bool
  | .truthy path =>
    match resolvePath data path with
    | some v => match v.asBool with
      | .ok b => b
      | .error _ => false
    | none => false
  | .eq path lit =>
    match resolvePath data path with
    | some v => decide ((valueToString v).toList = lit)
    | none => lit.isEmpty
  | .ne path lit =>
    match resolvePath data path with
    | some v => decide ((valueToString v).toList ≠ lit)
    | none => !lit.isEmpty

/-- What a text and the value of a variable are written as. -/
structure Writer (α : Type) where
  text : Text → List α
  raw : Text → List α
  escaped : Text → List α

/-- The nodes on a value, in a writer's characters. -/
def renderWith {α : Type} (w : Writer α) : Nodes → Value F → Except String (List α)
  | .nil, _ => .ok []
  | .text s rest, data => (renderWith w rest data).map (w.text s ++ ·)
  | .var path raw rest, data =>
    let written := ((resolvePath data path).map fun v =>
      let s := (valueToString v).toList
      if raw then w.raw s else w.escaped s).getD []
    (renderWith w rest data).map (written ++ ·)
  | .cond c thn els rest, data => do
    let block ← (if evalCond data c then renderWith w thn data else renderWith w els data)
    (renderWith w rest data).map (block ++ ·)
  | .each listPath body rest, data => do
    let blocks ← (match resolvePath data listPath with
      | some (.list items) => items.mapM (renderWith w body)
      | some other => .error ("template_render: \x7b#each " ++ String.ofList listPath ++ "\x7d expected List, got " ++
          other.typeName)
      | none => .error ("template_render: \x7b#each " ++ String.ofList listPath ++ "\x7d — path not found in data"))
    (renderWith w rest data).map (blocks.flatten ++ ·)

/-- mirrors src/builtins/template.rs:457-510 -/
def renderNodes (nodes : Nodes) (data : Value F) : Except String Text :=
  renderWith ⟨id, id, escapeHtmlChars⟩ nodes data

end Metalogos.Template
