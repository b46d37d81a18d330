import Metalogos.Walk.Reach

/-!
# The variable walk

`check_stmts_vars` walks a body in the order of the text and keeps one set of bound names, which it never shrinks.
A read of a name outside the set is refused, and so is an assignment to one. The walk does not look at a read that is
spelled like a keyword, nor inside the first argument of a builtin that takes a declaration there.

An error stands at the position of its term (`Walk.sizeExpr` numbers the terms of the text).
-/
namespace Metalogos.Check

open Metalogos.Lang Metalogos.Walk

variable {F : Type}

/-! ## Errors and scopes -/

inductive SemanticErrorKind where
  | undefinedVariable
  | unknownTemplate
  | implicitOpaqueCoercion
  | opaqueConcat
  deriving DecidableEq, Repr

structure SpannedError where
  pos : Nat
  message : String
  kind : SemanticErrorKind
  deriving DecidableEq, Repr

/-- What the walk knows of the program's declarations.
mirrors src/semantic.rs:10774-10792 -/
structure Declared where
  templates : List String
  patternParamTypes : String → Option (List String)
  templateParamTypes : String → Option (List String)

/-- mirrors src/semantic.rs:10768-10792 -/
structure VarScope where
  bound : List String
  opaques : String → Option String

/-- mirrors src/ast.rs:2015-2029 -/
def isOpaqueType (typeName : String) : Bool :=
  typeName ∈ ["Html", "Query", "Secret", "Encrypted", "Hash", "Session"]

/-- mirrors src/semantic.rs:10868-10894 -/
def exprIsStringShaped : Expr F → Bool
  | .stringLit _ => true
  | .binaryOp _ .add _ => true
  | _ => false

/-- mirrors src/semantic.rs:11038-11053 -/
def isNameReferenceBuiltin (name : String) : Bool :=
  name ∈ ["render", "reflex_train", "reflex_predict", "reflex_save", "reflex_metrics", "reflex_generate",
    "attest_verify"]

/-- mirrors src/semantic.rs:11068-11090 -/
def isReservedKeyword (name : String) : Bool :=
  name ∈ ["if", "then", "else", "while", "each", "in", "match", "return", "let", "mut", "break", "continue",
    "true", "false", "and", "or", "not", "try"]

/-- `scope.bound.insert(x)` on a name that is no longer what it was. -/
def VarScope.rebind (σ : VarScope) (x : String) : VarScope :=
  ⟨x :: σ.bound, fun y => if y = x then none else σ.opaques y⟩

/-- A `let` passes the declared type of a bare name on.
mirrors src/semantic.rs:10906-10921 -/
def VarScope.bindLet (σ : VarScope) (x : String) (e : Expr F) : VarScope :=
  let inherited : Option String :=
    match e with
    | .ident y => (σ.rebind x).opaques y
    | _ => none
  ⟨x :: σ.bound, fun y => if y = x then inherited else σ.opaques y⟩

/-! ## What a call and a sum are refused for -/

/-- String-shaped arguments of parameters `flows` picks, from argument `i` on, which stands at `p`. -/
def coercions (flows : String → Bool) (message : Nat → String → String) :
    List (Expr F) → List String → Nat → Nat → List SpannedError
  | [], _, _, _ => []
  | _, [], _, _ => []
  | e :: es, ty :: tys, i, p =>
    (if flows ty && exprIsStringShaped e then [⟨p, message i ty, .implicitOpaqueCoercion⟩] else []) ++
      coercions flows message es tys (i + 1) (p + sizeExpr e)

/-- `render` of a literal name.
mirrors src/semantic.rs:11118-11197 -/
def renderErrors (d : Declared) (p : Nat) : List (Expr F) → List SpannedError
  | .stringLit wanted :: rest =>
    (if wanted ∈ d.templates then []
      else [⟨p, "render(): unknown template '" ++ wanted ++ "' — declare it with `template " ++ wanted ++
        "(...) -> Html \x7b ... \x7d`", .unknownTemplate⟩]) ++
    match d.templateParamTypes wanted with
    | none => []
    | some tys => coercions (· = "Html") (fun i _ => "implicit String→Html coercion in argument " ++ toString i ++
        " of render('" ++ wanted ++ "') — build the value with an explicit Html producer (render)") rest tys 1 (p + 2)
  | _ => []

/-- mirrors src/semantic.rs:11115-11225 -/
def callErrors (d : Declared) (p : Nat) (name : String) (args : List (Expr F)) : List SpannedError :=
  (if name = "render" then renderErrors d p args else []) ++
    match d.patternParamTypes name with
    | none => []
    | some tys => coercions isOpaqueType (fun i ty => "implicit String→" ++ ty ++ " coercion in argument " ++
        toString i ++ " of " ++ name ++ " — build the value with an explicit " ++ ty ++ " producer (render)")
        args tys 1 (p + 1)

/-- mirrors src/semantic.rs:11253-11267 -/
def concatSide (σ : VarScope) (p : Nat) : Expr F → List SpannedError
  | .ident x =>
    match σ.opaques x with
    | some ty => [⟨p, "cannot concatenate opaque type " ++ ty, .opaqueConcat⟩]
    | none => []
  | _ => []

/-- mirrors src/semantic.rs:11248-11268 -/
def concatErrors (σ : VarScope) (p : Nat) (l : Expr F) (op : BinOp) (r : Expr F) : List SpannedError :=
  if op = .add then concatSide σ (p + 1) l ++ concatSide σ (p + 1 + sizeExpr l) r else []

/-! ## The walk -/

def undefinedRead (p : Nat) (x : String) : SpannedError :=
  ⟨p, "undefined variable: " ++ x, .undefinedVariable⟩

def undefinedTarget (p : Nat) (x : String) : SpannedError :=
  ⟨p, "assignment to undefined variable: " ++ x, .undefinedVariable⟩

/-- One walk, then another where it ends. -/
def andThen (r : VarScope × List SpannedError) (next : VarScope → VarScope × List SpannedError) :
    VarScope × List SpannedError :=
  ((next r.1).1, r.2 ++ (next r.1).2)

mutual
/-- mirrors src/semantic.rs:11090-11328 -/
def checkExprVars (d : Declared) : Expr F → Nat → VarScope → VarScope × List SpannedError
  | .ident x, p, σ => (σ, if isReservedKeyword x || x ∈ σ.bound then [] else [undefinedRead p x])
  | .fieldAccess e _, p, σ => checkExprVars d e (p + 1) σ
  | .fnCall name args _, p, σ =>
    andThen (σ, callErrors d p name args) fun σ => checkArgVars d name args (p + 1) σ
  | .qualifiedCall _ _ args, p, σ => checkExprsVars d args (p + 1) σ
  | .binaryOp l op r, p, σ =>
    andThen (andThen (σ, concatErrors σ p l op r) fun σ => checkExprVars d l (p + 1) σ) fun σ =>
      checkExprVars d r (p + 1 + sizeExpr l) σ
  | .ifElse c t e, p, σ =>
    andThen (andThen (checkExprVars d c (p + 1) σ) fun σ => checkExprVars d t (p + 1 + sizeExpr c) σ) fun σ =>
      checkExprVars d e (p + 1 + sizeExpr c + sizeExpr t) σ
  | .list items, p, σ => checkExprsVars d items (p + 1) σ
  | .indexAccess b i, p, σ =>
    andThen (checkExprVars d b (p + 1) σ) fun σ => checkExprVars d i (p + 1 + sizeExpr b) σ
  | .structLit _ values, p, σ => checkExprsVars d values (p + 1) σ
  | .blockIfElse c body rest, p, σ =>
    andThen (andThen (checkExprVars d c (p + 1) σ) fun σ => checkStmtsVars d body (p + 1 + sizeExpr c) σ) fun σ =>
      checkElseVars d rest (p + 1 + sizeExpr c + sizeStmts body) σ
  | .matchExpr s arms, p, σ =>
    andThen (checkExprVars d s (p + 1) σ) fun σ => checkArmsVars d arms (p + 1 + sizeExpr s) σ
  | .try_ e, p, σ => checkExprVars d e (p + 1) σ
  | .provBind _ e, p, σ => checkExprVars d e (p + 1) σ
  | .stringLit _, _, σ => (σ, [])
  | .floatLit _, _, σ => (σ, [])
  | .boolLit _, _, σ => (σ, [])
  | .handleSource _, _, σ => (σ, [])

def checkExprsVars (d : Declared) : List (Expr F) → Nat → VarScope → VarScope × List SpannedError
  | [], _, σ => (σ, [])
  | e :: es, p, σ => andThen (checkExprVars d e p σ) fun σ => checkExprsVars d es (p + sizeExpr e) σ

/-- The arguments of a call by name, without the first one of a builtin that takes a declaration there.
mirrors src/semantic.rs:11226-11233 -/
def checkArgVars (d : Declared) (name : String) : List (Expr F) → Nat → VarScope → VarScope × List SpannedError
  | [], _, σ => (σ, [])
  | e :: es, p, σ =>
    andThen (if isNameReferenceBuiltin name then (σ, []) else checkExprVars d e p σ) fun σ =>
      checkExprsVars d es (p + sizeExpr e) σ

/-- mirrors src/semantic.rs:10902-11028 -/
def checkStmtVars (d : Declared) : Stmt F → Nat → VarScope → VarScope × List SpannedError
  | .letBinding x e _, p, σ => andThen (checkExprVars d e (p + 1) σ) fun σ => (σ.bindLet x e, [])
  | .assign x e, p, σ =>
    andThen (checkExprVars d e (p + 1) σ) fun σ => (σ, if x ∈ σ.bound then [] else [undefinedTarget p x])
  | .return_ e, p, σ => checkExprVars d e (p + 1) σ
  | .exprStmt e, p, σ => checkExprVars d e (p + 1) σ
  | .each x it body, p, σ =>
    andThen (checkExprVars d it (p + 1) σ) fun σ => checkStmtsVars d body (p + 1 + sizeExpr it) (σ.rebind x)
  | .eachWithIndex i x it body, p, σ =>
    andThen (checkExprVars d it (p + 1) σ) fun σ =>
      checkStmtsVars d body (p + 1 + sizeExpr it) ((σ.rebind i).rebind x)
  | .while_ c body, p, σ =>
    andThen (checkExprVars d c (p + 1) σ) fun σ => checkStmtsVars d body (p + 1 + sizeExpr c) σ
  | .ifThen c body, p, σ =>
    andThen (checkExprVars d c (p + 1) σ) fun σ => checkStmtsVars d body (p + 1 + sizeExpr c) σ
  | .ifElseBlock c body rest, p, σ =>
    andThen (andThen (checkExprVars d c (p + 1) σ) fun σ => checkStmtsVars d body (p + 1 + sizeExpr c) σ) fun σ =>
      checkElseVars d rest (p + 1 + sizeExpr c + sizeStmts body) σ
  | .match_ s arms, p, σ =>
    andThen (checkExprVars d s (p + 1) σ) fun σ => checkArmsVars d arms (p + 1 + sizeExpr s) σ
  | .memorize e _, p, σ => checkExprVars d e (p + 1) σ
  | .forget e _, p, σ => checkExprVars d e (p + 1) σ
  | .relate a b _, p, σ =>
    andThen (checkExprVars d a (p + 1) σ) fun σ => checkExprVars d b (p + 1 + sizeExpr a) σ
  | .break_, _, σ => (σ, [])
  | .continue_, _, σ => (σ, [])

/-- mirrors src/semantic.rs:10896-10900 -/
def checkStmtsVars (d : Declared) : List (Stmt F) → Nat → VarScope → VarScope × List SpannedError
  | [], _, σ => (σ, [])
  | s :: ss, p, σ => andThen (checkStmtVars d s p σ) fun σ => checkStmtsVars d ss (p + sizeStmt s) σ

def checkElseVars (d : Declared) : ElseChain F → Nat → VarScope → VarScope × List SpannedError
  | .none, _, σ => (σ, [])
  | .else_ body, p, σ => checkStmtsVars d body p σ
  | .elseIf c body rest, p, σ =>
    andThen (andThen (checkExprVars d c p σ) fun σ => checkStmtsVars d body (p + sizeExpr c) σ) fun σ =>
      checkElseVars d rest (p + sizeExpr c + sizeStmts body) σ

def checkArmsVars (d : Declared) : MatchArms F → Nat → VarScope → VarScope × List SpannedError
  | .none, _, σ => (σ, [])
  | .else_ body, p, σ => checkStmtsVars d body p σ
  | .lit _ body rest, p, σ =>
    andThen (checkStmtsVars d body p σ) fun σ => checkArmsVars d rest (p + sizeStmts body) σ
  | .compare _ th body rest, p, σ =>
    andThen (andThen (checkExprVars d th p σ) fun σ => checkStmtsVars d body (p + sizeExpr th) σ) fun σ =>
      checkArmsVars d rest (p + sizeExpr th + sizeStmts body) σ
end

/-- The scope a body starts in: its parameters and the entities. A route has no parameters.
mirrors src/semantic.rs:10794-10862 -/
def startScope (params : List (String × String)) (typeAlias : String → Option String) (entityNames : List String)
    (entityOpaque : String → Option String) : VarScope where
  bound := entityNames ++ params.map (·.1)
  opaques x := (entityOpaque x).orElse fun _ => params.foldl (fun acc param =>
    let resolved := (typeAlias param.2).getD param.2
    if param.1 = x && isOpaqueType resolved then some resolved else acc) none

def checkPatternVariables (d : Declared) (body : List (Stmt F)) (params : List (String × String))
    (typeAlias : String → Option String) (entityNames : List String) (entityOpaque : String → Option String) :
    List SpannedError :=
  (checkStmtsVars d body 0 (startScope params typeAlias entityNames entityOpaque)).2

end Metalogos.Check
