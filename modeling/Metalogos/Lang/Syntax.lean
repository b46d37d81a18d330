import Metalogos.Lang.Operators

/-!
# Syntax: expressions and statements of a body

The statement language of pattern, route, hook and tool bodies
(`src/ast.rs:1626-1700`, `:1735-1743`, `:1847-1951`). Spans are dropped, except the line of a
call, which the compiler records in sink checks. Two encodings differ from the source:

* `else_ifs : Vec<(Expr, Vec<Statement>)>` followed by `else_body : Option<Vec<Statement>>`
  is one chain, `ElseChain`; the arms of a `match` followed by its `else` are `MatchArms`.
* A struct literal keeps its keys and its field expressions as two lists, in the map's
  iteration order, as the compiler collects them (`src/compiler.rs:1741-1747`).
-/
namespace Metalogos.Lang

/-- The literal arm forms `"s" then`, `starts_with "s" then`, `contains "s" then`.
mirrors src/ast.rs:1737-1741 -/
inductive LitTest where
  | exact (s : String)
  | startsWith (s : String)
  | contains (s : String)
  deriving DecidableEq, Repr

mutual
/-- mirrors src/ast.rs:1847-1951 -/
inductive Expr (F : Type) where
  | stringLit (value : String)
  | floatLit (value : F)
  | boolLit (value : Bool)
  | ident (name : String)
  | fieldAccess (object : Expr F) (field : String)
  | fnCall (name : String) (args : List (Expr F)) (line : Nat)
  | qualifiedCall (ns function : String) (args : List (Expr F))
  | binaryOp (left : Expr F) (op : BinOp) (right : Expr F)
  | ifElse (condition thenBranch elseBranch : Expr F)
  | list (items : List (Expr F))
  | indexAccess (object index : Expr F)
  | structLit (keys : List String) (values : List (Expr F))
  | blockIfElse (condition : Expr F) (thenBody : List (Stmt F)) (rest : ElseChain F)
  | matchExpr (scrutinee : Expr F) (arms : MatchArms F)
  | try_ (expr : Expr F)
  | handleSource (origin : String)
  | provBind (origin : String) (inner : Expr F)

/-- mirrors src/ast.rs:1626-1700 -/
inductive Stmt (F : Type) where
  | letBinding (name : String) (value : Expr F) (isMut : Bool)
  | assign (name : String) (value : Expr F)
  | each (item : String) (iterable : Expr F) (body : List (Stmt F))
  | eachWithIndex (index item : String) (iterable : Expr F) (body : List (Stmt F))
  | while_ (condition : Expr F) (body : List (Stmt F))
  | ifElseBlock (condition : Expr F) (thenBody : List (Stmt F)) (rest : ElseChain F)
  | ifThen (condition : Expr F) (body : List (Stmt F))
  | return_ (value : Expr F)
  | exprStmt (expr : Expr F)
  | match_ (scrutinee : Expr F) (arms : MatchArms F)
  | break_
  | continue_
  | memorize (value : Expr F) (priority : F)
  | forget (query : Expr F) (days : Int)
  | relate (source target : Expr F) (relation : String)

/-- What follows the first branch of an `if`: nothing, `else { .. }`, or `else if`. -/
inductive ElseChain (F : Type) where
  | none
  | else_ (body : List (Stmt F))
  | elseIf (condition : Expr F) (body : List (Stmt F)) (rest : ElseChain F)

/-- The arms of a `match`, ending in nothing or in `else { .. }`.
mirrors src/ast.rs:1735-1743 -/
inductive MatchArms (F : Type) where
  | none
  | else_ (body : List (Stmt F))
  | lit (test : LitTest) (body : List (Stmt F)) (rest : MatchArms F)
  | compare (op : CompareOp) (threshold : Expr F) (body : List (Stmt F)) (rest : MatchArms F)
end

/-- `match` in value position; only a `let` compiles it. -/
def Expr.isMatch {F : Type} : Expr F → Bool
  | .matchExpr _ _ => true
  | _ => false

variable {F : Type} [FloatModel F]

/-- `matches_value` on a literal arm: the printed form of the scrutinee decides. Both
backends call this one predicate; comparison arms call `compareValues`.
mirrors src/ast.rs:1759-1768 and src/bytecode.rs:331-341 -/
def LitTest.matchesValue (t : LitTest) (scrutinee : Value F) : Bool :=
  match t with
  | .exact s => scrutinee.display = s
  | .startsWith s => Lang.startsWith scrutinee.display s
  | .contains s => containsStr scrutinee.display s

/-- mirrors src/semantic.rs:10628-10633 -/
def immutabilityErrorText (name : String) : String :=
  "cannot assign to immutable variable: " ++ name ++ " (use 'let mut " ++ name
    ++ "' to make it mutable)"

end Metalogos.Lang
