import Metalogos.Refine.Bodies

/-!
# The value a body falls through with

The tree-walker's value of a body is the running value of its statements: a statement without a
value (`memorize`, an `if` that took no branch, a `match` without an arm, an expression that gives
`Unit`) leaves it alone. The compiler looks at the form of the last statement only: what it pushes
is the body's value, and a form without a value pushes `Unit` (`src/compiler.rs:2279-2331`,
`:2871-3142`). The two agree when no such statement ends a body that already has a value, which is
what `Clean` asks of `stmt` and `silent` events in a precise context.
-/
namespace Metalogos.Refine

open Metalogos.Lang Metalogos.Machine Metalogos.Compile Metalogos.Walk Metalogos.Lib

variable {F W : Type} [FloatModel F]

namespace Sample

/-- A value in every tail: a `match`, an `if` with all its branches, a let-bound `match`. -/
def tailBody : List (Stmt Int) :=
  [.letBinding "k" (.matchExpr (.ident "x")
     (.compare .gt (.floatLit 3) [.exprStmt (.stringLit "big")] (.else_ [.exprStmt (.stringLit "small")])))
     false,
   .match_ (.ident "k")
    (.lit (.exact "big")
      [.ifElseBlock (.binaryOp (.ident "x") .eq (.ident "g")) [.exprStmt (.ident "k")]
        (.else_ [.memorize (.ident "k") 1])]
      (.else_ [.exprStmt (.floatLit 0)]))]

end Sample

end Metalogos.Refine
