import Metalogos.Lang.Syntax
import Metalogos.Lib.Traced

/-!
# The tree-walker's effects

An evaluation of the tree-walker is an observed computation (`Metalogos.Lib.Traced`): its world is
everything builtins, patterns and the memory operations can touch, its events are the `Event`s
below. They are how a property of a run is stated ("no loop reached its iteration limit", "no
expression statement produced a response"); the evaluator itself never looks at them.
Sub-evaluations in a special position are wrapped (`pend`, `arm`, `loop`, `blk`).
-/
namespace Metalogos.Walk

open Metalogos.Lang Metalogos.Lib

/-- What can be observed of a tree-walker run. -/
inductive Event (F : Type) where
  /-- a variable was read -/
  | read (name : String) (v : Value F)
  /-- `!=` was applied -/
  | ne (l r : Value F)
  /-- an index was applied -/
  | index (base idx : Value F)
  /-- an assignment was refused: the name is not mutable here -/
  | refused (name : String)
  /-- a loop stopped at its iteration limit -/
  | limit
  /-- a loop over a list of this length started -/
  | items (n : Nat)
  /-- a `let`, an assignment or an `each` ran -/
  | store
  /-- a `match` statement evaluated its scrutinee -/
  | scrut
  /-- an expression statement: the value of the block before it, its own, whether it is last -/
  | stmt (last v : Value F) (isLast : Bool)
  /-- a statement without a value left the block's value alone -/
  | silent (last : Value F) (isLast : Bool)
  /-- an assignment or a loop reset the block's value -/
  | reset (last : Value F)
  /-- a nested block completed: the value before it and its own -/
  | taken (last v : Value F)
  /-- a `return` ran -/
  | ret (isLast : Bool)
  /-- happened while operands of an enclosing expression wait -/
  | pend (e : Event F)
  /-- happened in an arm of a block expression -/
  | arm (e : Event F)
  /-- happened in the body of a loop -/
  | loop (e : Event F)
  /-- happened in a nested block of a statement that is (not) the last of its block -/
  | blk (isLast : Bool) (e : Event F)

/-- A computation of the tree-walker. -/
abbrev TW (F W α : Type) : Type := Traced (Event F) W α

end Metalogos.Walk
