import Metalogos.Machine.Bytecode

/-!
# The compiler: bodies to bytecode

The body compiler of `src/compiler.rs:1415-3618`. The source appends to one vector and patches
jump placeholders; here every function returns the fragment it appends, and `base` is the length of
the vector before it. `break` and `continue` emit the holes `Emit.brk`/`Emit.cont`, which the
enclosing loop resolves (`resolve`).

The source's statement compilers share most arms. They are one function with a mode:

* `top`: the statements of a body (`compile_pattern_body_with_locals`, `:1888-2331`);
* `plain`: nested statements (`compile_stmt_with_locals`, `:3281-3618`), in or out of a loop;
* `value`: statements inside an arm of a block expression (`compile_value_stmt`, `:2365-2578`);
* `arm`: statements directly in an arm, where a `return` is captured
  (`compile_match_expr_arm_body`, `:2590-2655`);

and with a flag `keep` for a statement whose value stays on the stack
(`compile_stmt_keeping_value`, `:3050-3142`).

Hidden slots are allocated under names with a `#`, which nothing looks up: only the slot is modelled.
-/
namespace Metalogos.Compile

open Metalogos.Lang Metalogos.Machine

/-- The compiler's name tables. `denyHandler` is `deny_handler_indices`, `parked` the refusal text
of a parked builtin.
mirrors src/compiler.rs `Compiler` -/
structure Tables where
  builtinIdx : String → Option Nat
  patternIdx : String → Option Nat
  learnableIdx : String → Option Nat
  globalSlot : String → Option Nat
  denyHandler : String → Option Nat
  isTool : String → Bool
  parked : String → Option String
  classes : Classification

/-- Compile-time state of a body. -/
structure CState where
  locals : String → Option Nat
  next : Nat
  muts : List String
  fresh : Bool

/-- One emitted instruction, or a hole the enclosing loop fills. -/
inductive Emit (F : Type) where
  | instr (i : Instr F)
  | brk
  | cont

variable {F : Type}

abbrev Frag (F : Type) := List (Emit F)

/-- Plain instructions as a fragment. -/
def code (is : List (Instr F)) : Frag F := is.map .instr

/-- Fill the holes of a loop body.
mirrors src/compiler.rs:3242-3253 and :3389-3398 -/
def Emit.resolve (brk cont : Nat) : Emit F → Instr F
  | .instr i => i
  | .brk => .jump brk
  | .cont => .jump cont

def resolve (brk cont : Nat) (frag : Frag F) : Frag F :=
  frag.map fun e => .instr (e.resolve brk cont)

/-- Which statement compiler runs. -/
inductive Mode where
  | top
  | plain (inLoop : Bool)
  | value
  | arm
  deriving DecidableEq, Repr

/-- How a block of statements is compiled. -/
inductive BodyKind where
  | top
  | plain (inLoop : Bool)
  | keep
  | value
  | arm
  deriving DecidableEq, Repr

/-- In an arm: the value travels in the register. -/
def Mode.isValue : Mode → Bool
  | .value | .arm => true
  | _ => false

/-- The blocks nested in a statement of this mode. -/
def Mode.nested : Mode → BodyKind
  | .top => .plain false
  | .plain l => .plain l
  | .value | .arm => .value

/-- The mode of the statements of those blocks. -/
def Mode.inner : Mode → Mode
  | .top => .plain false
  | .plain l => .plain l
  | .value | .arm => .value

def BodyKind.mode : BodyKind → Mode
  | .top => .top
  | .plain l => .plain l
  | .keep => .plain false
  | .value => .value
  | .arm => .arm

/-- The last statement's value stays on the stack. -/
def BodyKind.keeps : BodyKind → Bool
  | .top | .keep => true
  | _ => false

namespace CState

def setLocal (cs : CState) (x : String) (slot : Nat) : CState :=
  { cs with locals := fun y => if y = x then some slot else cs.locals y }

/-- A fresh slot for a name. -/
def bindFresh (cs : CState) (x : String) : CState :=
  { cs.setLocal x cs.next with next := cs.next + 1 }

def addMut (cs : CState) (isMut : Bool) (x : String) : CState :=
  if isMut then { cs with muts := x :: cs.muts } else cs

/-- Put a name back to what it was in `old`. -/
def restore (cs old : CState) (x : String) : CState :=
  { cs with locals := fun y => if y = x then old.locals x else cs.locals y }

/-- The slot a `let` stores to and the state its initializer is compiled in: an existing slot
is reused, except for an arm's lets (`reuse = false`).
mirrors src/compiler.rs:1961-1981, :3328-3351, :2526-2536, :2683-2691 -/
def letSlot (cs : CState) (reuse : Bool) (x : String) : Nat × CState :=
  match (if reuse then cs.locals x else none) with
  | some slot => (slot, cs)
  | none => (cs.next, cs.bindFresh x)

end CState

/-- An arm compiles its lets to fresh slots. -/
def BodyKind.enter (k : BodyKind) (cs : CState) : CState :=
  if k = .arm then { cs with fresh := true } else cs

/-- After an arm the names are what they were before it; the slot counter goes on.
mirrors src/compiler.rs:2606-2608,2651-2654 -/
def BodyKind.leave (k : BodyKind) (old : CState) (r : Frag F × CState) : Frag F × CState :=
  if k = .arm then
    (r.1, { r.2 with locals := old.locals, muts := old.muts, fresh := old.fresh })
  else r

/-- A call resolved at compile time.
mirrors src/compiler.rs:1453-1485 -/
def compileCall (t : Tables) (name : String) (arity : Nat) : Except String (Instr F) :=
  match t.builtinIdx name with
  | some i => .ok (.callBuiltin i arity)
  | none =>
    match t.patternIdx name with
    | some i => .ok (.callPattern i arity)
    | none =>
      match t.learnableIdx name with
      | some i => .ok (.llmCall i arity)
      | none =>
        match t.parked name with
        | some msg => .error (codedError "BUILTIN_PARKED" msg)
        | none => .error (codedError "UNDEFINED_FUNCTION" ("compile: undefined function: " ++ name))

/-- mirrors src/compiler.rs:1647-1734 -/
def compileQualified (t : Tables) (ns fn : String) (arity : Nat) : Except String (Instr F) :=
  let qualified := ns ++ "." ++ fn
  match t.builtinIdx qualified with
  | some i => .ok (.callBuiltin i arity)
  | none =>
    if t.isTool ns then
      match t.builtinIdx fn with
      | some i => .ok (.callBuiltin i arity)
      | none =>
        match t.patternIdx qualified with
        | some i => .ok (.callPattern i arity)
        | none => .error ("compile: undefined method '" ++ fn ++ "' in tool '" ++ ns ++ "'")
    else
      match t.patternIdx fn with
      | some i => .ok (.callPattern i arity)
      | none =>
        match t.builtinIdx fn with
        | some i => .ok (.callBuiltin i arity)
        | none => .error ("compile: qualified call '" ++ ns ++ "." ++ fn ++ "()' — not found")

/-- mirrors src/compiler.rs:1435-1444 -/
def compileIdent (t : Tables) (cs : CState) (x : String) : Instr F :=
  match cs.locals x with
  | some slot => .loadLocal slot
  | none =>
    match t.globalSlot x with
    | some slot => .loadGlobal slot
    | none => .loadGlobalByName x

/-- The strict binary operators. `and`/`or` never reach it.
mirrors src/compiler.rs:1584-1599 -/
def compileOp : BinOp → Instr F
  | .add => .arith .add
  | .sub => .arith .sub
  | .mul => .arith .mul
  | .div => .arith .div
  | .gt => .cmp .gt
  | .lt => .cmp .lt
  | .ge => .cmp .ge
  | .le => .cmp .le
  | .eq => .cmp .eq
  | .ne => .cmp .ne
  | .and => .cmp .eq
  | .or => .cmp .eq

/-- A statement after which a path owes no value.
mirrors src/compiler.rs:2994-2999 -/
def stmtIsTerminator : Stmt F → Bool
  | .return_ _ | .break_ | .continue_ => true
  | _ => false

/-- `LabelJoin` for a `let` whose initializer is a direct source call.
mirrors src/compiler.rs:1952-1959, :3353-3362 -/
def labelJoin (t : Tables) (x : String) : Expr F → List (Instr F)
  | .fnCall src _ _ => if t.classes.isSource src then [.labelJoin x (.source src)] else []
  | _ => []

/-- What an argument's label is read from, if it is trackable.
mirrors src/compiler.rs:209-237 -/
def trackable (t : Tables) : Expr F → Option LabelRef
  | .ident x => some (.var x)
  | .fnCall f _ _ => if t.classes.isSource f then some (.source f) else none
  | _ => none

/-- mirrors src/compiler.rs:200-263 -/
def emitSinkChecks (t : Tables) (cs : CState) (fn : String) (line skipTo : Nat) :
    Nat → List (Expr F) → List (Instr F)
  | _, [] => []
  | i, a :: as =>
    (match trackable t a with
      | none => []
      | some arg => [.sinkCheck {
          fnName := fn, arg := arg, line := max line 1, argIndex := i,
          deny := (t.denyHandler (sinkKind fn)).map fun h => (h, skipTo),
          slot := match a with
            | .ident x => cs.locals x
            | _ => none }]) ++ emitSinkChecks t cs fn line skipTo (i + 1) as

/-- The checks in front of a direct sink call, armed with the deny path that skips to `skipTo`.
mirrors src/compiler.rs:307-337 -/
def armedSinkChecks (t : Tables) (cs : CState) (skipTo : Nat) : Expr F → List (Instr F)
  | .fnCall fn args line =>
    if t.classes.isSink fn then emitSinkChecks t cs fn line skipTo 0 args else []
  | _ => []

end Metalogos.Compile
