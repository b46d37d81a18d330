import Metalogos.Machine.Runs
import Metalogos.Compile.Body
import Metalogos.Walk.Eval
import Metalogos.Lib.Simulates

/-!
# Two backends, one meaning of the callees

A `Setup` holds both backends for one program: the tree-walker, the compiler's tables, the
machine's tables, and the one interpretation of callees both call (`interpCalls` on the machine
side; `TryEval` and sink checks are the machine's own).

`Linked` says the tables describe one program: the compiler's indices name the callee the
tree-walker would call, globals agree by name, and the memory operations are the same.

`Fixed` is the part of a machine no instruction of a body changes: the stack below the frame, the
call stack, the globals, the depth. `Fixed.mach` is a machine with that part and a given frame.
-/
namespace Metalogos.Refine

open Metalogos.Lang Metalogos.Machine Metalogos.Compile Metalogos.Walk Metalogos.Lib

variable {F W : Type}

/-- What a body's instructions leave alone. -/
structure Fixed (F : Type) where
  low : List (Value F)
  callStack : List Frame
  globals : List (Value F)
  depth : Nat
  denyEvent : Option (Value F)
  bp_eq : (callStack.getLast?.map (·.baseBp)).getD 0 = low.length

namespace Fixed

variable (X : Fixed F)

/-- A machine with the fixed part `X`: `frame` are the stack cells from the base pointer up. -/
def mach (frame : List (Value F)) (regs : List (Value F)) (le : LabelEnv) (w : W) : Mach F W where
  stack := X.low ++ frame
  callStack := X.callStack
  vm := { registers := regs, labelEnv := le, globals := X.globals, callDepth := X.depth,
          denyEvent := X.denyEvent, world := w }

variable {X} {frame regs : List (Value F)} {le : LabelEnv} {w : W} {v : Value F}

@[simp] theorem mach_stack : (X.mach frame regs le w : Mach F W).stack = X.low ++ frame := rfl
@[simp] theorem mach_callStack : (X.mach frame regs le w : Mach F W).callStack = X.callStack := rfl
@[simp] theorem mach_regs : (X.mach frame regs le w : Mach F W).vm.registers = regs := rfl
@[simp] theorem mach_labelEnv : (X.mach frame regs le w : Mach F W).vm.labelEnv = le := rfl
@[simp] theorem mach_globals : (X.mach frame regs le w : Mach F W).vm.globals = X.globals := rfl
@[simp] theorem mach_world : (X.mach frame regs le w : Mach F W).vm.world = w := rfl
@[simp] theorem mach_callDepth : (X.mach frame regs le w : Mach F W).vm.callDepth = X.depth := rfl
@[simp] theorem mach_bp : (X.mach frame regs le w : Mach F W).bp = X.low.length := X.bp_eq

@[simp] theorem mach_push :
    (X.mach frame regs le w : Mach F W).push v = X.mach (frame ++ [v]) regs le w := by
  simp [mach, Mach.push]

@[simp] theorem mach_withRegs {regs' : List (Value F)} :
    (X.mach frame regs le w : Mach F W).withRegs regs' = X.mach frame regs' le w := rfl

@[simp] theorem mach_withWorld {w' : W} :
    (X.mach frame regs le w : Mach F W).withWorld w' = X.mach frame regs le w' := rfl

@[simp] theorem mach_withStack {frame' : List (Value F)} :
    (X.mach frame regs le w : Mach F W).withStack (X.low ++ frame') = X.mach frame' regs le w := rfl

end Fixed

/-- Both backends of one program. `callLabels` is what a callee's own code joins into the machine's
label environment. -/
structure Setup (F W : Type) where
  walk : Interpreter F W
  tables : Tables
  names : Names
  program : Program F
  host : Host F W
  learnables : List String
  callLabels : Callee → List (Value F) → W → LabelEnv → LabelEnv
  maxDepth : Nat

variable [FloatModel F]

namespace Setup

variable (S : Setup F W)

/-- The machine after a callee ran. -/
def after (c : Callee) (args : List (Value F)) (w : W) (m : Mach F W) : Mach F W :=
  { m with vm := { m.vm with
    world := w, labelEnv := S.callLabels c args m.vm.world m.vm.labelEnv } }

/-- A call of a builtin or a learnable: the operands are popped already. -/
def interpCall (c : Callee) (args : List (Value F)) (nextIp : Nat) (m : Mach F W) : StepOut F W :=
  match S.walk.call c args m.vm.world with
  | (.ok v, w) => .next nextIp ((S.after c args w m).push v)
  | (.error e, w) => .err e (S.after c args w m)

/-- A pattern call: the arity check, the frame, the result. A failed call leaves its frame, as the
machine's `CallPattern` does.
mirrors src/vm.rs:2215-2253 -/
def interpPattern (idx arity nextIp : Nat) (m : Mach F W) : StepOut F W :=
  match S.program.patterns[idx]? with
  | none => .err ("VM: pattern index " ++ toString idx ++ " not found") m
  | some p =>
    if arity ≠ p.paramCount then .err (patternArityErr p.name p.paramCount arity) m
    else
      popArgs ("CallPattern '" ++ p.name ++ "' (argument)") arity m fun args m' =>
        match S.walk.call (.pattern p.name) args m'.vm.world with
        | (.ok v, w) => .next nextIp ((S.after (.pattern p.name) args w m').push v)
        | (.error e, w) => .err e (S.after (.pattern p.name) args w { m' with
            stack := m'.stack ++ args,
            callStack := m'.callStack ++ [⟨nextIp, m'.stack.length⟩] })

def interpCalls (run : List (Instr F) → Mach F W → Res F W) : Calls F W where
  builtin name := S.interpCall (.builtin name)
  pattern := S.interpPattern
  llm idx := S.interpCall (.learnable (S.learnables[idx]?.getD "unknown"))
  tryEval := runTry run
  sinkCheck := execSinkCheck S.names S.program S.host run

/-- `execute_code` with interpreted callees. -/
def executeCode (lim d : Nat) (code : List (Instr F)) (m : Mach F W) : Res F W :=
  Machine.executeCode S.names S.host.toHostOps S.interpCalls ⟨S.maxDepth, lim⟩ d code m

/-- The machine that runs `code` at depth `d`; its budget is the instruction factor. -/
def machine (d : Nat) (code : List (Instr F)) : Budgeted (Cfg F W) (Res F W) where
  next := bodyNext S.names S.host.toHostOps S.interpCalls S.maxDepth d code
  fin := bodyFin S.names S.host.toHostOps S.interpCalls S.maxDepth d code

end Setup

/-- The tables of a setup describe one program; `G` are the machine's globals. -/
structure Linked (S : Setup F W) (G : List (Value F)) : Prop where
  builtin {f : String} {i : Nat} : S.tables.builtinIdx f = some i → S.names.builtinNames[i]? = some f
  pattern {f : String} {i : Nat} : S.tables.patternIdx f = some i →
    ∃ p, S.program.patterns[i]? = some p ∧ p.name = f ∧ p.paramCount = S.walk.arity f
  learnable {f : String} {i : Nat} : S.tables.learnableIdx f = some i → S.learnables[i]? = some f
  globalSlot {x : String} {i : Nat} : S.tables.globalSlot x = some i →
    ∃ v, G[i]? = some v ∧ S.walk.globals x = some v
  globalByName {x : String} : S.tables.globalSlot x = none →
    lookupGlobalByName S.names G x = match S.walk.globals x with
      | some v => .ok v
      | none => .error (codedError "UNDEFINED_VARIABLE" ("undefined variable: " ++ x))
  memorize : S.host.memorize = S.walk.memorize
  forget : S.host.forget = S.walk.forget
  relate : S.host.relate = S.walk.relate
  classes : S.names.classes = S.tables.classes

end Metalogos.Refine
