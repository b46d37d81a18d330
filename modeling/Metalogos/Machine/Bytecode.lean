import Metalogos.Lang.Syntax
import Metalogos.Machine.Labels

/-!
# Bytecode: instructions, machine state, one step

The instruction set of `src/bytecode.rs` as the body executor `execute_code_inner`
(`src/vm.rs:2064-2762`) runs it. Locals have no storage of their own: `LoadLocal(s)` and
`StoreLocal(s)` address the operand stack at `base_bp + s`.

`step` is one iteration of the dispatch loop. The four instructions that re-enter the machine or
leave it (builtin, pattern and LLM calls, `TryEval`, the deny path of a sink check) are fields of
`Calls`, so the same `step` serves the recursive executor and the one with interpreted callees.

Lists stand for the two stacks bottom first: a push is `++ [v]`.
-/
namespace Metalogos.Machine

open Metalogos.Lang

/-- The instructions only `execute_main_code` knows; a body that holds one fails.
mirrors src/vm.rs:2744-2755 -/
inductive MainOnly where
  | storeGlobal (slot : Nat)
  | registerPattern | registerLearnable | makeFluid | jumpIfLow | adapt | mutate | flowPipeline
  | flowExec | executeRules | halt | registerPatternRef
  deriving DecidableEq, Repr

/-- mirrors src/vm.rs:5171-5233 -/
def MainOnly.name : MainOnly → String
  | .storeGlobal _ => "StoreGlobal"
  | .registerPattern => "RegisterPattern"
  | .registerLearnable => "RegisterLearnable"
  | .makeFluid => "MakeFluid"
  | .jumpIfLow => "JumpIfLow"
  | .adapt => "Adapt"
  | .mutate => "Mutate"
  | .flowPipeline => "FlowPipeline"
  | .flowExec => "FlowExec"
  | .executeRules => "ExecuteRules"
  | .halt => "Halt"
  | .registerPatternRef => "RegisterPatternRef"

/-- `Add`, `Sub`, `Mul`, `Div`. -/
inductive ArithOp where
  | add | sub | mul | div
  deriving DecidableEq, Repr

def ArithOp.toBinOp : ArithOp → BinOp
  | .add => .add | .sub => .sub | .mul => .mul | .div => .div

/-- What `MatchTest` carries.
mirrors src/bytecode.rs:313-324 -/
inductive MatchTest where
  | lit (test : LitTest)
  | compare (op : CompareOp)
  deriving DecidableEq, Repr

/-- mirrors src/bytecode.rs `SinkCheckData`; `deny` is the armed path: handler index, skip target. -/
structure SinkCheckData where
  fnName : String
  arg : LabelRef
  line : Nat
  argIndex : Nat
  deny : Option (Nat × Nat)
  slot : Option Nat
  deriving DecidableEq, Repr

/-- mirrors src/bytecode.rs `Instruction` -/
inductive Instr (F : Type) where
  | const (v : Value F)
  | loadLocal (slot : Nat)
  | storeLocal (slot : Nat)
  | storeAssignLocal (slot : Nat) (name : String) (isMut : Bool)
  | loadGlobal (slot : Nat)
  | loadGlobalByName (name : String)
  | callBuiltin (idx arity : Nat)
  | callPattern (idx arity : Nat)
  | llmCall (idx arity : Nat)
  | arith (op : ArithOp)
  | cmp (op : CompareOp)
  | return_
  | jump (target : Nat)
  | jumpIfNot (target : Nat)
  | jumpIfNotCond (target : Nat)
  | getField (field : String)
  | indexAccess
  | collapse (type : String)
  | recallQuery
  | memorize (priority : F)
  | forget (days : Int)
  | relate
  | makeList (count : Nat)
  | listLen
  | pop
  | pushUnit
  | startsWith
  | contains
  | matchTest (test : MatchTest)
  | dup
  | beginValueExpr
  | keepLastValue
  | endValueExpr
  | setValueReg
  | makeStruct (typeName : String) (fields : List String)
  | tryEval (inner : List (Instr F))
  | labelJoin (dst : String) (src : LabelRef)
  | sinkCheck (data : SinkCheckData)
  | mainOnly (i : MainOnly)

/-- mirrors src/vm.rs `CallFrame` -/
structure Frame where
  returnIp : Nat
  baseBp : Nat
  deriving DecidableEq, Repr

/-- The `Vm` fields the modelled instructions read or write; everything the host side owns
(builtins' state, memory, stores) is the world `W`. -/
structure Vm (F W : Type) where
  registers : List (Value F)
  labelEnv : LabelEnv
  globals : List (Value F)
  callDepth : Nat
  denyEvent : Option (Value F)
  world : W

structure Mach (F W : Type) where
  stack : List (Value F)
  callStack : List Frame
  vm : Vm F W

/-- One iteration of the dispatch loop: go on, return a value, or fail. -/
inductive StepOut (F W : Type) where
  | next (ip : Nat) (m : Mach F W)
  | ret (v : Value F) (m : Mach F W)
  | err (e : String) (m : Mach F W)

/-- The name tables the dispatch loop reads.
mirrors src/vm.rs `Vm::builtin_names`, `Program::globals`, `Vm::reflex_names` -/
structure Names where
  builtinNames : List String
  globalNames : List String
  reflexNames : String → Option Nat
  classes : Classification

/-- Host operations that touch the world but never re-enter the machine. -/
structure HostOps (F W : Type) where
  memorize : String → F → W → W
  forget : String → Int → W → W
  relate : String → String → String → W → W
  recallText : String → W → String
  maybeCollapse : Value F → String → Value F

/-- How the re-entrant instructions run: each gets the machine with its operands popped. -/
structure Calls (F W : Type) where
  builtin : (name : String) → List (Value F) → (nextIp : Nat) → Mach F W → StepOut F W
  pattern : (idx arity : Nat) → (nextIp : Nat) → Mach F W → StepOut F W
  llm : (idx : Nat) → List (Value F) → (nextIp : Nat) → Mach F W → StepOut F W
  tryEval : List (Instr F) → (nextIp : Nat) → Mach F W → StepOut F W
  sinkCheck : SinkCheckData → (nextIp : Nat) → Mach F W → StepOut F W

variable {F W : Type} [FloatModel F]

/-- mirrors src/vm.rs:5165-5169 -/
def underflowErr (instr : String) : String :=
  "VM: stack underflow at " ++ instr
    ++ " (the operand stack is empty or the slot is out of range — bytecode desync or a corrupt .mbc)"

/-- `Vec::pop`. -/
def pop? {α : Type} (l : List α) : Option (α × List α) :=
  match l.getLast? with
  | some v => some (v, l.dropLast)
  | none => none

/-- `n` pops, the popped values in push order. -/
def popN? {α : Type} (n : Nat) (l : List α) : Option (List α × List α) :=
  if n ≤ l.length then some (l.drop (l.length - n), l.take (l.length - n)) else none

@[simp] theorem pop?_append {α : Type} (s : List α) (v : α) : pop? (s ++ [v]) = some (v, s) := by
  simp [pop?]

@[simp] theorem pop?_nil {α : Type} : pop? ([] : List α) = none := rfl

@[simp] theorem popN?_append {α : Type} (s vs : List α) :
    popN? vs.length (s ++ vs) = some (vs, s) := by
  simp [popN?]

/-- `stack.resize(idx + 1, Unit)` when too short, then `stack[idx] = v`.
mirrors src/vm.rs:2098-2103 -/
def writeAt (stack : List (Value F)) (idx : Nat) (v : Value F) : List (Value F) :=
  (stack ++ List.replicate (idx + 1 - stack.length) Value.unit).set idx v

namespace Mach

/-- `call_stack.last().map(|f| f.base_bp).unwrap_or(0)`. -/
def bp (m : Mach F W) : Nat := (m.callStack.getLast?.map (·.baseBp)).getD 0

def push (m : Mach F W) (v : Value F) : Mach F W := { m with stack := m.stack ++ [v] }

def withStack (m : Mach F W) (s : List (Value F)) : Mach F W := { m with stack := s }

def withRegs (m : Mach F W) (r : List (Value F)) : Mach F W :=
  { m with vm := { m.vm with registers := r } }

def withWorld (m : Mach F W) (w : W) : Mach F W := { m with vm := { m.vm with world := w } }

end Mach

end Metalogos.Machine
