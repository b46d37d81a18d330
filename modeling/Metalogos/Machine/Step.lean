import Metalogos.Machine.Bytecode

/-!
# One step of the body executor

`step` is the `match instr` of `execute_code_inner` (`src/vm.rs:2081-2757`), arm by arm, with the
operand contract of each arm: most pops fail loudly on an empty stack (`underflow_err`), the
arithmetic and ordering ones fall back to `Unit` (`unwrap_or(Value::Unit)`).
-/
namespace Metalogos.Machine

open Metalogos.Lang

variable {F W : Type} [FloatModel F]

/-- A loud pop: `stack.pop().ok_or_else(|| underflow_err(what))?`. -/
def popLoud (what : String) (m : Mach F W) (k : Value F → Mach F W → StepOut F W) :
    StepOut F W :=
  match pop? m.stack with
  | some (v, s) => k v (m.withStack s)
  | none => .err (underflowErr what) m

/-- A soft pop: `stack.pop().unwrap_or(Value::Unit)`. -/
def popSoft (m : Mach F W) (k : Value F → Mach F W → StepOut F W) : StepOut F W :=
  match pop? m.stack with
  | some (v, s) => k v (m.withStack s)
  | none => k .unit m

/-- `arity` loud pops into a vector, in push order; on underflow the operands are gone. -/
def popArgs (what : String) (n : Nat) (m : Mach F W)
    (k : List (Value F) → Mach F W → StepOut F W) : StepOut F W :=
  match popN? n m.stack with
  | some (args, s) => k args (m.withStack s)
  | none => .err (underflowErr what) (m.withStack [])

/-- Push a computed value and go on, or fail with its error. -/
def pushResult (r : Except String (Value F)) (nextIp : Nat) (m : Mach F W) : StepOut F W :=
  match r with
  | .ok v => .next nextIp (m.push v)
  | .error e => .err e m

/-- mirrors src/vm.rs:2361-2384 -/
def lookupGlobalByName (N : Names) (globals : List (Value F)) (name : String) :
    Except String (Value F) :=
  let bySlot :=
    if name ∈ N.globalNames then globals[N.globalNames.idxOf name]? else none
  match bySlot with
  | some v => .ok v
  | none =>
    match N.reflexNames name with
    | some id => .ok (.handle .reflex id "")
    | none => .error (codedError "UNDEFINED_VARIABLE" ("undefined variable: " ++ name))

/-- `Contains` in the body loop: substring, printed list membership, else false.
mirrors src/vm.rs:2653-2671 -/
def containsSoft (haystack needle : Value F) : Bool :=
  match haystack, needle with
  | .string h, .string n => containsStr h n
  | .list items, n => items.any fun v => v.display = n.display
  | _, _ => false

/-- mirrors src/vm.rs:2081-2757 -/
def step (N : Names) (H : HostOps F W) (C : Calls F W) (i : Instr F) (ip : Nat) (m : Mach F W) :
    StepOut F W :=
  match i with
  | .const v => .next (ip + 1) (m.push v)
  | .loadLocal slot =>
    match m.stack[m.bp + slot]? with
    | some v => .next (ip + 1) (m.push v)
    | none => .err (underflowErr ("LoadLocal (local slot " ++ toString (m.bp + slot)
        ++ " out of range)")) m
  | .storeLocal slot =>
    popLoud "StoreLocal" m fun v m' =>
      .next (ip + 1) (m'.withStack (writeAt m'.stack (m.bp + slot) v))
  | .storeAssignLocal slot name isMut =>
    if isMut then
      popLoud "StoreAssignLocal" m fun v m' =>
        .next (ip + 1) (m'.withStack (writeAt m'.stack (m.bp + slot) v))
    else .err (immutabilityErrorText name) m
  | .loadGlobal slot =>
    match m.vm.globals[slot]? with
    | some v => .next (ip + 1) (m.push v)
    | none => .err (underflowErr ("LoadGlobal (global slot " ++ toString slot
        ++ " out of range)")) m
  | .loadGlobalByName name =>
    pushResult (lookupGlobalByName N m.vm.globals name) (ip + 1) m
  | .callBuiltin idx arity =>
    let name := N.builtinNames[idx]?.getD "unknown"
    popArgs ("CallBuiltin '" ++ name ++ "' (operand)") arity m fun args m' =>
      C.builtin name args (ip + 1) m'
  | .callPattern idx arity => C.pattern idx arity (ip + 1) m
  | .llmCall idx arity =>
    popArgs ("LlmCall #" ++ toString idx ++ " (operand)") arity m fun args m' =>
      C.llm idx args (ip + 1) m'
  | .arith op =>
    popSoft m fun r m1 => popSoft m1 fun l m2 => pushResult (vmArith l op.toBinOp r) (ip + 1) m2
  | .cmp .eq =>
    popLoud "CmpEq (right)" m fun r m1 => popLoud "CmpEq (left)" m1 fun l m2 =>
      pushResult (evalCmp l r .eq) (ip + 1) m2
  | .cmp .ne =>
    popLoud "CmpNe (right)" m fun r m1 => popLoud "CmpNe (left)" m1 fun l m2 =>
      pushResult (vmNe l r) (ip + 1) m2
  | .cmp op =>
    popSoft m fun r m1 => popSoft m1 fun l m2 => pushResult (evalCmp l r op) (ip + 1) m2
  | .return_ =>
    popLoud "Return" m fun v m' => .ret v m'
  | .jump target => .next target m
  | .jumpIfNot target =>
    popLoud "JumpIfNot" m fun v m' => .next (if v.isTruthy then ip + 1 else target) m'
  | .jumpIfNotCond target =>
    popLoud "JumpIfNotCond" m fun v m' =>
      match v.asBool with
      | .ok b => .next (if b then ip + 1 else target) m'
      | .error e => .err e m'
  | .getField field =>
    popSoft m fun v m' => pushResult (v.getField field) (ip + 1) m'
  | .indexAccess =>
    popLoud "IndexAccess (index)" m fun i m1 => popLoud "IndexAccess (base)" m1 fun b m2 =>
      .next (ip + 1) (m2.push (vmIndex b i))
  | .collapse type =>
    popLoud "Collapse" m fun v m' => .next (ip + 1) (m'.push (H.maybeCollapse v type))
  | .recallQuery =>
    popLoud "Recall" m fun q m' => .next (ip + 1) (m'.push (.string (H.recallText q.display m'.vm.world)))
  | .memorize priority =>
    popLoud "Memorize" m fun v m' =>
      .next (ip + 1) (m'.withWorld (H.memorize v.display priority m'.vm.world))
  | .forget days =>
    popLoud "Forget" m fun q m' =>
      .next (ip + 1) (m'.withWorld (H.forget q.display days m'.vm.world))
  | .relate =>
    popLoud "Relate (relation)" m fun r m1 => popLoud "Relate (to)" m1 fun t m2 =>
      popLoud "Relate (from)" m2 fun f m3 =>
        .next (ip + 1) (m3.withWorld (H.relate f.display t.display r.display m3.vm.world))
  | .makeList count =>
    popArgs "MakeList (element)" count m fun items m' => .next (ip + 1) (m'.push (.list items))
  | .listLen =>
    popLoud "ListLen" m fun v m' =>
      match v with
      | .list items => .next (ip + 1) (m'.push (.float (FloatModel.ofNat items.length)))
      | other => .err (codedError "TYPE_MISMATCH"
          ("each: expected List, got " ++ other.typeName)) m'
  | .pop => .next (ip + 1) (m.withStack m.stack.dropLast)
  | .pushUnit => .next (ip + 1) (m.push .unit)
  | .startsWith =>
    popLoud "StartsWith (needle)" m fun n m1 => popLoud "StartsWith (haystack)" m1 fun h m2 =>
      let b := match h, n with
        | .string h, .string n => Lang.startsWith h n
        | _, _ => false
      .next (ip + 1) (m2.push (.bool b))
  | .contains =>
    popLoud "Contains (needle)" m fun n m1 => popLoud "Contains (haystack)" m1 fun h m2 =>
      .next (ip + 1) (m2.push (.bool (containsSoft h n)))
  | .matchTest (.compare op) =>
    popLoud "MatchTest (threshold)" m fun t m1 => popLoud "MatchTest (scrutinee)" m1 fun s m2 =>
      .next (ip + 1) (m2.push (.bool (compareValues s op t)))
  | .matchTest (.lit test) =>
    popLoud "MatchTest (scrutinee)" m fun s m1 =>
      .next (ip + 1) (m1.push (.bool (test.matchesValue s)))
  | .dup =>
    match m.stack.getLast? with
    | some v => .next (ip + 1) (m.push v)
    | none => .err (underflowErr "Dup") m
  | .beginValueExpr => .next (ip + 1) (m.withRegs (.unit :: m.vm.registers))
  | .keepLastValue =>
    popLoud "KeepLastValue" m fun v m' =>
      if v.isUnit then .next (ip + 1) m'
      else .next (ip + 1) (match m'.vm.registers with
        | [] => m'
        | _ :: rs => m'.withRegs (v :: rs))
  | .endValueExpr =>
    match m.vm.registers with
    | [] => .next (ip + 1) (m.push .unit)
    | r :: rs => .next (ip + 1) ((m.withRegs rs).push r)
  | .setValueReg =>
    popLoud "SetValueReg" m fun v m' =>
      .next (ip + 1) (match m'.vm.registers with
        | [] => m'
        | _ :: rs => m'.withRegs (v :: rs))
  | .makeStruct typeName fields =>
    popArgs ("MakeStruct '" ++ typeName ++ "' (field value)") fields.length m fun vs m' =>
      .next (ip + 1) (m'.push (.struct typeName (fields.zip vs)))
  | .tryEval inner => C.tryEval inner (ip + 1) m
  | .labelJoin dst src =>
    .next (ip + 1) { m with vm := { m.vm with
      labelEnv := execLabelJoin N.classes dst src m.vm.labelEnv } }
  | .sinkCheck data => C.sinkCheck data (ip + 1) m
  | .mainOnly k =>
    .err ("VM: instruction " ++ k.name
      ++ " is main-only — compiler/VM skew (a pattern/route body must not contain it)") m

end Metalogos.Machine
