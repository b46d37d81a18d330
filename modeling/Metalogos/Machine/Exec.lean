import Metalogos.Machine.Step

/-!
# The body executor

`runLoop` is the `while ip < code.len()` loop of `execute_code_inner` with its instruction budget
(`code.len().max(1) * 100_000`, the factor a parameter `lim`), `executeCode` the entry guard around
it (`src/vm.rs:2022-2056`). `executeCode` recurses on a bound `d` for the native recursion depth; the
cap itself is compared against `call_depth`, as in the source.

Two ways to run the re-entrant instructions are given:

* `realCalls`: builtins and LLM calls are the host's, patterns run their code, `map` and the
  `on_deny` handlers re-enter (`src/vm.rs:2127-2253`, `:2674-2713`, `:2767-2897`, `:870-970`);
* `interpCalls`: every callee is interpreted by a function of its name, its arguments and the
  world, which is how a body is compared with the tree-walker for every meaning of its callees.
-/
namespace Metalogos.Machine

open Metalogos.Lang

variable {F W : Type} [FloatModel F]

abbrev Res (F W : Type) := Except String (Value F) × Mach F W

/-- What ends a body that ran off its code: the pop of the result.
mirrors src/vm.rs:2759-2762 -/
def epilogue (m : Mach F W) : Res F W :=
  match pop? m.stack with
  | some (v, s) => (.ok v, m.withStack s)
  | none => (.error (underflowErr "the body epilogue (the return value)"), m)

/-- mirrors src/vm.rs:2064-2080 -/
def infiniteLoopErr (budget len : Nat) : String :=
  "VM execute_code: possible infinite loop (" ++ toString (budget + 1) ++ " iterations, "
    ++ toString len ++ " instructions)"

/-- The dispatch loop with `fuel` instructions left of a budget of `budget`.
mirrors src/vm.rs:2064-2762 -/
def runLoop (N : Names) (H : HostOps F W) (C : Calls F W) (code : List (Instr F)) (budget : Nat) :
    Nat → Nat → Mach F W → Res F W
  | fuel, ip, m =>
    match code[ip]? with
    | none => epilogue m
    | some i =>
      match fuel with
      | 0 => (.error (infiniteLoopErr budget code.length), m)
      | fuel + 1 =>
        match step N H C i ip m with
        | .next ip' m' => runLoop N H C code budget fuel ip' m'
        | .ret v m' => (.ok v, m')
        | .err e m' => (.error e, m')

/-- mirrors src/vm.rs:2037-2047 -/
def callDepthErr (maxDepth : Nat) : String :=
  codedError "CALL_DEPTH_EXCEEDED"
    ("VM: native recursion depth exceeded " ++ toString maxDepth ++ " (METALOGOS_VM_MAX_DEPTH)")

/-- The limits of an execution: the depth cap and the instruction factor (512 and 100 000 in the
source). -/
structure Limits where
  maxDepth : Nat
  lim : Nat

/-- mirrors src/vm.rs:2022-2056; `mk run` is how the re-entrant instructions use `run`. -/
def executeCode (N : Names) (H : HostOps F W)
    (mk : (List (Instr F) → Mach F W → Res F W) → Calls F W) (L : Limits) :
    Nat → List (Instr F) → Mach F W → Res F W
  | 0, _, m => (.error (callDepthErr L.maxDepth), m)
  | d + 1, code, m =>
    if m.vm.callDepth + 1 > L.maxDepth then (.error (callDepthErr L.maxDepth), m)
    else
      let m1 : Mach F W :=
        { m with vm := { m.vm with callDepth := m.vm.callDepth + 1, registers := [] } }
      let budget := max code.length 1 * L.lim
      let (out, m2) := runLoop N H (mk (executeCode N H mk L d)) code budget budget 0 m1
      (out, { m2 with vm := { m2.vm with
        callDepth := m2.vm.callDepth - 1, registers := m.vm.registers } })

/-! ## Re-entrant instructions -/

/-- mirrors src/bytecode.rs `CompiledPattern` -/
structure CompiledPattern (F : Type) where
  name : String
  paramCount : Nat
  code : List (Instr F)

/-- mirrors src/vm.rs:2218-2227 -/
def patternArityErr (name : String) (want got : Nat) : String :=
  "VM: pattern " ++ name ++ " expects " ++ toString want ++ " args, got " ++ toString got

/-- `TryEval`: a caught error restores both depths, a value is wrapped where it stands.
mirrors src/vm.rs:2674-2713 -/
def runTry (run : List (Instr F) → Mach F W → Res F W) (inner : List (Instr F)) (nextIp : Nat)
    (m : Mach F W) : StepOut F W :=
  match run inner m with
  | (.ok v, m') => .next nextIp (m'.push (tryResult (.ok v)))
  | (.error e, m') =>
    .next nextIp { m' with
      stack := m'.stack.take m.stack.length ++ [tryResult (.error e)],
      callStack := m'.callStack.take m.callStack.length }

/-- The last position holding a class: the exact class, else the wildcard.
mirrors src/deny.rs:149-157 -/
def selectHandler (classes : List String) (c : String) : Option Nat :=
  let last (x : String) : Option Nat :=
    if x ∈ classes then some (classes.length - 1 - classes.reverse.idxOf x) else none
  (last c).orElse fun _ => last "*"

/-- mirrors src/deny.rs:113-146 -/
def denyEventValue (reason sink cls argument label : String) (line : F) (human : String) : Value F :=
  .struct "DenyEvent" [("reason", .string reason), ("sink", .string sink), ("class", .string cls),
    ("argument", .string argument), ("label", .string label), ("line", .float line),
    ("human", .string human)]

/-- The parts of `Program` and `Vm` the re-entrant instructions read. -/
structure Program (F : Type) where
  patterns : List (CompiledPattern F)
  denyHandlers : List (String × List (Instr F))
  collectionsLoaded : Bool

/-- What is outside the machine: builtin and LLM dispatch, the ledger. Builtins read the `Vm`
(globals, the live deny event) and change the world only. -/
structure Host (F W : Type) extends HostOps F W where
  builtin : String → List (Value F) → Vm F W → Except String (Value F) × W
  callLlm : Nat → List (Value F) → Vm F W → Except String (Value F) × W
  recordDeny : (reason cls detail : String) → W → W

/-- An `on_deny` body runs in a frame of its own and leaves neither stack cell nor frame.
mirrors src/vm.rs:2880-2897 -/
def runDenyHandler (run : List (Instr F) → Mach F W → Res F W) (code : List (Instr F))
    (returnIp : Nat) (m : Mach F W) : Except String Unit × Mach F W :=
  let base := m.stack.length
  let (out, m') := run code { m with callStack := m.callStack ++ [⟨returnIp, base⟩] }
  (out.map fun _ => (), { m' with stack := m'.stack.take base, callStack := m'.callStack.dropLast })

/-- The refused action a deny event describes. -/
structure Denial (F : Type) where
  sink : String
  argument : String
  cls : String
  reason : String
  label : String
  line : F
  human : String

/-- `true` when a covering handler ran: the degraded `Unit` is then on the stack.
mirrors src/vm.rs:2823-2878 -/
def vmFireOnDeny (P : Program F) (H : Host F W) (run : List (Instr F) → Mach F W → Res F W)
    (a : Denial F) (returnIp : Nat) (m : Mach F W) : Except String Bool × Mach F W :=
  let m0 := m.withWorld (H.recordDeny ("deny." ++ a.reason) a.cls
    (a.sink ++ "|" ++ a.argument ++ "|" ++ a.label ++ "|" ++ FloatModel.print a.line ++ "|" ++ a.human)
    m.vm.world)
  match selectHandler (P.denyHandlers.map (·.1)) a.cls with
  | none => (.ok false, m0)
  | some k =>
    let code := (P.denyHandlers[k]?.map (·.2)).getD []
    let event := denyEventValue a.reason a.sink a.cls a.argument a.label a.line a.human
    let (out, m') := runDenyHandler run code returnIp
      { m0 with vm := { m0.vm with denyEvent := some event } }
    let m2 : Mach F W := { m' with vm := { m'.vm with denyEvent := none } }
    match out with
    | .ok () => (.ok true, m2.push .unit)
    | .error e => (.error e, m2)

/-- The texts of a refused sink check.
mirrors src/vm.rs:913-952 -/
def worldStateErr (fnName : String) (line : Nat) : String :=
  codedError "WORLD_STATE_PRIVATE" (fnName
    ++ " refused: WorldState is private-by-default state — its materialization outside the verified contour is an error (the Phase-1 lattice / №349 consistency; inspect via the introspection surfaces); the runtime sink gate agrees (line "
    ++ toString line ++ ")")

def sinkClearanceErr (fnName arg : String) (label : Label) (line : Nat) (reason : String) : String :=
  codedError "SINK_CLEARANCE_RUNTIME" ("sink clearance violated at runtime: " ++ fnName
    ++ " argument '" ++ arg ++ "' carries label '" ++ label.display ++ "' (line " ++ toString line
    ++ ") — the static gate and the runtime agree on the verdict; deny reason class: " ++ reason)

/-- mirrors src/vm.rs:870-970 -/
def execSinkCheck (N : Names) (P : Program F) (H : Host F W)
    (run : List (Instr F) → Mach F W → Res F W) (sc : SinkCheckData) (nextIp : Nat)
    (m : Mach F W) : StepOut F W :=
  let label := labelOf N.classes m.vm.labelEnv sc.arg
  if sinkRefuses sc.fnName label then
    match sc.slot.bind fun s => m.stack[m.bp + s]? with
    | some (.handle .worldState _ _) => .err (worldStateErr sc.fnName sc.line) m
    | _ =>
      let reason := sinkCheckId sc.fnName sc.argIndex label
      let message := sinkClearanceErr sc.fnName sc.arg.text label sc.line reason
      match sc.deny with
      | none => .err message m
      | some (_, skipTo) =>
        match vmFireOnDeny P H run ⟨sc.fnName, sc.arg.text, sinkKind sc.fnName, reason,
            label.display, FloatModel.ofNat sc.line, message⟩ nextIp m with
        | (.ok true, m') => .next skipTo m'
        | (.ok false, m') => .err message m'
        | (.error e, m') => .err e m'
  else .next nextIp m

/-- `map(list, "pattern")`, each item on a stack of its own.
mirrors src/vm.rs:2767-2813 -/
def vmMap (P : Program F) (run : List (Instr F) → Mach F W → Res F W) (args : List (Value F))
    (m : Mach F W) : Option (Value F) × Mach F W :=
  if !P.collectionsLoaded then (none, m)
  else match args with
    | .list items :: .string name :: _ =>
      match P.patterns.reverse.find? (·.name = name) with
      | none => (none, m)
      | some p =>
        if p.paramCount ≠ 1 then (none, m)
        else
          let rec go : List (Value F) → List (Value F) → Vm F W → Option (Value F) × Vm F W
            | [], acc, vm => (some (.list acc), vm)
            | v :: vs, acc, vm =>
              match run p.code { stack := [v], callStack := [⟨0, 0⟩], vm := vm } with
              | (.ok r, m') => go vs (acc ++ [r]) m'.vm
              | (.error _, m') => (none, m'.vm)
          let (r, vm) := go items [] m.vm
          (r, { m with vm := vm })
    | _ => (none, m)

/-- mirrors src/vm.rs:2127-2214 -/
def callBuiltinReal (P : Program F) (H : Host F W) (run : List (Instr F) → Mach F W → Res F W)
    (name : String) (args : List (Value F)) (nextIp : Nat) (m : Mach F W) : StepOut F W :=
  -- a failed `map` falls through to the table, with whatever its items did to the machine
  let (mapped, m) := if name = "map" then vmMap P run args m else (none, m)
  match mapped with
  | some v => .next nextIp (m.push v)
  | none =>
    let (r, w) := H.builtin name args m.vm
    let m := m.withWorld w
    let deny (argument cls e : String) : StepOut F W :=
      match vmFireOnDeny P H run ⟨name, argument, cls, "IRREVERSIBLE_NO_GRANT", "bottom",
          FloatModel.ofNat 0, e⟩ nextIp m with
      | (.ok true, m') => .next nextIp m'
      | (.ok false, m') => .err e m'
      | (.error e', m') => .err e' m'
    match r with
    | .ok v => .next nextIp (m.push v)
    | .error e =>
      if startsWith e "IRREVERSIBLE_NO_GRANT" then deny "call" (sinkKind name) e
      else if startsWith e "GRANT_" then deny "sql" "db" e
      else .err e m

/-- mirrors src/vm.rs:2215-2253 -/
def callPatternReal (P : Program F) (run : List (Instr F) → Mach F W → Res F W)
    (idx arity nextIp : Nat) (m : Mach F W) : StepOut F W :=
  match P.patterns[idx]? with
  | none => .err ("VM: pattern index " ++ toString idx ++ " not found") m
  | some p =>
    if arity ≠ p.paramCount then .err (patternArityErr p.name p.paramCount arity) m
    else
      popArgs ("CallPattern '" ++ p.name ++ "' (argument)") arity m fun args m' =>
        let base := m'.stack.length
        match run p.code { m' with
            stack := m'.stack ++ args, callStack := m'.callStack ++ [⟨nextIp, base⟩] } with
        | (.ok v, m2) => .next nextIp { m2 with
            stack := m2.stack.take base ++ [v], callStack := m2.callStack.dropLast }
        | (.error e, m2) => .err e m2

/-- The re-entrant instructions of the real machine. -/
def realCalls (N : Names) (P : Program F) (H : Host F W)
    (run : List (Instr F) → Mach F W → Res F W) : Calls F W where
  builtin := callBuiltinReal P H run
  pattern := callPatternReal P run
  llm idx args nextIp m :=
    let (r, w) := H.callLlm idx args m.vm
    pushResult r nextIp (m.withWorld w)
  tryEval := runTry run
  sinkCheck := execSinkCheck N P H run

end Metalogos.Machine
