import Metalogos.Flow.Json
import Metalogos.Lib.Dict
import Metalogos.Rules.Apply

/-!
# Flows, checkpoints and resumption

`run_flow` of `src/interpreter/flow.rs:267-331`: a source value goes through the steps of a pipeline,
and behind some of them the value and the variables are saved. `invoke` and the expressions of a flow
are the tree-walker's (`Metalogos.Walk`): functions of the variables and of a world that stands for
everything else a builtin can touch. `invoked` is the observation of the calls a run made.
-/
namespace Metalogos.Flow

open Metalogos.Lang Metalogos.Lib Metalogos.Rules

/-- mirrors src/ast.rs:1826-1842; the condition's target is not read, it is always the step's value. -/
structure Branch (F : Type) where
  field : String
  op : CompareOp
  threshold : Expr F
  target : String

/-- mirrors src/ast.rs:1811-1824 -/
structure FlowDecl (F : Type) where
  name : String
  source : Expr F
  pipeline : List String
  branchDefs : List (String × List (Branch F))
  checkpoints : Dict String Nat

/-- mirrors src/interpreter/mod.rs:78-91 -/
structure CheckpointData (F : Type) where
  flowName : String
  checkpointName : String
  stepIndex : Nat
  currentValue : Value F
  vars : Dict String (Value F)

/-- The fields of the interpreter a flow uses. `vars` is `variables`; `checkpointDb` holds the
`state_json` column of its table, by the primary key, and is there when the program declares a
persistent memory. -/
structure Interpreter (F W : Type) where
  vars : Dict String (Value F)
  branchDefs : Dict String (List (Branch F))
  checkpointDb : Option (Dict (String × String) (Json F))
  checkpointMem : Dict String (CheckpointData F)
  resumeTarget : Option (String × String)
  world : W
  invoked : List (String × Value F)

/-- What a flow calls: the tree-walker on its expressions, and `invoke` under the variables. -/
structure Engine (F W : Type) where
  walker : Walk.Interpreter F W
  invoke : Walk.Env F → String → List (Value F) → W → Except String (Value F) × W

variable {F W : Type}

/-! ## Checkpoints -/

section Store

variable (w : Wire F)

def toJson (d : CheckpointData F) : Json F :=
  .obj [("flow_name", .str d.flowName), ("checkpoint_name", .str d.checkpointName),
    ("step_index", .nat d.stepIndex), ("current_value", encode d.currentValue),
    ("variables", .obj (encodeFields d.vars.pairs))]

def ofJson : Json F → Option (CheckpointData F)
  | .obj [("flow_name", .str flowName), ("checkpoint_name", .str checkpointName),
      ("step_index", .nat stepIndex), ("current_value", current), ("variables", .obj fields)] => do
    let currentValue ← decode current
    let vars ← decodeFields fields
    some ⟨flowName, checkpointName, stepIndex, currentValue, ⟨vars⟩⟩
  | _ => none

def memKey (flow checkpoint : String) : String := flow ++ ":" ++ checkpoint

/-- mirrors src/interpreter/flow.rs:99-143 -/
def saveCheckpoint (flow checkpoint : String) (step : Nat) (current : Value F)
    (s : Interpreter F W) : Interpreter F W :=
  let data : CheckpointData F := ⟨flow, checkpoint, step, current, s.vars⟩
  match s.checkpointDb with
  | some db => { s with checkpointDb := some (db.set (flow, checkpoint) (toJson data)) }
  | none => { s with checkpointMem := s.checkpointMem.set (memKey flow checkpoint) data }

/-- mirrors src/interpreter/flow.rs:146-185 -/
def loadCheckpoint (flow checkpoint : String) (s : Interpreter F W) :
    Except String (Option (CheckpointData F)) :=
  match s.checkpointDb with
  | some db =>
    match db.get (flow, checkpoint) with
    | none => .ok none
    | some stateJson =>
      match (w.fromStr stateJson).toOption.bind ofJson with
      | some data => .ok (some data)
      | none => .error ("checkpoint deserialization error: " ++ w.refusal)
  | none => .ok (s.checkpointMem.get (memKey flow checkpoint))

/-- mirrors src/interpreter/flow.rs:188-190 -/
def setResumeTarget (flow checkpoint : String) (s : Interpreter F W) : Interpreter F W :=
  { s with resumeTarget := some (flow, checkpoint) }

end Store

/-! ## Steps -/

section Steps

variable [FloatModel F] (m : Engine F W)

/-- `self.invoke(name, vec![current])`. -/
def invoke (name : String) (current : Value F) (s : Interpreter F W) :
    Except String (Value F) × Interpreter F W :=
  let r := m.invoke s.vars.get name [current] s.world
  (r.1, { s with world := r.2, invoked := s.invoked ++ [(name, current)] })

/-- `self.eval_expr(expr)`. -/
def evalExpr (e : Expr F) (s : Interpreter F W) : Except String (Value F) × Interpreter F W :=
  let r := evalIn m.walker s.vars.get e s.world
  (r.1, { s with world := r.2.1 })

/-- mirrors src/interpreter/flow.rs:350-373 -/
def evalBranchCondition (b : Branch F) (current : Value F) (s : Interpreter F W) :
    Except String Bool × Interpreter F W :=
  match current.getField b.field with
  | .error e => (.error ("branch condition: " ++ e), s)
  | .ok fieldVal =>
    match evalExpr m b.threshold s with
    | (.error e, s) => (.error e, s)
    | (.ok threshold, s) => (compareNumbers fieldVal b.op threshold, s)

/-- The first branch whose condition holds. -/
def runBranches (stepName : String) (current : Value F) :
    List (Branch F) → Interpreter F W → Except String (Value F) × Interpreter F W
  | [], s => (.error ("no branch matched in step '" ++ stepName ++ "'"), s)
  | b :: rest, s =>
    match evalBranchCondition m b current s with
    | (.error e, s) => (.error e, s)
    | (.ok true, s) => invoke m b.target current s
    | (.ok false, s) => runBranches stepName current rest s

/-- mirrors src/interpreter/flow.rs:333-347 -/
def runFlowStep (stepName : String) (current : Value F) (s : Interpreter F W) :
    Except String (Value F) × Interpreter F W :=
  match s.branchDefs.get stepName with
  | some branches => runBranches m stepName current branches s
  | none => invoke m stepName current s

end Steps

/-! ## The pipeline -/

/-- The checkpoints behind a step: `checkpoint_at[i]`.
mirrors src/interpreter/flow.rs:306-312 -/
def checkpointAt (flow : FlowDecl F) (i : Nat) : List String :=
  flow.checkpoints.select fun _ step => step == i

def saveAll (flow : FlowDecl F) (i : Nat) (current : Value F) (s : Interpreter F W) :
    Interpreter F W :=
  (checkpointAt flow i).foldl (fun s cp => saveCheckpoint flow.name cp i current s) s

section Run

variable [FloatModel F] (m : Engine F W) (w : Wire F)

/-- The loop over the steps, from the step of index `i` on; those before `start` are skipped.
mirrors src/interpreter/flow.rs:314-328 -/
def runSteps (flow : FlowDecl F) (start : Nat) :
    Nat → List String → Value F → Interpreter F W → Except String (Value F) × Interpreter F W
  | _, [], current, s => (.ok current, s)
  | i, name :: rest, current, s =>
    if i < start then runSteps flow start (i + 1) rest current s
    else
      match runFlowStep m name current s with
      | (.error e, s) => (.error e, s)
      | (.ok current, s) => runSteps flow start (i + 1) rest current (saveAll flow i current s)

/-- `self.branch_defs` of the flow that runs; of two definitions for a step the later one counts.
mirrors src/interpreter/flow.rs:268-272 -/
def branchTable (flow : FlowDecl F) : Dict String (List (Branch F)) :=
  flow.branchDefs.foldl (fun d p => d.set p.1 p.2) .empty

/-- The variables of a checkpoint over those there are: one of each name, in any order. -/
def restore (saved vars : Dict String (Value F)) : Dict String (Value F) :=
  saved.pairs.foldr (fun p d => d.set p.1 p.2) vars

/-- Where a run starts, if it is a resumed one, and with which value.
mirrors src/interpreter/flow.rs:274-298 -/
def resumePoint (flow : FlowDecl F) (s : Interpreter F W) :
    Except String (Option (Nat × Value F)) × Interpreter F W :=
  match s.resumeTarget with
  | none => (.ok none, s)
  | some (targetFlow, targetCp) =>
    if targetFlow = flow.name then
      match loadCheckpoint w flow.name targetCp s with
      | .error e => (.error e, s)
      | .ok none =>
        (.error ("checkpoint '" ++ targetCp ++ "' not found for flow '" ++ flow.name ++ "'"), s)
      | .ok (some data) =>
        (.ok (some (data.stepIndex + 1, data.currentValue)),
          { s with vars := restore data.vars s.vars, resumeTarget := none })
    else (.ok none, s)

/-- A run of the flow over the first `n` steps of its pipeline: a run that is stopped behind the `n`th
step, and the whole run when there are no more.
mirrors src/interpreter/flow.rs:267-328 -/
def runFor (flow : FlowDecl F) (n : Nat) (s : Interpreter F W) :
    Except String (Value F) × Interpreter F W :=
  match resumePoint w flow { s with branchDefs := branchTable flow } with
  | (.error e, s) => (.error e, s)
  | (.ok (some (start, current)), s) => runSteps m flow start 0 (flow.pipeline.take n) current s
  | (.ok none, s) =>
    match evalExpr m flow.source s with
    | (.error e, s) => (.error e, s)
    | (.ok current, s) => runSteps m flow 0 0 (flow.pipeline.take n) current s

/-- A run's value, printed. -/
def shown (r : Except String (Value F) × Interpreter F W) : Except String String × Interpreter F W :=
  (r.1.map Value.display, r.2)

/-- mirrors src/interpreter/flow.rs:267-331 -/
def runFlow (flow : FlowDecl F) (s : Interpreter F W) : Except String String × Interpreter F W :=
  shown (runFor m w flow flow.pipeline.length s)

end Run

end Metalogos.Flow
