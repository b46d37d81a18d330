import Metalogos.Walk.Monad

/-!
# The tree-walker

`eval_expr_with_env`, `eval_statements_cf` and `eval_statements` of
`src/interpreter/execution.rs` (`:1273-1618`, `:1623-2845`). An environment maps names to
values, with the interpreter's `variables` (`globals` here) behind it; the set of mutable names is threaded
beside it. Statement blocks yield a control signal and carry the running value
`last_expr_value`.

Calls leave the evaluator: `Interpreter.call` interprets a callee as a function of its arguments and the
world, `resolve` and `resolveQualified` find it, so the results hold for every meaning of the callees.

The evaluator is total: the `while` loop recurses on the iterations its limit still allows, the
`each` loops on their list.
-/
namespace Metalogos.Walk

open Metalogos.Lang Metalogos.Lib

/-- A declaration a call can reach. -/
inductive Callee where
  | builtin (name : String)
  | pattern (name : String)
  | learnable (name : String)
  deriving DecidableEq, Repr

/-- `HashMap<String, Value>`. -/
abbrev Env (F : Type) := String → Option (Value F)

/-- `env.insert(x, v)`. -/
def Env.set {F : Type} (env : Env F) (x : String) (v : Value F) : Env F :=
  fun y => if y = x then some v else env y

/-- The interpreter's fields the evaluator reads, with callees and memory operations as
functions on the world. `arity` is `pattern.params.len()`. -/
structure Interpreter (F W : Type) where
  call : Callee → List (Value F) → W → Except String (Value F) × W
  resolve : String → Option Callee
  resolveQualified : String → String → Except String Callee
  arity : String → Nat
  globals : Env F
  reflexNames : String → Option Nat
  memorize : String → F → W → W
  forget : String → Int → W → W
  relate : String → String → String → W → W
  sandbox : Bool
  iterLimit : Nat

/-- mirrors src/interpreter/types.rs:449-457 -/
inductive ControlFlow (F : Type) where
  | normal (v : Value F)
  | brk
  | cont
  | ret (v : Value F)

variable {F W : Type} [FloatModel F]

/-- A statement block leaves its signal, the environment and the mutable names. -/
abbrev Outcome (F : Type) := ControlFlow F × Env F × List String

/-- The text of a model name that is not declared.
mirrors src/interpreter/execution.rs:2021-2096 -/
def modelErr (fn block x : String) : String :=
  fn ++ ": model '" ++ x ++ "' not declared (no matching `" ++ block ++ " " ++ x
    ++ " \x7b ... \x7d` block)"

/-- The first argument of these builtins, when it is a bare name, is the name itself and not a
variable.
mirrors src/interpreter/execution.rs:2004-2099 -/
def bareIdentArg (c : Interpreter F W) (fn : String) : Expr F → Option (Except String (Value F))
  | .ident x =>
    let model (who block : String) : Option (Except String (Value F)) :=
      match c.reflexNames x with
      | some id => some (.ok (.handle .reflex id ""))
      | none => some (.error (modelErr who block x))
    if fn = "render" then some (.ok (.string x))
    else if fn = "reflex_train" ∨ fn = "reflex_predict" then model "reflex_train/predict" "reflex"
    else if fn = "reflex_save" then model "reflex_save" "reflex"
    else if fn = "reflex_metrics" then model "reflex_metrics" "reflex"
    else if fn = "attest_verify" then model "attest_verify" "reflex"
    else if fn = "reflex_generate" then model "reflex_generate" "reflex_gen"
    else none
  | _ => none

/-- Run a resolved callee; a pattern checks its argument count first.
mirrors src/interpreter/execution.rs:2706-2810 -/
def callResolved (c : Interpreter F W) (shown : String) (args : List (Value F)) :
    Callee → TW F W (Value F)
  | .pattern p =>
    if args.length ≠ c.arity p then
      .fail ("pattern " ++ shown ++ " expects " ++ toString (c.arity p) ++ " arguments, got "
        ++ toString args.length)
    else .host (c.call (.pattern p) args)
  | callee => .host (c.call callee args)

/-- mirrors src/interpreter/execution.rs:1781-1792 -/
def readVar (c : Interpreter F W) (env : Env F) (x : String) : TW F W (Value F) :=
  match (env x).orElse fun _ => c.globals x with
  | some v => do
    .tell (.read x v)
    pure v
  | none => .fail (codedError "UNDEFINED_VARIABLE" ("undefined variable: " ++ x))

/-- Operands of a strict binary operator are there: apply it.
mirrors src/interpreter/execution.rs:2840-2845 -/
def applyBinop (l : Value F) (op : BinOp) (r : Value F) : TW F W (Value F) := do
  if op = .ne then
    .tell (.ne l r)
  .lift (twBinop l op r)

def applyIndex (b i : Value F) : TW F W (Value F) := do
  .tell (.index b i)
  .lift (twIndex b i)

/-- The value of an arm: `eval_statements` flattens the signal of its block.
mirrors src/interpreter/execution.rs:1132-1146 -/
def armValue (block : TW F W (Outcome F)) : TW F W (Value F) := do
  let out ← .wrap .arm block
  match out.1 with
  | .normal v => pure v
  | .ret v => pure v
  | .brk => .fail "break/continue used outside of a loop"
  | .cont => .fail "break/continue used outside of a loop"

/-- `eval_block!`: a signal propagates, a value replaces the running one.
mirrors src/interpreter/execution.rs:1292-1307 -/
def evalBlock (isLast : Bool) (last : Value F) (block : TW F W (Outcome F)) :
    TW F W (Outcome F) := do
  let out ← .wrap (.blk isLast) block
  match out.1 with
  | .normal v => do
    .tell (.taken last v)
    pure out
  | _ => pure out

/-- A statement that has no value and leaves the running one. -/
def keepLast (isLast : Bool) (last : Value F) (env : Env F) (muts : List String) :
    TW F W (Outcome F) := do
  .tell (.silent last isLast)
  pure (.normal last, env, muts)

/-- mirrors src/interpreter/execution.rs:1455-1470 -/
def limitErr (c : Interpreter F W) : String :=
  if c.sandbox then
    "iteration limit exceeded in sandbox: while loop exceeded " ++ toString c.iterLimit
      ++ " iterations"
  else "while loop exceeded safety limit of " ++ toString c.iterLimit ++ " iterations"

/-- The `while` loop with `n` iterations left.
mirrors src/interpreter/execution.rs:1452-1497 -/
def whileLoop (c : Interpreter F W) (cond : Env F → TW F W (Value F))
    (body : Env F → List String → TW F W (Outcome F)) :
    Nat → Env F → List String → TW F W (Outcome F)
  | 0, _, _ => do
    .tell .limit
    .fail (limitErr c)
  | n + 1, env, muts => do
    let v ← cond env
    let b ← .lift v.asBool
    if b then do
      let out ← .wrap .loop (body env muts)
      match out.1 with
      | .brk => pure (.normal .unit, out.2)
      | .ret v => pure (.ret v, out.2)
      | _ => whileLoop c cond body n out.2.1 out.2.2
    else pure (.normal .unit, env, muts)

/-- The `each` loops: `bind` binds the item (and the index).
mirrors src/interpreter/execution.rs:1345-1396,1409-1450 -/
def eachLoop (c : Interpreter F W) (bind : Nat → Value F → Env F → Env F)
    (body : Env F → List String → TW F W (Outcome F)) :
    Nat → List (Value F) → Env F → List String → TW F W (Outcome F)
  | _, [], env, muts => pure (.normal .unit, env, muts)
  | idx, v :: vs, env, muts =>
    if c.sandbox ∧ c.iterLimit ≤ idx then do
      .tell .limit
      .fail ("iteration limit exceeded in sandbox: each loop exceeded " ++ toString c.iterLimit
        ++ " iterations")
    else do
      let out ← .wrap .loop (body (bind idx v env) muts)
      match out.1 with
      | .brk => pure (.normal .unit, out.2)
      | .ret v => pure (.ret v, out.2)
      | _ => eachLoop c bind body (idx + 1) vs out.2.1 out.2.2

/-- The head of an `each`: the iterable must be a list, within the sandbox limit. -/
def eachStmt (c : Interpreter F W) (bind : Nat → Value F → Env F → Env F)
    (body : Env F → List String → TW F W (Outcome F)) (last : Value F) (iterable : Value F)
    (env : Env F) (muts : List String) : TW F W (Outcome F) := do
  .tell .store
  match iterable with
  | .list items => do
    .tell (.reset last)
    .tell (.items items.length)
    if c.sandbox ∧ c.iterLimit < items.length then do
      .tell .limit
      .fail ("iteration limit exceeded in sandbox: each loop has " ++ toString items.length
        ++ " items (limit " ++ toString c.iterLimit ++ ")")
    else eachLoop c bind body 0 items env muts
  | other => .fail (codedError "TYPE_MISMATCH" ("each: expected List, got " ++ other.typeName))

/-- Bind the item of `each x in ..`. -/
def bindItem (x : String) (_ : Nat) (v : Value F) (env : Env F) : Env F := env.set x v

/-- Bind index, then item, of `each i, x in ..`.
mirrors src/interpreter/execution.rs:1436-1437 -/
def bindIndexItem (i x : String) (idx : Nat) (v : Value F) (env : Env F) : Env F :=
  (env.set i (.float (FloatModel.ofNat idx))).set x v

mutual
/-- mirrors src/interpreter/execution.rs:1623-2845 -/
def evalExpr (c : Interpreter F W) : Expr F → Env F → TW F W (Value F)
  | .stringLit s, _ => pure (.string s)
  | .floatLit f, _ => pure (.float f)
  | .boolLit b, _ => pure (.bool b)
  | .ident x, env => readVar c env x
  | .fieldAccess e field, env => do
    let v ← evalExpr c e env
    .lift (v.getField field)
  | .fnCall name args _, env => do
    let vs ← evalCallArgs c name args env
    match c.resolve name with
    | some callee => callResolved c name vs callee
    | none => .fail (codedError "UNDEFINED_FUNCTION" ("undefined function: '" ++ name ++ "'"))
  | .qualifiedCall ns fn args, env => do
    let vs ← evalExprs c args env
    match c.resolveQualified ns fn with
    | .ok callee => callResolved c fn vs callee
    | .error e => .fail e
  | .binaryOp l .and r, env => do
    let a ← evalExpr c l env
    if a.isTruthy then do
      let b ← evalExpr c r env
      pure (.bool b.isTruthy)
    else pure (.bool false)
  | .binaryOp l .or r, env => do
    let a ← evalExpr c l env
    if a.isTruthy then pure (.bool true)
    else do
      let b ← evalExpr c r env
      pure (.bool b.isTruthy)
  | .binaryOp l op r, env => do
    let a ← evalExpr c l env
    let b ← .wrap .pend (evalExpr c r env)
    applyBinop a op b
  | .ifElse cnd t e, env => do
    let v ← evalExpr c cnd env
    let b ← .lift v.asBool
    if b then evalExpr c t env else evalExpr c e env
  | .list items, env => do
    let vs ← evalExprs c items env
    pure (.list vs)
  | .indexAccess b i, env => do
    let bv ← evalExpr c b env
    let iv ← .wrap .pend (evalExpr c i env)
    applyIndex bv iv
  | .structLit keys values, env => do
    let vs ← evalExprs c values env
    pure (.struct "Struct" (keys.zip vs))
  | .blockIfElse cnd thn rest, env => do
    let v ← evalExpr c cnd env
    let b ← .lift v.asBool
    if b then armValue (evalStmts c thn .unit env []) else evalElseValue c rest env
  | .matchExpr s arms, env => do
    let sv ← evalExpr c s env
    evalArmsValue c arms sv env
  | .try_ e, env => .catching tryResult (evalExpr c e env)
  | .handleSource origin, _ => .host (c.call (.builtin "media_source_capture") [.string origin])
  | .provBind origin e, env => do
    let v ← .wrap .pend (evalExpr c e env)
    .host (c.call (.builtin "media_bind_origin") [.string origin, v])

/-- Left to right; from the second one on, earlier values wait. -/
def evalExprs (c : Interpreter F W) : List (Expr F) → Env F → TW F W (List (Value F))
  | [], _ => pure []
  | e :: es, env => do
    let v ← evalExpr c e env
    let vs ← .wrap .pend (evalExprs c es env)
    pure (v :: vs)

/-- Arguments of a call by name: a bare name in first position may stand for itself.
mirrors src/interpreter/execution.rs:1998-2102 -/
def evalCallArgs (c : Interpreter F W) (fn : String) :
    List (Expr F) → Env F → TW F W (List (Value F))
  | [], _ => pure []
  | e :: es, env => do
    let v ← match bareIdentArg c fn e with
      | some r => .lift r
      | none => evalExpr c e env
    let vs ← .wrap .pend (evalExprs c es env)
    pure (v :: vs)

/-- mirrors src/interpreter/execution.rs:1688-1701 -/
def evalElseValue (c : Interpreter F W) : ElseChain F → Env F → TW F W (Value F)
  | .none, _ => pure .unit
  | .else_ body, env => armValue (evalStmts c body .unit env [])
  | .elseIf cnd body rest, env => do
    let v ← evalExpr c cnd env
    let b ← .lift v.asBool
    if b then armValue (evalStmts c body .unit env []) else evalElseValue c rest env

/-- mirrors src/interpreter/execution.rs:1713-1743 -/
def evalArmsValue (c : Interpreter F W) : MatchArms F → Value F → Env F → TW F W (Value F)
  | .none, _, _ => pure .unit
  | .else_ body, _, env => armValue (evalStmts c body .unit env [])
  | .lit test body rest, sv, env =>
    if test.matchesValue sv then armValue (evalStmts c body .unit env [])
    else evalArmsValue c rest sv env
  | .compare op th body rest, sv, env => do
    let tv ← .wrap .pend (evalExpr c th env)
    if compareValues sv op tv then armValue (evalStmts c body .unit env [])
    else evalArmsValue c rest sv env

/-- mirrors src/interpreter/execution.rs:1310-1615 -/
def evalStmt (c : Interpreter F W) :
    Stmt F → Bool → Value F → Env F → List String → TW F W (Outcome F)
  | .letBinding x e isMut, _, _, env, muts => do
    let v ← evalExpr c e env
    .tell .store
    pure (.normal .unit, env.set x v, if isMut then x :: muts else muts)
  | .assign x e, _, last, env, muts =>
    if x ∈ muts then do
      let v ← evalExpr c e env
      .tell (.reset last)
      .tell .store
      pure (.normal .unit, env.set x v, muts)
    else do
      .tell (.refused x)
      .fail (immutabilityErrorText x)
  | .each x it body, _, last, env, muts => do
    let v ← evalExpr c it env
    eachStmt c (bindItem x) (fun env muts => evalStmts c body .unit env muts) last v env muts
  | .eachWithIndex i x it body, _, last, env, muts => do
    let v ← evalExpr c it env
    eachStmt c (bindIndexItem i x) (fun env muts => evalStmts c body .unit env muts) last v env muts
  | .while_ cnd body, _, last, env, muts => do
    .tell (.reset last)
    whileLoop c (fun env => evalExpr c cnd env) (fun env muts => evalStmts c body .unit env muts)
      c.iterLimit env muts
  | .ifElseBlock cnd thn rest, isLast, last, env, muts => do
    let v ← evalExpr c cnd env
    let b ← .lift v.asBool
    if b then evalBlock isLast last (evalStmts c thn .unit env muts)
    else evalElse c rest isLast last env muts
  | .ifThen cnd body, isLast, last, env, muts => do
    let v ← evalExpr c cnd env
    let b ← .lift v.asBool
    if b then evalBlock isLast last (evalStmts c body .unit env muts)
    else keepLast isLast last env muts
  | .return_ e, isLast, _, env, muts => do
    let v ← evalExpr c e env
    .tell (.ret isLast)
    pure (.ret v, env, muts)
  | .exprStmt e, isLast, last, env, muts => do
    let v ← evalExpr c e env
    .tell (.stmt last v isLast)
    if v.isHttpResponse then pure (.ret v, env, muts)
    else pure (.normal (if v.isUnit then last else v), env, muts)
  | .match_ s arms, isLast, last, env, muts => do
    let sv ← evalExpr c s env
    .tell .scrut
    evalArms c arms sv isLast last env muts
  | .break_, _, _, env, muts => pure (.brk, env, muts)
  | .continue_, _, _, env, muts => pure (.cont, env, muts)
  | .memorize e priority, isLast, last, env, muts => do
    let v ← evalExpr c e env
    .update (c.memorize v.display priority)
    keepLast isLast last env muts
  | .forget e days, isLast, last, env, muts => do
    let v ← evalExpr c e env
    .update (c.forget v.display days)
    keepLast isLast last env muts
  | .relate src tgt relation, isLast, last, env, muts => do
    let a ← evalExpr c src env
    let b ← .wrap .pend (evalExpr c tgt env)
    .update (c.relate a.display b.display relation)
    keepLast isLast last env muts

/-- mirrors src/interpreter/execution.rs:1273-1618 -/
def evalStmts (c : Interpreter F W) :
    List (Stmt F) → Value F → Env F → List String → TW F W (Outcome F)
  | [], last, env, muts => pure (.normal last, env, muts)
  | s :: rest, last, env, muts => do
    let out ← evalStmt c s rest.isEmpty last env muts
    match out.1 with
    | .normal v => evalStmts c rest v out.2.1 out.2.2
    | _ => pure out

/-- mirrors src/interpreter/execution.rs:1506-1525 -/
def evalElse (c : Interpreter F W) :
    ElseChain F → Bool → Value F → Env F → List String → TW F W (Outcome F)
  | .none, isLast, last, env, muts => keepLast isLast last env muts
  | .else_ body, isLast, last, env, muts => evalBlock isLast last (evalStmts c body .unit env muts)
  | .elseIf cnd body rest, isLast, last, env, muts => do
    let v ← evalExpr c cnd env
    let b ← .lift v.asBool
    if b then evalBlock isLast last (evalStmts c body .unit env muts)
    else evalElse c rest isLast last env muts

/-- mirrors src/interpreter/execution.rs:1541-1573 -/
def evalArms (c : Interpreter F W) :
    MatchArms F → Value F → Bool → Value F → Env F → List String → TW F W (Outcome F)
  | .none, _, isLast, last, env, muts => keepLast isLast last env muts
  | .else_ body, _, isLast, last, env, muts =>
    evalBlock isLast last (evalStmts c body .unit env muts)
  | .lit test body rest, sv, isLast, last, env, muts =>
    if test.matchesValue sv then evalBlock isLast last (evalStmts c body .unit env muts)
    else evalArms c rest sv isLast last env muts
  | .compare op th body rest, sv, isLast, last, env, muts => do
    let tv ← .wrap .pend (evalExpr c th env)
    if compareValues sv op tv then evalBlock isLast last (evalStmts c body .unit env muts)
    else evalArms c rest sv isLast last env muts
end

/-- What a body run hands back: `eval_statements` on the bound parameters.
mirrors src/interpreter/execution.rs:1127-1173 -/
def evalStatements (c : Interpreter F W) (body : List (Stmt F)) (env : Env F) :
    TW F W (Value F) := do
  let out ← evalStmts c body .unit env []
  match out.1 with
  | .normal v => pure v
  | .ret v => pure v
  | .brk => .fail "break/continue used outside of a loop"
  | .cont => .fail "break/continue used outside of a loop"

end Metalogos.Walk
