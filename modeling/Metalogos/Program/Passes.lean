import Metalogos.Lib.Slots
import Metalogos.Program.Decl

/-!
# The compiler's passes over a program

`Compiler::compile` (`src/compiler.rs:472-676`): imports are resolved, pass 1 gives every declared
name a slot, pass 1.5 compiles the deny handlers, pass 2 compiles the bodies and the main code, and
the dispatch gate checks that each name landed on its own body. A session chunk starts from the tables
the session already has (`with_session`) and leaves new ones behind (`session_base_snapshot`).

Left out of a program: the reflex, vision, origin, database and conversation data, which carry no
code, and `is_pure`, which only the JIT reads.
-/
namespace Metalogos.Program

open Metalogos.Lang Metalogos.Machine Metalogos.Compile Metalogos.Lib

variable {F : Type}

/-! ## Compiled programs -/

/-- mirrors src/bytecode.rs `RuleValueExpr` -/
inductive RuleValueExpr (F : Type) where
  | ident (name : String)
  | fieldAccess (entity field : String)
  | stringLit (s : String)
  | floatLit (f : F)

/-- mirrors src/bytecode.rs `RuleCondition` -/
inductive RuleCondition (F : Type) where
  | contains (left right : RuleValueExpr F)
  | compare (left : RuleValueExpr F) (op : CompareOp) (right : RuleValueExpr F)

/-- mirrors src/bytecode.rs `CompiledRule` -/
structure CompiledRule (F : Type) where
  condition : RuleCondition F
  targetName : String
  field : String
  value : RuleValueExpr F
  priority : Int

/-- mirrors src/bytecode.rs `CompiledFn` -/
structure CompiledFn (F : Type) where
  name : String
  paramCount : Nat
  paramTypes : List String
  code : List (Instr F)

/-- mirrors src/bytecode.rs `CompiledDenyHandler` -/
structure CompiledDenyHandler (F : Type) where
  cls : String
  name : String
  code : List (Instr F)

/-- mirrors src/bytecode.rs `BranchDef` -/
structure BranchDef (F : Type) where
  label : String
  field : String
  op : CompareOp
  threshold : Value F
  target : String

/-- mirrors src/bytecode.rs `MutateData` -/
structure MutateData (F : Type) where
  pattern : String
  exampleCount : Nat
  rollbackThreshold : Option F
  rollbackOp : Option CompareOp
  rollbackMetric : Option String

/-- An instruction of the main code: one a body can hold too, or one only `execute_main_code` runs. -/
inductive MainInstr (F : Type) where
  | instr (i : Instr F)
  | storeGlobal (slot : Nat)
  | makeFluid (variants : Nat)
  | registerPatternRef (idx : Nat)
  | registerLearnable (name : String)
  | adapt (pattern : String)
  | mutate (data : MutateData F)
  | flowPipeline (pipeline : List String) (branchDefs : List (String × List (BranchDef F)))
  | executeRules
  | halt

/-- mirrors src/bytecode.rs `Program` -/
structure CompiledProgram (F : Type) where
  globals : List String
  patterns : List (CompiledFn F)
  rules : List (CompiledRule F)
  denyHandlers : List (CompiledDenyHandler F)
  mainCode : List (MainInstr F)

/-! ## The compiler's state -/

/-- What the compiler knows of the host: the builtin indices, the parked names and the classification,
and the `Debug` text of an expression. -/
structure Registry (F : Type) where
  builtinIdx : String → Option Nat
  parked : String → Option String
  classes : Classification
  debugText : Expr F → String

/-- The session's symbol tables.
mirrors src/compiler.rs:147-158 -/
structure SessionBase where
  globalNames : List String := []
  patternNames : List String := []
  learnableNames : List String := []
  structFields : List (String × List String) := []

/-- mirrors src/compiler.rs `Compiler`, the fields the passes read and write -/
structure Compiler (F : Type) where
  globals : SlotTable String
  patterns : SlotTable String
  patternBase : Nat
  learnables : SlotTable String
  learnableBase : Nat
  structFields : List (String × List String)
  toolNames : List String
  rules : List (CompiledRule F)
  denyIndices : List (String × Nat)
  denyHandlers : List (CompiledDenyHandler F)

/-- mirrors src/compiler.rs:403-438 -/
def Compiler.withSession (base : SessionBase) : Compiler F where
  globals := .ofNames base.globalNames
  patterns := .ofNames base.patternNames
  patternBase := base.patternNames.length
  learnables := .ofNames base.learnableNames
  learnableBase := base.learnableNames.length
  structFields := base.structFields
  toolNames := []
  rules := []
  denyIndices := []
  denyHandlers := []

/-- mirrors src/compiler.rs:443-474 -/
def Compiler.sessionBaseSnapshot (c : Compiler F) : SessionBase where
  globalNames := c.globals.names ""
  patternNames := c.patterns.names ""
  learnableNames := c.learnables.names ""
  structFields := c.structFields

/-- The name tables the body compiler works with. -/
def Compiler.tables (reg : Registry F) (c : Compiler F) : Tables where
  builtinIdx := reg.builtinIdx
  patternIdx := c.patterns.lookup
  learnableIdx := c.learnables.lookup
  globalSlot := c.globals.lookup
  denyHandler := fun cls => c.denyIndices.lookup cls
  isTool := fun name => name ∈ c.toolNames
  parked := reg.parked
  classes := reg.classes

/-! ## Rules -/

/-- mirrors src/compiler.rs:3702-3735 -/
def ruleValueExpr (reg : Registry F) : Expr F → RuleValueExpr F
  | .ident name => .ident name
  | .stringLit s => .stringLit s
  | .floatLit f => .floatLit f
  | .fieldAccess (.ident name) field => .fieldAccess name field
  | e => .ident (reg.debugText e)

def compileCondition (reg : Registry F) : Condition F → RuleCondition F
  | .contains l r => .contains (ruleValueExpr reg l) (ruleValueExpr reg r)
  | .compare l op r => .compare (ruleValueExpr reg l) op (ruleValueExpr reg r)

/-- mirrors src/compiler.rs:3646-3700 -/
def compileRule (reg : Registry F) (r : RuleDecl F) : Except String (CompiledRule F) :=
  match r.target with
  | .ident name => .ok {
      condition := compileCondition reg r.condition, targetName := name, field := r.field,
      value := ruleValueExpr reg r.value, priority := r.priority }
  | _ => .error "rule target must be an identifier"

/-! ## Pass 1 -/

/-- mirrors src/compiler.rs:3821-3827 -/
def ensureGlobal (s : SlotTable String) (name : String) : SlotTable String :=
  if (s.lookup name).isSome then s else s.declare name

/-- mirrors src/compiler.rs:681-1001 -/
def pass1Step (reg : Registry F) (c : Compiler F) : Decl F → Except String (Compiler F)
  | .entityType name fields => .ok { c with structFields := (name, fields) :: c.structFields }
  | .entityRecord name _ _ | .entitySimple name _ | .fluid name _ =>
    .ok { c with globals := ensureGlobal c.globals name }
  | .pattern p => .ok { c with patterns := c.patterns.declare p.name }
  | .learnable name => .ok { c with learnables := c.learnables.declare name }
  | .rule r => do
    let r ← compileRule reg r
    .ok { c with rules := c.rules ++ [r] }
  | .tool name methods => .ok { c with
      patterns := methods.foldl (fun s m => s.declare (methodKey name m.name)) c.patterns
      toolNames := name :: c.toolNames }
  | _ => .ok c

def pass1 (reg : Registry F) (c : Compiler F) (decls : List (Decl F)) : Except String (Compiler F) :=
  decls.foldlM (pass1Step reg) c

/-! ## Pass 1.5: deny handlers -/

section Emit

variable [FloatModel F]

/-- mirrors src/compiler.rs:267-301, one declaration; `i` is its position -/
def denyStep (reg : Registry F) (c : Compiler F) : Decl F × Nat → Except String (Compiler F)
  | (.onDeny cls body, i) => do
    let (frag, _) ← compileStmts (c.tables reg) (.plain false) body
      { locals := fun _ => none, next := 0, muts := [], fresh := false } 0
    .ok { c with
      denyIndices := (cls, c.denyHandlers.length) :: c.denyIndices
      denyHandlers := c.denyHandlers ++ [{
        cls := cls, name := "__on_deny_" ++ toString i
        code := frag.map (·.resolve 0 0) ++ [.const .unit, .return_] }] }
  | _ => .ok c

def compileDenyHandlers (reg : Registry F) (c : Compiler F) (decls : List (Decl F)) :
    Except String (Compiler F) :=
  decls.zipIdx.foldlM (denyStep reg) c

/-! ## Pass 2 -/

/-- What pass 2 has emitted: the main code and the bodies. -/
structure Emitted (F : Type) where
  code : List (MainInstr F)
  bodies : List (CompiledFn F)

def Emitted.push (o : Emitted F) (is : List (MainInstr F)) : Emitted F := { o with code := o.code ++ is }

/-- An expression of the main code: no locals, hidden slots above the globals.
mirrors src/compiler.rs:1398-1411 -/
def compileInit (reg : Registry F) (c : Compiler F) (o : Emitted F) (e : Expr F) :
    Except String (Emitted F) := do
  let (frag, _) ← compileExpr (c.tables reg) e
    { locals := fun _ => none, next := c.globals.next, muts := [], fresh := false } o.code.length
  .ok (o.push (frag.map fun em => .instr (em.resolve 0 0)))

/-- A field without an initializer is `Unit`.
mirrors src/compiler.rs:1032-1040 -/
def compileField (reg : Registry F) (c : Compiler F) (o : Emitted F) :
    Option (Expr F) → Except String (Emitted F)
  | some e => compileInit reg c o e
  | none => .ok (o.push [.instr (.const .unit)])

/-- A body and its entry in the table.
mirrors src/compiler.rs:1060-1097, :1325-1353 -/
def compileFn (reg : Registry F) (c : Compiler F) (o : Emitted F) (p : FnDecl F) :
    Except String (Emitted F) := do
  let is ← compilePatternBody (c.tables reg) (p.params.map Prod.fst) p.body
  .ok { code := o.code ++ [.registerPatternRef o.bodies.length]
        bodies := o.bodies ++ [{
          name := p.name, paramCount := p.params.length, paramTypes := p.params.map Prod.snd
          code := is }] }

/-- mirrors src/compiler.rs:3621-3643 -/
def evalConstExpr : Expr F → Value F
  | .stringLit s => .string s
  | .floatLit f => .float f
  | _ => .unit

def compileBranches (bs : List (String × List (Branch F))) : List (String × List (BranchDef F)) :=
  bs.map fun (step, branches) => (step, branches.map fun b => {
    label := b.label, field := b.field, op := b.op, threshold := evalConstExpr b.threshold
    target := b.target })

/-- mirrors src/compiler.rs:1006-1396 -/
def pass2Step (reg : Registry F) (c : Compiler F) (o : Emitted F) :
    Decl F → Except String (Emitted F)
  | .entityRecord name typeName inits =>
    match c.structFields.lookup typeName with
    | none => .error ("compile: unknown struct type: " ++ typeName)
    | some fields => do
      let o ← (recordInits fields inits).foldlM (compileField reg c) o
      .ok (o.push [.instr (.makeStruct typeName fields),
        .storeGlobal ((c.globals.lookup name).getD 0)])
  | .entitySimple name value => do
    let o ← compileInit reg c o value
    .ok (o.push [.storeGlobal ((c.globals.lookup name).getD 0)])
  | .fluid name variants => do
    let o ← variants.foldlM (fun o v => do
      let o ← compileInit reg c o v.1
      .ok (o.push [.instr (.const (.float v.2))])) o
    .ok (o.push [.makeFluid variants.length, .storeGlobal ((c.globals.lookup name).getD 0)])
  | .pattern p => compileFn reg c o p
  | .tool name methods =>
    methods.foldlM (fun o m => compileFn reg c o { m with name := methodKey name m.name }) o
  | .learnable name => .ok (o.push [.registerLearnable name])
  | .memorize value priority => do
    let o ← compileInit reg c o value
    .ok (o.push [.instr (.memorize priority)])
  | .forget query days => do
    let o ← compileInit reg c o query
    .ok (o.push [.instr (.forget days)])
  | .relate source target relation => do
    let o ← compileInit reg c o source
    let o ← compileInit reg c o target
    .ok (o.push [.instr (.const (.string relation)), .instr .relate])
  | .adapt pattern input output => do
    let o ← compileInit reg c o input
    let o ← compileInit reg c o output
    .ok (o.push [.adapt pattern])
  | .mutate m => do
    let o ← m.examples.foldlM (fun o ex => do
      let o ← compileInit reg c o ex.1
      compileInit reg c o ex.2) o
    .ok (o.push [.mutate {
      pattern := m.pattern, exampleCount := m.examples.length
      rollbackThreshold := m.rollbackThreshold, rollbackOp := m.rollbackOp
      rollbackMetric := m.rollbackMetric }])
  | .flow f => do
    let o ← compileInit reg c (if c.rules.isEmpty then o else o.push [.executeRules]) f.source
    .ok (o.push [.flowPipeline f.pipeline (compileBranches f.branchDefs)])
  | .entityType _ _ | .rule _ | .onDeny _ _ | .import_ _ _ | .other => .ok o

def pass2 (reg : Registry F) (c : Compiler F) (decls : List (Decl F)) : Except String (Emitted F) := do
  let o ← decls.foldlM (pass2Step reg c) ⟨[], []⟩
  .ok (o.push [.halt])

/-! ## The dispatch gate -/

/-- The learnables the main code registers, in order. -/
def registeredLearnables (code : List (MainInstr F)) : List String :=
  code.filterMap fun
    | .registerLearnable name => some name
    | _ => none

/-- One name of a dispatch table against the bodies of the chunk, which start at slot `base`.
mirrors src/compiler.rs:524-550, :618-648 -/
def gateEntry (kind foreign table : String) (base : Nat) (bodies : List String) (e : String × Nat) :
    Except String Unit :=
  if e.2 < base then .ok ()
  else match bodies[e.2 - base]? with
    | some body =>
      if body = e.1 then .ok ()
      else .error ("compile: " ++ kind ++ " dispatch table corrupt — '" ++ e.1 ++ "' maps to slot "
        ++ toString e.2 ++ " holding '" ++ body ++ "' (" ++ foreign
        ++ "); compiler invariant violation, report it")
    | none => .error ("compile: " ++ kind ++ " dispatch table corrupt — '" ++ e.1 ++ "' maps to slot "
        ++ toString e.2 ++ " beyond the " ++ table ++ " (" ++ toString bodies.length
        ++ " entries); compiler invariant violation, report it")

def patternGate (c : Compiler F) (o : Emitted F) : Except String Unit :=
  c.patterns.entries.forM (gateEntry "pattern" "the #1616 class: a call would execute a foreign pattern"
    "body table" c.patternBase (o.bodies.map (·.name)))

def learnableGate (c : Compiler F) (o : Emitted F) : Except String Unit :=
  c.learnables.entries.forM (gateEntry "learnable" "the #1616 class for LlmCall"
    "RegisterLearnable emission" c.learnableBase (registeredLearnables o.code))

/-! ## The whole compilation -/

/-- mirrors src/compiler.rs:472-676 -/
def compile (reg : Registry F) (modules : String → Except String (List (Decl F))) (fuel : Nat)
    (base : SessionBase) (decls : List (Decl F)) :
    Except String (CompiledProgram F × SessionBase) := do
  let all ← resolveImports modules fuel decls
  let c ← pass1 reg (.withSession base) all
  let c ← compileDenyHandlers reg c all
  let o ← pass2 reg c all
  patternGate c o
  learnableGate c o
  .ok ({ globals := c.globals.names "", patterns := o.bodies, rules := c.rules
         denyHandlers := c.denyHandlers, mainCode := o.code }, c.sessionBaseSnapshot)

end Emit

end Metalogos.Program
