import Metalogos.Lib.Dict
import Metalogos.Lib.FirstWins
import Metalogos.Machine.Exec
import Metalogos.Program.Passes

/-!
# The machine object and its reset

All fields of `Vm` (`src/vm.rs:48-237`): the tables a program brings, the state the dispatch loop works
on, and the stores behind the builtins. `Vm::new`, `load_program` and `reset_for_reuse`
(`src/vm.rs:395-444`, `:473-640`, `:741-841`) say what becomes of each of them.

`reset_fresh`: a reset machine, whatever was done with it before, is a new one with the program loaded,
but for the call depth.
-/
namespace Metalogos.Pool

open Metalogos.Lang Metalogos.Lib Metalogos.Machine Metalogos.Program

/-- What the stores of a machine hold. Neither the load nor the reset looks into any of it. -/
structure Parts where
  Learnable : Type
  SkillIndex : Type
  ReflexDecl : Type
  ReflexSeqDecl : Type
  ReflexGenDecl : Type
  ReflexModel : Type
  VisionDecl : Type
  OriginDecl : Type
  VisionArtifact : Type
  MediaEntry : Type
  MemoryEntry : Type
  Relation : Type
  Conversation : Type
  ConversationConfig : Type
  Event : Type
  PatternStats : Type
  DistillState : Type
  DistillHub : Type
  Connection : Type

/-- The instructions of `main_code` that a load scans for. -/
inductive MainCode (T : Parts) (F : Type) where
  | registerPattern (f : CompiledFn F)
  | registerLearnable (info : T.Learnable)
  | other (i : MainInstr F)

/-- The fields of `Program` that a load reads; a declaration with its name.
mirrors src/bytecode.rs:657-754 -/
structure Program (T : Parts) (F : Type) where
  globals : List String
  patterns : List (CompiledFn F)
  learnables : List T.Learnable
  rules : List (CompiledRule F)
  skillIndices : List T.SkillIndex
  reflexDecls : List (String × T.ReflexDecl)
  reflexSeqDecls : List (String × T.ReflexSeqDecl)
  reflexGenDecls : List (String × T.ReflexGenDecl)
  visionDecls : List (String × T.VisionDecl)
  originDecls : List (String × T.OriginDecl)
  denyHandlers : List (CompiledDenyHandler F)
  dbUrl : Option String
  capabilityPermits : List String
  dbUrlEnv : Option String
  memoryPersistPath : Option String
  conversationConfig : T.ConversationConfig
  schemaDdl : List String
  mainCode : List (MainCode T F)
  collectionsLoaded : Bool

/-- An id-indexed store that counts its ids up: `VisionRegistry`, `MediaStore`. The key a media store
seals its bytes with is drawn when it is made, and no program sees it. -/
structure Registry (α : Type) where
  entries : Dict Nat α
  nextId : Nat

def Registry.new {α : Type} : Registry α := ⟨.empty, 0⟩

/-- The tables of a machine: a route body reads them only. -/
structure Tables (T : Parts) (F : Type) where
  capabilityPermits : List String
  globalNames : List String
  patterns : List (CompiledFn F)
  rules : List (CompiledRule F)
  skillIndices : List T.SkillIndex
  collectionsLoaded : Bool
  conversationConfig : T.ConversationConfig
  reflexNames : Dict String Nat
  denyHandlers : List (CompiledDenyHandler F)
  visionDecls : Dict String T.VisionDecl
  originDecls : Dict String T.OriginDecl
  memoryPersistPath : Option String
  dbUrl : Option String
  dbUrlEnv : Option String
  dbSchemaDdl : List String
  distillHub : Option T.DistillHub

/-- What a builtin or a call of a learnable pattern can change, and the context of the request. -/
structure Stores (T : Parts) (F : Type) where
  learnables : List (T.Learnable × List (String × String))
  learnableRegisterCursor : Option Nat
  memory : List T.MemoryEntry
  relations : List T.Relation
  dbConn : Option T.Connection
  dbOpenFailed : Bool
  dbOpenError : Option String
  mutateLog : List String
  auditLog : List String
  propagatedConfidence : F
  serverJsonBody : Option (Value F)
  serverQueryParams : Option (Dict String String)
  serverPathParams : Option (Dict String String)
  serverRequestHeaders : Option (Dict String String)
  serverUserRoles : List String
  conversations : Dict String T.Conversation
  eventLog : List T.Event
  eventNextId : Nat
  patternStats : Dict String T.PatternStats
  reflexRegistry : List T.ReflexModel
  visionRegistry : Registry T.VisionArtifact
  mediaStore : Registry T.MediaEntry
  distillStates : Dict String T.DistillState

/-- mirrors src/vm.rs:48-237; `builtins` and `builtin_names` are one table for the whole process, which
nothing changes (`src/vm.rs:252-267`). -/
structure Vm (T : Parts) (F : Type) extends Tables T F, Stores T F where
  labelEnv : LabelEnv
  callDepth : Nat
  valueRegisters : List (Value F)
  globals : List (Value F)
  currentDenyEvent : Option (Value F)

/-- What a machine is made with: the default of a configuration, and the construction of the declared
models. -/
structure Runtime (T : Parts) where
  defaultConversation : T.ConversationConfig
  buildReflexModel : T.ReflexDecl → Except String T.ReflexModel
  buildReflexSeqModel : T.ReflexSeqDecl → Except String T.ReflexModel
  buildReflexGenModel : T.ReflexGenDecl → Except String T.ReflexModel

variable {T : Parts} {F : Type} [FloatModel F]

/-- mirrors src/vm.rs:395-444 -/
def Vm.new (R : Runtime T) : Vm T F where
  labelEnv := fun _ => none
  capabilityPermits := []
  callDepth := 0
  valueRegisters := []
  globals := []
  globalNames := []
  patterns := []
  learnables := []
  learnableRegisterCursor := none
  memory := []
  relations := []
  rules := []
  skillIndices := []
  dbConn := none
  dbUrl := none
  dbUrlEnv := none
  dbSchemaDdl := []
  dbOpenFailed := false
  dbOpenError := none
  mutateLog := []
  auditLog := []
  propagatedConfidence := FloatModel.one F
  collectionsLoaded := false
  serverJsonBody := none
  serverQueryParams := none
  serverPathParams := none
  serverRequestHeaders := none
  serverUserRoles := []
  conversations := .empty
  conversationConfig := R.defaultConversation
  eventLog := []
  eventNextId := 0
  patternStats := .empty
  reflexRegistry := []
  reflexNames := .empty
  currentDenyEvent := none
  denyHandlers := []
  visionRegistry := .new
  mediaStore := .new
  visionDecls := .empty
  originDecls := .empty
  memoryPersistPath := none
  distillStates := .empty
  distillHub := none

/-! ## Loading a program -/

section Load

omit [FloatModel F]

/-- mirrors src/bytecode.rs:821-839 -/
def Program.preRegisteredPatterns (p : Program T F) : List (CompiledFn F) :=
  if p.patterns.isEmpty then
    p.mainCode.filterMap fun
      | .registerPattern f => some f
      | _ => none
  else p.patterns

/-- mirrors src/bytecode.rs:849-857 -/
def Program.preRegisteredLearnables (p : Program T F) : List T.Learnable :=
  p.mainCode.filterMap fun
    | .registerLearnable info => some info
    | _ => none

/-- mirrors src/vm.rs:553-561 -/
def Program.learnableTable (p : Program T F) : List (T.Learnable × List (String × String)) :=
  let scanned := p.preRegisteredLearnables
  (if scanned.isEmpty then p.learnables else scanned).map (·, [])

/-- Models are built one after another, and filed under the next index. -/
def registerModels {D M : Type} (build : D → Except String M) (decls : List (String × D))
    (models : List M) (names : Dict String Nat) : Except String (List M × Dict String Nat) :=
  decls.foldlM (fun (ms, ns) (name, d) => do
    let model ← build d
    .ok (ms ++ [model], ns.set name ms.length)) (models, names)

/-- A table of declarations after more of them were inserted. -/
def insertAll {D : Type} (decls : List (String × D)) (d : Dict String D) : Dict String D :=
  decls.foldl (fun d p => d.set p.1 p.2) d

/-- The models of a program, behind those there are.
mirrors src/vm.rs:533-537, :577-586 -/
def buildModels (R : Runtime T) (p : Program T F) (models : List T.ReflexModel)
    (names : Dict String Nat) : Except String (List T.ReflexModel × Dict String Nat) := do
  let (models, names) ← registerModels R.buildReflexModel p.reflexDecls models names
  let (models, names) ← registerModels R.buildReflexSeqModel p.reflexSeqDecls models names
  registerModels R.buildReflexGenModel p.reflexGenDecls models names

/-- The fields a load sets. -/
def install (p : Program T F) (built : List T.ReflexModel × Dict String Nat) (vm : Vm T F) : Vm T F :=
  { vm with
    globals := List.replicate p.globals.length .unit
    globalNames := p.globals
    collectionsLoaded := p.collectionsLoaded
    capabilityPermits := p.capabilityPermits.dedup
    denyHandlers := p.denyHandlers
    patterns := p.preRegisteredPatterns
    rules := byPriority (·.priority) p.rules
    skillIndices := p.skillIndices
    reflexRegistry := built.1
    reflexNames := built.2
    learnables := p.learnableTable
    learnableRegisterCursor := some 0
    memoryPersistPath := p.memoryPersistPath
    conversationConfig := p.conversationConfig
    visionDecls := insertAll p.visionDecls vm.visionDecls
    originDecls := insertAll p.originDecls vm.originDecls
    dbUrl := p.dbUrl
    dbUrlEnv := p.dbUrlEnv
    dbSchemaDdl := p.schemaDdl }

/-- A load that fails leaves a machine its caller drops.
mirrors src/vm.rs:473-640 -/
def loadProgram (R : Runtime T) (p : Program T F) (vm : Vm T F) : Except String (Vm T F) :=
  (buildModels R p vm.reflexRegistry vm.reflexNames).map (install p · vm)

/-! ## Reset -/

/-- mirrors src/vm.rs:4578-4584 -/
def clearServerContext (vm : Vm T F) : Vm T F :=
  { vm with
    serverJsonBody := none
    serverQueryParams := none
    serverPathParams := none
    serverRequestHeaders := none
    serverUserRoles := [] }

end Load

/-- The fields a reset sets itself, in its steps 0 to 6.
mirrors src/vm.rs:741-833 -/
def wipe (vm : Vm T F) : Vm T F :=
  let vm := { vm with dbConn := none, dbOpenFailed := false, dbOpenError := none }
  let vm := { vm with
    valueRegisters := [], labelEnv := fun _ => none, mutateLog := []
    propagatedConfidence := FloatModel.one F }
  let vm := { vm with
    memory := [], relations := [], mediaStore := .new, visionRegistry := .new
    distillStates := .empty }
  let vm := { vm with currentDenyEvent := none }
  let vm := { vm with
    reflexRegistry := [], reflexNames := .empty, visionDecls := .empty, originDecls := .empty
    learnables := [], learnableRegisterCursor := none }
  let vm := { vm with
    auditLog := [], conversations := .empty, eventLog := [], eventNextId := 0
    patternStats := .empty }
  { clearServerContext vm with distillHub := none }

/-- mirrors src/vm.rs:741-841 -/
def resetForReuse (R : Runtime T) (p : Program T F) (vm : Vm T F) : Except String (Vm T F) :=
  loadProgram R p (wipe vm)

/-- The same machine at another call depth. -/
def Vm.atDepth (vm : Vm T F) (depth : Nat) : Vm T F := { vm with callDepth := depth }

/-- What a reset sets and what a load sets is every field but the call depth. -/
theorem install_wipe (R : Runtime T) (p : Program T F) (built : List T.ReflexModel × Dict String Nat)
    (vm : Vm T F) : install p built (wipe vm) = (install p built (Vm.new R)).atDepth vm.callDepth :=
  rfl

/-- A reset machine is a new one with the program loaded; the reset fails when that load does. -/
theorem reset_fresh (R : Runtime T) (p : Program T F) (vm : Vm T F) :
    resetForReuse R p vm = (loadProgram R p (Vm.new R)).map (·.atDepth vm.callDepth) := by
  have hbuilt : buildModels R p (wipe vm).reflexRegistry (wipe vm).reflexNames =
      buildModels R p (Vm.new (F := F) R).reflexRegistry (Vm.new (F := F) R).reflexNames := rfl
  rw [resetForReuse, loadProgram, loadProgram, hbuilt]
  cases buildModels R p (Vm.new (F := F) R).reflexRegistry (Vm.new (F := F) R).reflexNames with
  | error e => rfl
  | ok built => exact congrArg Except.ok (install_wipe R p built vm)

end Metalogos.Pool
