import Metalogos.Lib.CodeAt
import Metalogos.Refine.Calls

/-!
# What is simulated

The statements of the simulation, one per syntactic class, as predicates on the piece of syntax.
All have one shape: the piece was compiled to `frag`, which stands in the code at `b`; the check
passed; the states are related. Then the machine simulates the tree-walker's evaluation, and the
states are related again where it ends.

`Spot` is the part of such a statement that does not depend on the piece: the fixed part, the
protected cells, the context, the frame and the registers at the start, and the places control can
go to. `Done` reads a control signal as one of these places.
-/
namespace Metalogos.Refine

open Metalogos.Lang Metalogos.Machine Metalogos.Compile Metalogos.Walk Metalogos.Lib

variable {F W : Type}

-- The equations of the three recursions are settled here, before the modules that unfold them.
attribute [local simp] evalExpr evalExprs evalElseValue evalArmsValue evalStmt evalStmts evalElse
  evalArms okExpr okExprs okStmt okStmts okElse okArms compileExpr compileExprs compileStmt
  compileStmts compileElse compileArms flowStmt flowStmts

/-! ## Code with its holes filled -/

/-- The instructions of a fragment inside a loop with these targets. -/
def fill (brk cont : Nat) (frag : Frag F) : List (Instr F) := frag.map (·.resolve brk cont)

section

variable {brk cont : Nat}

@[simp] theorem fill_nil : fill brk cont ([] : Frag F) = [] := rfl

@[simp] theorem fill_append (a b : Frag F) :
    fill brk cont (a ++ b) = fill brk cont a ++ fill brk cont b := by
  simp [fill]

@[simp] theorem fill_code (is : List (Instr F)) : fill brk cont (Compile.code is) = is := by
  simp [fill, Compile.code, Function.comp_def, Emit.resolve]

@[simp] theorem length_fill (frag : Frag F) : (fill brk cont frag).length = frag.length := by
  simp [fill]

@[simp] theorem length_code (is : List (Instr F)) : (Compile.code is).length = is.length := by
  simp [Compile.code]

@[simp] theorem length_resolve {b c : Nat} (frag : Frag F) :
    (resolve b c frag).length = frag.length := by
  simp [resolve]

/-- A loop filled the holes of its body already. -/
@[simp] theorem fill_resolve {b c : Nat} (frag : Frag F) :
    fill brk cont (resolve b c frag) = fill b c frag := by
  simp [fill, resolve, Function.comp_def, Emit.resolve]

end

/-! ## Contexts -/

/-- A context fits the state of the compiler. -/
structure Ctx.Ok (c : Ctx) (fresh : Bool) : Prop where
  fresh : c.mode.isValue = true → fresh = true
  tail : c.tail = true → c.mode.inner = .plain false ∧ c.inArm = false
  arm : c.mode = .arm → c.inArm = true

namespace Ctx.Ok

variable {c : Ctx} {fresh : Bool}

theorem pend (h : c.Ok fresh) : c.pend.Ok fresh := ⟨h.fresh, h.tail, h.arm⟩

theorem toArm (c : Ctx) : c.arm.Ok true := ⟨fun _ => rfl, nofun, fun _ => rfl⟩

theorem loop (c : Ctx) : c.loop.Ok fresh := ⟨nofun, nofun, nofun⟩

theorem blk (h : c.Ok fresh) (isLast : Bool) : (c.blk isLast).Ok fresh where
  fresh := inner_fresh h.fresh
  tail ht := by
    simp only [Ctx.blk, Bool.and_eq_true] at ht
    obtain ⟨hm, ha⟩ := h.tail ht.1
    refine ⟨?_, ha⟩
    rw [show (c.blk isLast).mode = c.mode.inner from rfl, hm]
    rfl
  arm hm := by
    simp only [Ctx.blk] at hm
    cases hc : c.mode <;> simp [hc, Mode.inner] at hm

end Ctx.Ok

/-! ## Ends of statements -/

structure Spot (F : Type) where
  X : Fixed F
  P : Nat → Prop
  c : Ctx
  frame : List (Value F)
  rs : List (Value F)
  stale : Value F
  stop : Nat
  brk : Nat
  cont : Nat
  L : Base

/-- Control went to `target` with a signal of the enclosing loop. -/
def Spot.Leaves (g : Spot F) (T : List String) (target : Nat) (env : Env F) (w : W)
    (o : Place F W) : Prop :=
  g.c.mode = .plain true ∧ ∃ frame le, o = .inl (target, g.X.mach frame g.rs le w) ∧
    Ext g.P g.c.st g.frame frame ∧ LabelsIn T le ∧ g.L.Holds env frame

/-- The body's result is `v`: the machine has halted with it, or stands at the end of a tail with
it on the stack. -/
def Spot.Returns (g : Spot F) (keep : Bool) (v : Value F) (w : W) (o : Place F W) : Prop :=
  g.c.inArm = false ∧ ((∃ m, o = .inr (.ok v, m) ∧ m.vm.world = w) ∨
    keep = true ∧ ∃ frame le, o = .inl (g.stop, g.X.mach (frame ++ [v]) g.rs le w))

/-- The arm's result is `v`. -/
def Valued (T : List String) (X : Fixed F) (P : Nat → Prop) (st : Bool)
    (frame rs : List (Value F)) (pc : Nat) (v : Value F) (w : W) (o : Place F W) : Prop :=
  ∃ frame' le, o = .inl (pc, X.mach frame' (v :: rs) le w) ∧ Ext P st frame frame' ∧ LabelsIn T le

/-- Where a statement or a block leaves the machine; `post` relates the states when it completes.
Only the last statement of an arm may end it early. -/
def Spot.Done (g : Spot F) (T : List String) (isLast : Bool)
    (post : Env F → List (Value F) → Prop) (out : Outcome F) (w : W) (o : Place F W) : Prop :=
  match out.1 with
  | .normal v =>
    if g.c.keep isLast then
      ∃ frame u le, o = .inl (g.stop, g.X.mach (frame ++ [u]) g.rs le w) ∧
        (g.c.precise = true → u = v)
    else
      ∃ frame regs le, o = .inl (g.stop, g.X.mach frame regs le w) ∧
        Ext g.P g.c.st g.frame frame ∧ Regs g.c.mode g.rs g.stale v regs ∧ LabelsIn T le ∧
        post out.2.1 frame
  | .brk => g.Leaves T g.brk out.2.1 w o
  | .cont => g.Leaves T g.cont out.2.1 w o
  | .ret v =>
    if g.c.mode = .arm then isLast = true ∧ Valued T g.X g.P g.c.st g.frame g.rs g.stop v w o
    else g.Returns (g.c.keep isLast) v w o

/-- After a `return`, `break` or `continue` at the end of a block, nothing of the block is left to
run. -/
def Stops (terminates : Bool) (mode : Mode) (out : Outcome F) (o : Place F W) : Prop :=
  terminates = true → match out.1 with
    | .normal _ => False
    | .ret _ => mode ≠ .arm → ∃ r, o = .inr r
    | _ => True

/-- The last statement leaves the block. -/
def endsInTerminator (ss : List (Stmt F)) : Bool := (ss.getLast?.map stmtIsTerminator).getD false

/-! ## The simulations -/

variable [FloatModel F]

/-- What a run needs from its surroundings: linked tables, and room for `k` nested `try`s. -/
structure Runs (S : Setup F W) (X : Fixed F) (d k : Nat) : Prop where
  linked : Linked S X.globals
  depth : X.depth + k ≤ S.maxDepth
  fuel : k ≤ d

section

variable (S : Setup F W) (p : Policy F) (T : List String)

def ExprSim (e : Expr F) : Prop :=
  ∀ ⦃X : Fixed F⦄ ⦃d k : Nat⦄ ⦃code : List (Instr F)⦄ ⦃Γ : Scope⦄ ⦃c : Ctx⦄ ⦃cs cs' : CState⦄
    ⦃b b' : Nat⦄ ⦃frag : Frag F⦄ ⦃brk cont : Nat⦄ ⦃env : Env F⦄ ⦃frame regs : List (Value F)⦄
    ⦃le : LabelEnv⦄ ⦃w : W⦄,
    Runs S X d k → compileExpr S.tables e cs b = .ok (frag, cs') → okExpr p k Γ e = true →
    CodeAt code b (fill brk cont frag) → b' = b + frag.length → Sync Γ cs env frame →
    LabelsIn T le →
    Simulates (S.machine d code) (Clean c) (evalExpr S.walk e env) w
      (.inl (b, X.mach frame regs le w))
      (Pushed T X (· < cs.next) c.st frame regs b' fun v => [v])
      (Fails T X (· < cs.next) c.st frame)

def ExprsSim (es : List (Expr F)) : Prop :=
  ∀ ⦃X : Fixed F⦄ ⦃d k : Nat⦄ ⦃code : List (Instr F)⦄ ⦃Γ : Scope⦄ ⦃c : Ctx⦄ ⦃cs cs' : CState⦄
    ⦃b b' : Nat⦄ ⦃frag : Frag F⦄ ⦃brk cont : Nat⦄ ⦃env : Env F⦄ ⦃frame regs : List (Value F)⦄
    ⦃le : LabelEnv⦄ ⦃w : W⦄,
    Runs S X d k → compileExprs S.tables es cs b = .ok (frag, cs') → okExprs p k Γ es = true →
    CodeAt code b (fill brk cont frag) → b' = b + frag.length → Sync Γ cs env frame →
    LabelsIn T le →
    Simulates (S.machine d code) (Clean c) (evalExprs S.walk es env) w
      (.inl (b, X.mach frame regs le w))
      (fun vs w o => vs.length = es.length ∧
        Pushed T X (· < cs.next) c.st frame regs b' id vs w o)
      (Fails T X (· < cs.next) c.st frame)

/-- The statements of a block, compiled by kind. An empty block has no running value. -/
def StmtsSim (ss : List (Stmt F)) : Prop :=
  ∀ ⦃g : Spot F⦄ ⦃d k : Nat⦄ ⦃code : List (Instr F)⦄ ⦃kind : BodyKind⦄ ⦃Γ : Scope⦄
    ⦃cs cs' : CState⦄ ⦃b : Nat⦄ ⦃frag : Frag F⦄ ⦃env : Env F⦄ ⦃muts : List String⦄ ⦃last : Value F⦄
    ⦃regs : List (Value F)⦄ ⦃le : LabelEnv⦄ ⦃w : W⦄,
    Runs S g.X d k → compileStmts S.tables kind ss cs b = .ok (frag, cs') →
    kind.mode = g.c.mode → kind.keeps = g.c.tail →
    okStmts p k g.c.mode cs.fresh Γ ss = true → CodeAt code b (fill g.brk g.cont frag) →
    g.stop = b + frag.length → g.c.Ok cs.fresh → Sync Γ cs env g.frame → Guard g.P Γ cs →
    g.L.Inside Γ cs (letsStmts ss) (loopVarsStmts ss) → Regs g.c.mode g.rs g.stale last regs →
    LabelsIn T le → (ss = [] → last = .unit) →
    Simulates (S.machine d code) (Clean g.c) (evalStmts S.walk ss last env muts) w
      (.inl (b, g.X.mach g.frame regs le w))
      (fun out w o => g.Done T true (fun env' frame' =>
        Sync (Γ.afters g.c.mode cs.fresh ss) cs' env' frame') out w o ∧
        Stops (endsInTerminator ss) g.c.mode out o)
      (Fails T g.X g.P g.c.st g.frame)

def StmtSim (s : Stmt F) : Prop :=
  ∀ ⦃g : Spot F⦄ ⦃d k : Nat⦄ ⦃code : List (Instr F)⦄ ⦃Γ : Scope⦄ ⦃cs cs' : CState⦄ ⦃b : Nat⦄
    ⦃frag : Frag F⦄ ⦃env : Env F⦄ ⦃muts : List String⦄ ⦃isLast : Bool⦄ ⦃last : Value F⦄
    ⦃regs : List (Value F)⦄ ⦃le : LabelEnv⦄ ⦃w : W⦄,
    Runs S g.X d k → compileStmt S.tables g.c.mode (g.c.keep isLast) s cs b = .ok (frag, cs') →
    okStmt p k g.c.mode cs.fresh Γ s = true → CodeAt code b (fill g.brk g.cont frag) →
    g.stop = b + frag.length → g.c.Ok cs.fresh → Sync Γ cs env g.frame → Guard g.P Γ cs →
    g.L.Inside Γ cs (letsStmt s) (loopVarsStmt s) → Regs g.c.mode g.rs g.stale last regs →
    LabelsIn T le →
    Simulates (S.machine d code) (Clean g.c) (evalStmt S.walk s isLast last env muts) w
      (.inl (b, g.X.mach g.frame regs le w))
      (fun out w o => g.Done T isLast (fun env' frame' =>
        Sync (Γ.after g.c.mode cs.fresh s) cs' env' frame') out w o ∧
        Stops (stmtIsTerminator s) g.c.mode out o)
      (Fails T g.X g.P g.c.st g.frame)

/-- What follows the first branch of an `if` statement. -/
def ElseSim (rest : ElseChain F) : Prop :=
  ∀ ⦃g : Spot F⦄ ⦃d k : Nat⦄ ⦃code : List (Instr F)⦄ ⦃kind : BodyKind⦄ ⦃Γ : Scope⦄
    ⦃cs cs' : CState⦄ ⦃b : Nat⦄ ⦃frag : Frag F⦄ ⦃env : Env F⦄ ⦃muts : List String⦄ ⦃isLast : Bool⦄
    ⦃last : Value F⦄ ⦃regs : List (Value F)⦄ ⦃le : LabelEnv⦄ ⦃w : W⦄,
    Runs S g.X d k → compileElse S.tables kind rest cs b = .ok (frag, cs') →
    kind.mode = g.c.mode.inner → kind.keeps = g.c.keep isLast → kind ≠ .arm →
    okElse p k g.c.mode.inner cs.fresh Γ rest = true → CodeAt code b (fill g.brk g.cont frag) →
    g.stop = b + frag.length → g.c.Ok cs.fresh → Sync Γ cs env g.frame → Guard g.P Γ cs →
    g.L.Inside Γ cs (letsElse rest) (loopVarsElse rest) → Regs g.c.mode g.rs g.stale last regs →
    LabelsIn T le →
    Simulates (S.machine d code) (Clean g.c) (evalElse S.walk rest isLast last env muts) w
      (.inl (b, g.X.mach g.frame regs le w))
      (g.Done T isLast fun env' frame' =>
        Sync (Γ.afterElse g.c.mode.inner cs.fresh rest) cs' env' frame')
      (Fails T g.X g.P g.c.st g.frame)

/-- The instruction that brings the scrutinee to the top. -/
def Loads (d : Nat) (code : List (Instr F)) (X : Fixed F) (frame : List (Value F)) (load : Instr F)
    (sv : Value F) : Prop :=
  ∀ ⦃pc : Nat⦄ ⦃regs : List (Value F)⦄ ⦃le : LabelEnv⦄ ⦃w : W⦄, code[pc]? = some load →
    (S.machine d code).Gets (.inl (pc, X.mach frame regs le w))
      (.inl (pc + 1, X.mach (frame ++ [sv]) regs le w))

/-- The arms of a `match` statement. -/
def ArmsSim (arms : MatchArms F) : Prop :=
  ∀ ⦃g : Spot F⦄ ⦃d k : Nat⦄ ⦃code : List (Instr F)⦄ ⦃kind : BodyKind⦄ ⦃load : Instr F⦄ ⦃Γ : Scope⦄
    ⦃cs cs' : CState⦄ ⦃b : Nat⦄ ⦃frag : Frag F⦄ ⦃sv : Value F⦄ ⦃env : Env F⦄ ⦃muts : List String⦄
    ⦃isLast : Bool⦄ ⦃last : Value F⦄ ⦃regs : List (Value F)⦄ ⦃le : LabelEnv⦄ ⦃w : W⦄,
    Runs S g.X d k → compileArms S.tables kind load arms cs b = .ok (frag, cs') →
    Loads S d code g.X g.frame load sv →
    kind.mode = g.c.mode.inner → kind.keeps = g.c.keep isLast → kind ≠ .arm →
    okArms p k g.c.mode.inner cs.fresh Γ arms = true → CodeAt code b (fill g.brk g.cont frag) →
    g.stop = b + frag.length → g.c.Ok cs.fresh → Sync Γ cs env g.frame → Guard g.P Γ cs →
    g.L.Inside Γ cs (letsArms arms) (loopVarsArms arms) → Regs g.c.mode g.rs g.stale last regs →
    LabelsIn T le →
    Simulates (S.machine d code) (Clean g.c) (evalArms S.walk arms sv isLast last env muts) w
      (.inl (b, g.X.mach g.frame regs le w))
      (g.Done T isLast fun env' frame' =>
        Sync (Γ.afterArms g.c.mode.inner cs.fresh arms) cs' env' frame')
      (Fails T g.X g.P g.c.st g.frame)

/-- What follows the first arm of a block `if` expression. -/
def ElseValueSim (rest : ElseChain F) : Prop :=
  ∀ ⦃X : Fixed F⦄ ⦃d k : Nat⦄ ⦃code : List (Instr F)⦄ ⦃Γ : Scope⦄ ⦃c : Ctx⦄ ⦃cs cs' : CState⦄
    ⦃b b' : Nat⦄ ⦃frag : Frag F⦄ ⦃brk cont : Nat⦄ ⦃env : Env F⦄ ⦃frame rs : List (Value F)⦄
    ⦃le : LabelEnv⦄ ⦃w : W⦄,
    Runs S X d k → compileElse S.tables .arm rest cs b = .ok (frag, cs') →
    okElse p k .arm true Γ rest = true → CodeAt code b (fill brk cont frag) →
    b' = b + frag.length → Sync Γ cs env frame → LabelsIn T le →
    Simulates (S.machine d code) (Clean c) (evalElseValue S.walk rest env) w
      (.inl (b, X.mach frame (.unit :: rs) le w))
      (Valued T X (· < cs.next) c.st frame rs b') (Fails T X (· < cs.next) c.st frame)

/-- The arms of a let-bound `match`. -/
def ArmsValueSim (arms : MatchArms F) : Prop :=
  ∀ ⦃X : Fixed F⦄ ⦃d k : Nat⦄ ⦃code : List (Instr F)⦄ ⦃Γ : Scope⦄ ⦃c : Ctx⦄ ⦃cs cs' : CState⦄
    ⦃b b' : Nat⦄ ⦃frag : Frag F⦄ ⦃brk cont : Nat⦄ ⦃sv : Value F⦄ ⦃env : Env F⦄
    ⦃frame rs : List (Value F)⦄ ⦃le : LabelEnv⦄ ⦃w : W⦄,
    Runs S X d k → compileArms S.tables .arm .dup arms cs b = .ok (frag, cs') →
    okArms p k .arm true Γ arms = true → CodeAt code b (fill brk cont frag) →
    b' = b + frag.length → Sync Γ cs env frame → LabelsIn T le →
    Simulates (S.machine d code) (Clean c) (evalArmsValue S.walk arms sv env) w
      (.inl (b, X.mach (frame ++ [sv]) (.unit :: rs) le w))
      (Valued T X (· < cs.next) c.st (frame ++ [sv]) rs b')
      (Fails T X (· < cs.next) c.st (frame ++ [sv]))

end

end Metalogos.Refine
