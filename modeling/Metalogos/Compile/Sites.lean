import Metalogos.Compile.Grows

/-!
# Call sites

The calls of a body in the order the compiler meets them (`sitesStmts`), and the calls of a code in order
(`gatherFrag`). A site becomes the call `Tables.callee` finds for it, and the code of a body holds exactly these
calls, in the order of the sites: none is dropped, doubled or made up on the way. So it is for the `CallPattern`
indices alone (`callsCode`, `Tables.target`).
-/
namespace Metalogos.Compile

open Metalogos.Lang Metalogos.Machine Metalogos.Lib

variable {F : Type}

/-- A call in the source: by name, or qualified by a namespace. -/
inductive Site where
  | plain (name : String)
  | qualified (ns fn : String)
  deriving DecidableEq, Repr

/-- The function is named: the grammar's `IDENT` is never empty. -/
def Site.Named : Site → Prop
  | .plain name => name ≠ ""
  | .qualified _ fn => fn ≠ ""

instance : DecidablePred Site.Named
  | .plain name => inferInstanceAs (Decidable (name ≠ ""))
  | .qualified _ fn => inferInstanceAs (Decidable (fn ≠ ""))

/-- The pattern index a site is compiled to, if it is compiled to a `CallPattern`.
mirrors src/compiler.rs:1453-1485, :1675-1722 -/
def Tables.target (t : Tables) : Site → Option Nat
  | .plain name =>
    match t.builtinIdx name with
    | some _ => none
    | none => t.patternIdx name
  | .qualified ns fn =>
    match t.builtinIdx (ns ++ "." ++ fn) with
    | some _ => none
    | none =>
      if t.isTool ns then
        match t.builtinIdx fn with
        | some _ => none
        | none => t.patternIdx (ns ++ "." ++ fn)
      else t.patternIdx fn

/-! ## The sites of a body -/

mutual
def sitesExpr : Expr F → List Site
  | .stringLit _ | .floatLit _ | .boolLit _ | .ident _ | .handleSource _ => []
  | .fieldAccess e _ | .try_ e | .provBind _ e => sitesExpr e
  | .fnCall name args _ => sitesExprs args ++ [.plain name]
  | .qualifiedCall ns fn args => sitesExprs args ++ [.qualified ns fn]
  | .binaryOp l _ r => sitesExpr l ++ sitesExpr r
  | .ifElse c th el => sitesExpr c ++ sitesExpr th ++ sitesExpr el
  | .list items => sitesExprs items
  | .indexAccess e i => sitesExpr e ++ sitesExpr i
  | .structLit _ values => sitesExprs values
  | .blockIfElse c th rest => sitesExpr c ++ sitesStmts th ++ sitesElse rest
  | .matchExpr s arms => sitesExpr s ++ sitesArms arms

def sitesExprs : List (Expr F) → List Site
  | [] => []
  | e :: es => sitesExpr e ++ sitesExprs es

def sitesElse : ElseChain F → List Site
  | .none => []
  | .else_ body => sitesStmts body
  | .elseIf c body rest => sitesExpr c ++ sitesStmts body ++ sitesElse rest

def sitesArms : MatchArms F → List Site
  | .none => []
  | .else_ body => sitesStmts body
  | .lit _ body rest => sitesStmts body ++ sitesArms rest
  | .compare _ th body rest => sitesExpr th ++ sitesStmts body ++ sitesArms rest

def sitesStmts : List (Stmt F) → List Site
  | [] => []
  | s :: rest => sitesStmt s ++ sitesStmts rest

def sitesStmt : Stmt F → List Site
  | .letBinding _ e _ | .assign _ e | .return_ e | .exprStmt e | .memorize e _ | .forget e _ =>
    sitesExpr e
  | .each _ it body | .eachWithIndex _ _ it body => sitesExpr it ++ sitesStmts body
  | .while_ c body | .ifThen c body => sitesExpr c ++ sitesStmts body
  | .ifElseBlock c body rest => sitesExpr c ++ sitesStmts body ++ sitesElse rest
  | .match_ s arms => sitesExpr s ++ sitesArms arms
  | .relate a b _ => sitesExpr a ++ sitesExpr b
  | .break_ | .continue_ => []
end

theorem sitesExprs_eq (es : List (Expr F)) : sitesExprs es = es.flatMap sitesExpr := by
  induction es with
  | nil => rfl
  | cons e es ih => rw [sitesExprs, ih, List.flatMap_cons]

/-! ## The calls of a code -/

/-- What a call instruction names. -/
inductive Target where
  | builtin (idx : Nat)
  | fn (idx : Nat)
  | learnable (idx : Nat)
  deriving DecidableEq, Repr

/-- What a site is compiled to.
mirrors src/compiler.rs:1453-1485, :1647-1734 -/
def Tables.callee (t : Tables) : Site → Option Target
  | .plain name =>
    match t.builtinIdx name with
    | some i => some (.builtin i)
    | none =>
      match t.patternIdx name with
      | some i => some (.fn i)
      | none => (t.learnableIdx name).map .learnable
  | .qualified ns fn =>
    match t.builtinIdx (ns ++ "." ++ fn) with
    | some i => some (.builtin i)
    | none =>
      if t.isTool ns then
        match t.builtinIdx fn with
        | some i => some (.builtin i)
        | none => (t.patternIdx (ns ++ "." ++ fn)).map .fn
      else
        match t.patternIdx fn with
        | some i => some (.fn i)
        | none => (t.builtinIdx fn).map .builtin

section

variable {α : Type} (f : Target → List α)

mutual
/-- What `f` makes of the calls of a code, at any depth. -/
def gatherInstr : Instr F → List α
  | .callBuiltin idx _ => f (.builtin idx)
  | .callPattern idx _ => f (.fn idx)
  | .llmCall idx _ => f (.learnable idx)
  | .tryEval inner => gatherCode inner
  | _ => []

def gatherCode : List (Instr F) → List α
  | [] => []
  | i :: is => gatherInstr i ++ gatherCode is
end

def Emit.gather : Emit F → List α
  | .instr i => gatherInstr f i
  | .brk | .cont => []

def gatherFrag (frag : Frag F) : List α := frag.flatMap (Emit.gather f)

/-- What `f` makes of the call a site is compiled to. -/
def Tables.gathered (t : Tables) (s : Site) : List α := (t.callee s).toList.flatMap f

/-- `f` leaves out the builtins that `source` and `@origin` expressions call, which are no call sites. -/
def Tables.SkipsMedia (t : Tables) : Prop :=
  ∀ name ∈ ["media_source_capture", "media_bind_origin"], ∀ i, t.builtinIdx name = some i → f (.builtin i) = []

attribute [local simp] gatherInstr gatherCode

@[simp] theorem gatherFrag_nil : gatherFrag f ([] : Frag F) = [] := rfl

@[simp] theorem gatherFrag_append (a b : Frag F) : gatherFrag f (a ++ b) = gatherFrag f a ++ gatherFrag f b :=
  List.flatMap_append

@[simp] theorem gatherFrag_cons (e : Emit F) (b : Frag F) : gatherFrag f (e :: b) = e.gather f ++ gatherFrag f b :=
  rfl

@[simp] theorem gatherFrag_code (is : List (Instr F)) : gatherFrag f (code is) = gatherCode f is := by
  induction is with
  | nil => rfl
  | cons i is ih =>
    rw [gatherCode, ← ih]
    rfl

/-- Filling the holes of a loop adds no call. -/
theorem gatherInstr_resolve (brk cont : Nat) (e : Emit F) : gatherInstr f (e.resolve brk cont) = e.gather f := by
  cases e <;> simp [Emit.resolve, Emit.gather]

@[simp] theorem gatherFrag_resolve (brk cont : Nat) (frag : Frag F) :
    gatherFrag f (resolve brk cont frag) = gatherFrag f frag := by
  induction frag with
  | nil => rfl
  | cons e frag ih =>
    show gatherInstr f (e.resolve brk cont) ++ gatherFrag f (resolve brk cont frag) = _
    rw [gatherInstr_resolve, ih, gatherFrag_cons]

theorem gatherCode_resolve (brk cont : Nat) (frag : Frag F) :
    gatherCode f (frag.map (·.resolve brk cont)) = gatherFrag f frag := by
  induction frag with
  | nil => rfl
  | cons e frag ih => rw [List.map_cons, gatherCode, gatherInstr_resolve, ih, gatherFrag_cons]

variable {f} in
theorem mem_gatherCode {code : List (Instr F)} {i : Instr F} {x : α} (hi : i ∈ code)
    (hx : x ∈ gatherInstr f i) : x ∈ gatherCode f code := by
  induction code with
  | nil => cases hi
  | cons j code ih =>
    rw [gatherCode, List.mem_append]
    cases List.mem_cons.1 hi with
    | inl heq => exact .inl (heq ▸ hx)
    | inr hrest => exact .inr (ih hrest)

/-! ### The shapes -/

variable {f} {t : Tables}

@[simp] theorem gatherFrag_unitIf (keep : Bool) : gatherFrag f (unitIf keep : Frag F) = [] := by
  cases keep <;> simp [unitIf, gatherCode, gatherInstr]

@[simp] theorem gatherFrag_ifShape (base : Nat) (cond body rest : Frag F) :
    gatherFrag f (ifShape base cond body rest) = gatherFrag f cond ++ gatherFrag f body ++ gatherFrag f rest := by
  simp [ifShape, gatherCode, gatherInstr]

@[simp] theorem gatherFrag_thenShape (base : Nat) (cond body : Frag F) :
    gatherFrag f (thenShape base cond body) = gatherFrag f cond ++ gatherFrag f body := by
  simp [thenShape, gatherCode, gatherInstr]

theorem gatherFrag_armShape {load : Instr F} (hl : gatherInstr f load = []) (base : Nat)
    (threshold : Frag F) (test : MatchTest) (body rest : Frag F) :
    gatherFrag f (armShape base load threshold test body rest) =
      gatherFrag f threshold ++ gatherFrag f body ++ gatherFrag f rest := by
  simp [armShape, gatherCode, gatherInstr, hl]

@[simp] theorem gatherFrag_whileShape (base : Nat) (cond body : Frag F) :
    gatherFrag f (whileShape base cond body) = gatherFrag f cond ++ gatherFrag f body := by
  simp [whileShape, gatherCode, gatherInstr]

@[simp] theorem gatherFrag_eachShape [FloatModel F] (base list idx item : Nat) (body : Frag F) :
    gatherFrag f (eachShape base list idx item body) = gatherFrag f body := by
  simp [eachShape, gatherCode, gatherInstr]

theorem gatherCode_append (a b : List (Instr F)) : gatherCode f (a ++ b) = gatherCode f a ++ gatherCode f b := by
  rw [← gatherFrag_code, ← gatherFrag_code, ← gatherFrag_code, ← gatherFrag_append]
  simp [code]

@[simp] theorem gatherCode_labelJoin (x : String) (e : Expr F) : gatherCode f (labelJoin t x e) = [] := by
  unfold labelJoin
  split
  · split <;> simp [gatherCode, gatherInstr]
  · rfl

theorem gatherCode_emitSinkChecks (cs : CState) (fn : String) (line skipTo : Nat) :
    ∀ (args : List (Expr F)) (i : Nat), gatherCode f (emitSinkChecks t cs fn line skipTo i args) = [] := by
  intro args
  induction args with
  | nil =>
    intro i
    rfl
  | cons a args ih =>
    intro i
    unfold emitSinkChecks
    rw [gatherCode_append, ih, List.append_nil]
    cases trackable t a <;> rfl

@[simp] theorem gatherCode_armedSinkChecks (cs : CState) (skipTo : Nat) (e : Expr F) :
    gatherCode f (armedSinkChecks t cs skipTo e) = [] := by
  unfold armedSinkChecks
  split
  · split
    · exact gatherCode_emitSinkChecks ..
    · rfl
  · rfl

@[simp] theorem gatherFrag_sinkShape (cs : CState) (base : Nat) (e : Expr F) (call : Frag F) :
    gatherFrag f (sinkShape t cs base e call) = gatherFrag f call := by
  simp [sinkShape]

@[simp] theorem gatherFrag_letShape (mode : Mode) (x : String) (e : Expr F) (slot : Nat)
    (init : Frag F) : gatherFrag f (letShape t mode x e slot init) = gatherFrag f init := by
  cases mode <;> simp [letShape, gatherCode, gatherInstr, gatherCode_append]

theorem gatherInstr_compileCall {name : String} {arity : Nat} {i : Instr F}
    (h : compileCall t name arity = .ok i) : gatherInstr f i = t.gathered f (.plain name) := by
  unfold compileCall at h
  unfold Tables.gathered Tables.callee
  cases hb : t.builtinIdx name with
  | some j =>
    simp only [hb] at h ⊢
    cases h
    simp
  | none =>
    simp only [hb] at h ⊢
    cases hp : t.patternIdx name with
    | some j =>
      simp only [hp] at h ⊢
      cases h
      simp
    | none =>
      simp only [hp] at h ⊢
      cases hl : t.learnableIdx name with
      | some j =>
        simp only [hl] at h ⊢
        cases h
        simp
      | none =>
        simp only [hl] at h
        split at h <;> cases h

theorem gatherInstr_compileQualified {ns fn : String} {arity : Nat} {i : Instr F}
    (h : compileQualified t ns fn arity = .ok i) : gatherInstr f i = t.gathered f (.qualified ns fn) := by
  simp only [compileQualified] at h
  unfold Tables.gathered Tables.callee
  cases hb : t.builtinIdx (ns ++ "." ++ fn) with
  | some j =>
    simp only [hb] at h ⊢
    cases h
    simp
  | none =>
    simp only [hb] at h ⊢
    by_cases ht : t.isTool ns = true
    · rw [if_pos ht] at h ⊢
      cases hf : t.builtinIdx fn with
      | some j =>
        simp only [hf] at h ⊢
        cases h
        simp
      | none =>
        simp only [hf] at h ⊢
        cases hp : t.patternIdx (ns ++ "." ++ fn) with
        | some j =>
          simp only [hp] at h ⊢
          cases h
          simp
        | none =>
          simp only [hp] at h
          cases h
    · rw [if_neg ht] at h ⊢
      cases hp : t.patternIdx fn with
      | some j =>
        simp only [hp] at h ⊢
        cases h
        simp
      | none =>
        simp only [hp] at h ⊢
        cases hf : t.builtinIdx fn with
        | some j =>
          simp only [hf] at h ⊢
          cases h
          simp
        | none =>
          simp only [hf] at h
          cases h

theorem gatherInstr_compileIdent (cs : CState) (x : String) :
    gatherInstr f (compileIdent t cs x : Instr F) = [] := by
  unfold compileIdent
  split
  · rfl
  · split <;> rfl

theorem gatherInstr_compileOp (op : BinOp) : gatherInstr f (compileOp op : Instr F) = [] := by
  cases op <;> rfl

/-- `leave` only touches the tables. -/
theorem leave_frag (k : BodyKind) (old : CState) (r : Frag F × CState) : (k.leave old r).1 = r.1 := by
  unfold BodyKind.leave
  split <;> rfl

end

/-! ## The code of a body holds the calls of its sites -/

section

variable [FloatModel F] {t : Tables} {α : Type} {f : Target → List α} (hf : t.SkipsMedia f)

include hf

set_option linter.unusedSectionVars false

mutual
theorem compileExpr_gather : ∀ (e : Expr F) {cs cs' : CState} {b : Nat} {frag : Frag F},
    compileExpr t e cs b = .ok (frag, cs') → gatherFrag f frag = (sitesExpr e).flatMap (t.gathered f)
  | .stringLit _, _, _, _, _, h | .floatLit _, _, _, _, _, h | .boolLit _, _, _, _, _, h => by
    simp only [compileExpr, Except.ok.injEq, Prod.mk.injEq] at h
    obtain ⟨rfl, -⟩ := h
    simp [sitesExpr, gatherCode, gatherInstr]
  | .ident _, _, _, _, _, h => by
    simp only [compileExpr, Except.ok.injEq, Prod.mk.injEq] at h
    obtain ⟨rfl, -⟩ := h
    simp [sitesExpr, gatherCode, gatherInstr_compileIdent]
  | .fieldAccess e _, _, _, _, _, h => by
    simp only [compileExpr, bind_ok, Except.ok.injEq, Prod.mk.injEq] at h
    obtain ⟨⟨c, cs₁⟩, h₁, rfl, -⟩ := h
    simp [sitesExpr, gatherCode, gatherInstr, compileExpr_gather e h₁]
  | .fnCall name args _, _, _, _, _, h => by
    simp only [compileExpr, bind_ok, Except.ok.injEq, Prod.mk.injEq] at h
    obtain ⟨⟨c, cs₁⟩, h₁, i, hi, rfl, -⟩ := h
    rw [sitesExpr, List.flatMap_append, List.flatMap_cons, List.flatMap_nil, List.append_nil, ← compileExprs_gather args h₁,
      ← gatherInstr_compileCall hi]
    simp [gatherCode]
  | .qualifiedCall ns fn args, _, _, _, _, h => by
    simp only [compileExpr, bind_ok, Except.ok.injEq, Prod.mk.injEq] at h
    obtain ⟨⟨c, cs₁⟩, h₁, i, hi, rfl, -⟩ := h
    rw [sitesExpr, List.flatMap_append, List.flatMap_cons, List.flatMap_nil, List.append_nil, ← compileExprs_gather args h₁,
      ← gatherInstr_compileQualified hi]
    simp [gatherCode]
  | .binaryOp l op r, _, _, _, _, h => by
    cases op <;>
    · simp only [compileExpr, bind_ok, Except.ok.injEq, Prod.mk.injEq] at h
      obtain ⟨⟨c₁, cs₁⟩, h₁, ⟨c₂, cs₂⟩, h₂, rfl, -⟩ := h
      simp [sitesExpr, gatherCode, gatherInstr, gatherInstr_compileOp, compileExpr_gather l h₁,
        compileExpr_gather r h₂]
  | .ifElse c th el, _, _, _, _, h => by
    simp only [compileExpr, bind_ok, Except.ok.injEq, Prod.mk.injEq] at h
    obtain ⟨⟨c₁, cs₁⟩, h₁, ⟨c₂, cs₂⟩, h₂, ⟨c₃, cs₃⟩, h₃, rfl, -⟩ := h
    simp [sitesExpr, compileExpr_gather c h₁, compileExpr_gather th h₂, compileExpr_gather el h₃]
  | .list items, _, _, _, _, h => by
    simp only [compileExpr, bind_ok, Except.ok.injEq, Prod.mk.injEq] at h
    obtain ⟨⟨c, cs₁⟩, h₁, rfl, -⟩ := h
    simp [sitesExpr, gatherCode, gatherInstr, compileExprs_gather items h₁]
  | .indexAccess e i, _, _, _, _, h => by
    simp only [compileExpr, bind_ok, Except.ok.injEq, Prod.mk.injEq] at h
    obtain ⟨⟨c₁, cs₁⟩, h₁, ⟨c₂, cs₂⟩, h₂, rfl, -⟩ := h
    simp [sitesExpr, gatherCode, gatherInstr, compileExpr_gather e h₁, compileExpr_gather i h₂]
  | .structLit _ values, _, _, _, _, h => by
    simp only [compileExpr, bind_ok, Except.ok.injEq, Prod.mk.injEq] at h
    obtain ⟨⟨c, cs₁⟩, h₁, rfl, -⟩ := h
    simp [sitesExpr, gatherCode, gatherInstr, compileExprs_gather values h₁]
  | .blockIfElse c th rest, _, _, _, _, h => by
    simp only [compileExpr, bind_ok, map_ok, Except.ok.injEq, Prod.mk.injEq] at h
    obtain ⟨⟨c₁, cs₁⟩, h₁, ⟨c₂, cs₂⟩, ⟨⟨c₀, cs₀⟩, h₂, hl⟩, ⟨c₃, cs₃⟩, h₃, rfl, -⟩ := h
    obtain rfl : c₀ = c₂ := by simpa [leave_frag] using congrArg Prod.fst hl
    simp [sitesExpr, gatherCode, gatherInstr, compileExpr_gather c h₁, compileStmts_gather .arm th h₂,
      compileElse_gather .arm rest h₃]
  | .matchExpr _ _, _, _, _, _, h => by simp [compileExpr] at h
  | .try_ e, _, _, _, _, h => by
    simp only [compileExpr, bind_ok, Except.ok.injEq, Prod.mk.injEq] at h
    obtain ⟨⟨c, cs₁⟩, h₁, rfl, -⟩ := h
    simp [sitesExpr, gatherCode, gatherInstr, gatherCode_resolve, compileExpr_gather e h₁]
  | .handleSource _, _, _, _, _, h => by
    simp only [compileExpr] at h
    split at h
    · rename_i i hi
      simp only [Except.ok.injEq, Prod.mk.injEq] at h
      obtain ⟨rfl, -⟩ := h
      simp [sitesExpr, gatherCode, gatherInstr, hf _ List.mem_cons_self i hi]
    · simp at h
  | .provBind _ e, _, _, _, _, h => by
    simp only [compileExpr] at h
    split at h
    · rename_i i hi
      simp only [bind_ok, Except.ok.injEq, Prod.mk.injEq] at h
      obtain ⟨⟨c, cs₁⟩, h₁, rfl, -⟩ := h
      simp [sitesExpr, gatherCode, gatherInstr, compileExpr_gather e h₁,
        hf _ (List.mem_cons_of_mem _ List.mem_cons_self) i hi]
    · simp at h

theorem compileExprs_gather : ∀ (es : List (Expr F)) {cs cs' : CState} {b : Nat} {frag : Frag F},
    compileExprs t es cs b = .ok (frag, cs') → gatherFrag f frag = (sitesExprs es).flatMap (t.gathered f)
  | [], _, _, _, _, h => by
    simp only [compileExprs, Except.ok.injEq, Prod.mk.injEq] at h
    obtain ⟨rfl, -⟩ := h
    simp [sitesExprs]
  | e :: es, _, _, _, _, h => by
    simp only [compileExprs, bind_ok, Except.ok.injEq, Prod.mk.injEq] at h
    obtain ⟨⟨c₁, cs₁⟩, h₁, ⟨c₂, cs₂⟩, h₂, rfl, -⟩ := h
    simp [sitesExprs, compileExpr_gather e h₁, compileExprs_gather es h₂]

theorem compileElse_gather (k : BodyKind) : ∀ (rest : ElseChain F) {cs cs' : CState} {b : Nat}
    {frag : Frag F}, compileElse t k rest cs b = .ok (frag, cs') →
      gatherFrag f frag = (sitesElse rest).flatMap (t.gathered f)
  | .none, _, _, _, _, h => by
    simp only [compileElse, Except.ok.injEq, Prod.mk.injEq] at h
    obtain ⟨rfl, -⟩ := h
    simp [sitesElse]
  | .else_ body, _, _, _, _, h => by
    simp only [compileElse, map_ok] at h
    obtain ⟨⟨c₀, cs₀⟩, h₁, hl⟩ := h
    obtain rfl := by simpa [leave_frag] using congrArg Prod.fst hl
    rw [sitesElse, compileStmts_gather k body h₁]
  | .elseIf c body rest, _, _, _, _, h => by
    simp only [compileElse, bind_ok, map_ok, Except.ok.injEq, Prod.mk.injEq] at h
    obtain ⟨⟨c₁, cs₁⟩, h₁, ⟨c₂, cs₂⟩, ⟨⟨c₀, cs₀⟩, h₂, hl⟩, ⟨c₃, cs₃⟩, h₃, rfl, -⟩ := h
    obtain rfl : c₀ = c₂ := by simpa [leave_frag] using congrArg Prod.fst hl
    simp [sitesElse, compileExpr_gather c h₁, compileStmts_gather k body h₂,
      compileElse_gather k rest h₃]

theorem compileArms_gather (k : BodyKind) {load : Instr F} (hload : gatherInstr f load = []) :
    ∀ (arms : MatchArms F) {cs cs' : CState} {b : Nat} {frag : Frag F},
      compileArms t k load arms cs b = .ok (frag, cs') →
        gatherFrag f frag = (sitesArms arms).flatMap (t.gathered f)
  | .none, _, _, _, _, h => by
    simp only [compileArms, Except.ok.injEq, Prod.mk.injEq] at h
    obtain ⟨rfl, -⟩ := h
    simp [sitesArms]
  | .else_ body, _, _, _, _, h => by
    simp only [compileArms, map_ok] at h
    obtain ⟨⟨c₀, cs₀⟩, h₁, hl⟩ := h
    obtain rfl := by simpa [leave_frag] using congrArg Prod.fst hl
    rw [sitesArms, compileStmts_gather k body h₁]
  | .lit _ body rest, _, _, _, _, h => by
    simp only [compileArms, bind_ok, map_ok, Except.ok.injEq, Prod.mk.injEq] at h
    obtain ⟨⟨c₂, cs₂⟩, ⟨⟨c₀, cs₀⟩, h₂, hl⟩, ⟨c₃, cs₃⟩, h₃, rfl, -⟩ := h
    obtain rfl : c₀ = c₂ := by simpa [leave_frag] using congrArg Prod.fst hl
    rw [gatherFrag_armShape hload, compileStmts_gather k body h₂, compileArms_gather k hload rest h₃]
    simp [sitesArms]
  | .compare _ th body rest, _, _, _, _, h => by
    simp only [compileArms, bind_ok, map_ok, Except.ok.injEq, Prod.mk.injEq] at h
    obtain ⟨⟨c₁, cs₁⟩, h₁, ⟨c₂, cs₂⟩, ⟨⟨c₀, cs₀⟩, h₂, hl⟩, ⟨c₃, cs₃⟩, h₃, rfl, -⟩ := h
    obtain rfl : c₀ = c₂ := by simpa [leave_frag] using congrArg Prod.fst hl
    rw [gatherFrag_armShape hload, compileExpr_gather th h₁, compileStmts_gather k body h₂,
      compileArms_gather k hload rest h₃]
    simp [sitesArms]

theorem compileStmts_gather (k : BodyKind) : ∀ (ss : List (Stmt F)) {cs cs' : CState} {b : Nat}
    {frag : Frag F}, compileStmts t k ss cs b = .ok (frag, cs') →
      gatherFrag f frag = (sitesStmts ss).flatMap (t.gathered f)
  | [], _, _, _, _, h => by
    simp only [compileStmts, Except.ok.injEq, Prod.mk.injEq] at h
    obtain ⟨rfl, -⟩ := h
    simp [sitesStmts]
  | [s], _, _, _, _, h => by
    simp only [compileStmts] at h
    simp [sitesStmts, compileStmt_gather k.mode k.keeps s h]
  | s :: s' :: rest, _, _, _, _, h => by
    simp only [compileStmts, bind_ok, Except.ok.injEq, Prod.mk.injEq] at h
    obtain ⟨⟨c₁, cs₁⟩, h₁, ⟨c₂, cs₂⟩, h₂, rfl, -⟩ := h
    rw [sitesStmts, List.flatMap_append, gatherFrag_append, compileStmt_gather k.mode false s h₁,
      compileStmts_gather k (s' :: rest) h₂]

/-- The initializer decides which of the two `let` lowerings runs. -/
theorem compileLet_gather (mode : Mode) (keep isMut : Bool) (x : String) : ∀ (e : Expr F),
    (∀ {cs cs' : CState} {b : Nat} {frag : Frag F},
      compileExpr t e cs b = .ok (frag, cs') → gatherFrag f frag = (sitesExpr e).flatMap (t.gathered f)) →
    ∀ {cs cs' : CState} {b : Nat} {frag : Frag F},
      compileStmt t mode keep (.letBinding x e isMut) cs b = .ok (frag, cs') →
        gatherFrag f frag = (sitesExpr e).flatMap (t.gathered f)
  | .matchExpr s arms, _, _, _, _, _, h => by
    simp only [compileStmt, bind_ok, Except.ok.injEq, Prod.mk.injEq] at h
    obtain ⟨⟨c₁, cs₁⟩, h₁, ⟨c₂, cs₂⟩, h₂, rfl, -⟩ := h
    have hv : gatherFrag f (if mode.isValue then code [.pushUnit, .setValueReg] else [] : Frag F) = [] := by
      split <;> simp [gatherCode, gatherInstr]
    simp [sitesExpr, gatherCode, gatherInstr, hv, compileExpr_gather s h₁,
      compileArms_gather .arm rfl arms h₂]
  | .stringLit _, ih, _, _, _, _, h | .floatLit _, ih, _, _, _, _, h | .boolLit _, ih, _, _, _, _, h
  | .ident _, ih, _, _, _, _, h | .fieldAccess _ _, ih, _, _, _, _, h
  | .fnCall _ _ _, ih, _, _, _, _, h | .qualifiedCall _ _ _, ih, _, _, _, _, h
  | .binaryOp _ _ _, ih, _, _, _, _, h | .ifElse _ _ _, ih, _, _, _, _, h
  | .list _, ih, _, _, _, _, h | .indexAccess _ _, ih, _, _, _, _, h
  | .structLit _ _, ih, _, _, _, _, h | .blockIfElse _ _ _, ih, _, _, _, _, h
  | .try_ _, ih, _, _, _, _, h | .handleSource _, ih, _, _, _, _, h
  | .provBind _ _, ih, _, _, _, _, h => by
    rw [compileStmt_let rfl] at h
    simp only [bind_ok, Except.ok.injEq, Prod.mk.injEq] at h
    obtain ⟨⟨c₁, cs₁⟩, h₁, rfl, -⟩ := h
    simp [ih h₁]

theorem compileStmt_gather (mode : Mode) (keep : Bool) : ∀ (s : Stmt F) {cs cs' : CState} {b : Nat}
    {frag : Frag F}, compileStmt t mode keep s cs b = .ok (frag, cs') →
      gatherFrag f frag = (sitesStmt s).flatMap (t.gathered f)
  | .letBinding x e isMut, _, _, _, _, h =>
    compileLet_gather mode keep isMut x e (fun hx => compileExpr_gather e hx) h
  | .assign x e, _, _, _, _, h => by
    simp only [compileStmt] at h
    split_ifs at h
    split at h
    · simp at h
    · simp only [bind_ok, Except.ok.injEq, Prod.mk.injEq] at h
      obtain ⟨⟨c₁, cs₁⟩, h₁, rfl, -⟩ := h
      simp [sitesStmt, gatherCode, gatherInstr, compileExpr_gather e h₁]
  | .return_ e, _, _, _, _, h => by
    simp only [compileStmt] at h
    split_ifs at h <;>
    · simp only [bind_ok, Except.ok.injEq, Prod.mk.injEq] at h
      obtain ⟨⟨c₁, cs₁⟩, h₁, rfl, -⟩ := h
      simp [sitesStmt, gatherCode, gatherInstr, compileExpr_gather e h₁]
  | .exprStmt e, _, _, _, _, h => by
    simp only [compileStmt] at h
    have hp : gatherFrag f (if keep then [] else code [.pop] : Frag F) = [] := by
      split <;> simp [gatherCode, gatherInstr]
    split_ifs at h <;>
    · simp only [bind_ok, Except.ok.injEq, Prod.mk.injEq] at h
      obtain ⟨⟨c₁, cs₁⟩, h₁, rfl, -⟩ := h
      simp [sitesStmt, gatherCode, gatherInstr, compileExpr_gather e h₁]
  | .while_ c body, _, _, _, _, h => by
    simp only [compileStmt, bind_ok, Except.ok.injEq, Prod.mk.injEq] at h
    obtain ⟨⟨c₁, cs₁⟩, h₁, ⟨c₂, cs₂⟩, h₂, rfl, -⟩ := h
    simp [sitesStmt, compileExpr_gather c h₁, compileStmts_gather (.plain true) body h₂]
  | .each x it body, _, _, _, _, h | .eachWithIndex _ x it body, _, _, _, _, h => by
    simp only [compileStmt, bind_ok, Except.ok.injEq, Prod.mk.injEq] at h
    obtain ⟨⟨c₁, cs₁⟩, h₁, ⟨c₂, cs₂⟩, h₂, rfl, -⟩ := h
    simp [sitesStmt, gatherCode, gatherInstr, compileExpr_gather it h₁,
      compileStmts_gather (.plain true) body h₂]
  | .ifThen c body, _, _, _, _, h => by
    simp only [compileStmt, bind_ok] at h
    obtain ⟨⟨c₁, cs₁⟩, h₁, ⟨c₂, cs₂⟩, h₂, h⟩ := h
    rw [sitesStmt, List.flatMap_append, ← compileExpr_gather c h₁, ← compileStmts_gather _ body h₂]
    split_ifs at h <;>
    · obtain ⟨rfl, -⟩ := Prod.mk.inj (Except.ok.inj h)
      simp [gatherCode, gatherInstr]
  | .ifElseBlock c body rest, _, _, _, _, h => by
    simp only [compileStmt, bind_ok, Except.ok.injEq, Prod.mk.injEq] at h
    obtain ⟨⟨c₁, cs₁⟩, h₁, ⟨c₂, cs₂⟩, h₂, ⟨c₃, cs₃⟩, h₃, rfl, -⟩ := h
    simp [sitesStmt, compileExpr_gather c h₁, compileStmts_gather _ body h₂,
      compileElse_gather _ rest h₃]
  | .match_ s arms, _, _, _, _, h => by
    simp only [compileStmt] at h
    split_ifs at h <;>
    · simp only [bind_ok, Except.ok.injEq, Prod.mk.injEq] at h
      obtain ⟨⟨c₁, cs₁⟩, h₁, ⟨c₂, cs₂⟩, h₂, rfl, -⟩ := h
      simp [sitesStmt, gatherCode, gatherInstr, compileExpr_gather s h₁, compileArms_gather _ rfl arms h₂]
  | .break_, _, _, _, _, h | .continue_, _, _, _, _, h => by
    simp only [compileStmt, Except.ok.injEq, Prod.mk.injEq] at h
    obtain ⟨rfl, -⟩ := h
    rw [sitesStmt]
    split <;> rfl
  | .memorize e _, _, _, _, _, h | .forget e _, _, _, _, _, h => by
    simp only [compileStmt, bind_ok, Except.ok.injEq, Prod.mk.injEq] at h
    obtain ⟨⟨c₁, cs₁⟩, h₁, rfl, -⟩ := h
    simp [sitesStmt, gatherCode, gatherInstr, compileExpr_gather e h₁]
  | .relate a b _, _, _, _, _, h => by
    simp only [compileStmt, bind_ok, Except.ok.injEq, Prod.mk.injEq] at h
    obtain ⟨⟨c₁, cs₁⟩, h₁, ⟨c₂, cs₂⟩, h₂, rfl, -⟩ := h
    simp [sitesStmt, gatherCode, gatherInstr, compileExpr_gather a h₁, compileExpr_gather b h₂]
end

/-- The calls of a compiled body are those of its sites. -/
theorem compilePatternBody_gather {params : List String} {body : List (Stmt F)} {is : List (Instr F)}
    (h : compilePatternBody t params body = .ok is) :
    gatherCode f is = (sitesStmts body).flatMap (t.gathered f) := by
  simp only [compilePatternBody, bind_ok, Except.ok.injEq] at h
  obtain ⟨⟨c, cs⟩, h₁, rfl⟩ := h
  rw [gatherCode_resolve, compileStmts_gather hf .top body h₁]

end

/-! ## The `CallPattern` indices of a code -/

mutual
def callsInstr : Instr F → List Nat
  | .callPattern idx _ => [idx]
  | .tryEval inner => callsCode inner
  | _ => []

def callsCode : List (Instr F) → List Nat
  | [] => []
  | i :: is => callsInstr i ++ callsCode is
end

def Emit.calls : Emit F → List Nat
  | .instr i => callsInstr i
  | .brk | .cont => []

def callsFrag (frag : Frag F) : List Nat := frag.flatMap Emit.calls

def Target.fnIdx : Target → List Nat
  | .fn idx => [idx]
  | _ => []

mutual
theorem callsInstr_eq : ∀ i : Instr F, callsInstr i = gatherInstr Target.fnIdx i
  | .tryEval inner => by rw [callsInstr, gatherInstr, callsCode_eq inner]
  | .callPattern _ _ | .callBuiltin _ _ | .llmCall _ _ | .const _ | .loadLocal _ | .storeLocal _
  | .storeAssignLocal _ _ _ | .loadGlobal _ | .loadGlobalByName _ | .arith _ | .cmp _ | .return_ | .jump _
  | .jumpIfNot _ | .jumpIfNotCond _ | .getField _ | .indexAccess | .collapse _ | .recallQuery | .memorize _
  | .forget _ | .relate | .makeList _ | .listLen | .pop | .pushUnit | .startsWith | .contains | .matchTest _
  | .dup | .beginValueExpr | .keepLastValue | .endValueExpr | .setValueReg | .makeStruct _ _ | .labelJoin _ _
  | .sinkCheck _ | .mainOnly _ => rfl

theorem callsCode_eq : ∀ is : List (Instr F), callsCode is = gatherCode Target.fnIdx is
  | [] => rfl
  | i :: is => by rw [callsCode, gatherCode, callsInstr_eq i, callsCode_eq is]
end

theorem callsFrag_eq (frag : Frag F) : callsFrag frag = gatherFrag Target.fnIdx frag := by
  unfold callsFrag gatherFrag
  congr 1
  funext e
  cases e with
  | instr i => exact callsInstr_eq i
  | brk => rfl
  | cont => rfl

theorem callsInstr_resolve (brk cont : Nat) (e : Emit F) : callsInstr (e.resolve brk cont) = e.calls := by
  cases e <;> simp [Emit.resolve, Emit.calls, callsInstr]

theorem callsCode_append (a b : List (Instr F)) : callsCode (a ++ b) = callsCode a ++ callsCode b := by
  rw [callsCode_eq, callsCode_eq, callsCode_eq, gatherCode_append]

theorem callsCode_resolve (brk cont : Nat) (frag : Frag F) :
    callsCode (frag.map (·.resolve brk cont)) = callsFrag frag := by
  rw [callsCode_eq, callsFrag_eq, gatherCode_resolve]

section

variable {t : Tables}

theorem gathered_fnIdx (s : Site) : t.gathered Target.fnIdx s = (t.target s).toList := by
  have hfn (o : Option Nat) : (o.map Target.fn).toList.flatMap Target.fnIdx = o.toList := by cases o <;> rfl
  have hbuiltin (o : Option Nat) : (o.map Target.builtin).toList.flatMap Target.fnIdx = [] := by cases o <;> rfl
  have hlearnable (o : Option Nat) : (o.map Target.learnable).toList.flatMap Target.fnIdx = [] := by cases o <;> rfl
  cases s with
  | plain name =>
    simp only [Tables.gathered, Tables.callee, Tables.target]
    cases t.builtinIdx name with
    | some i => rfl
    | none =>
      cases t.patternIdx name with
      | some i => rfl
      | none => exact hlearnable _
  | qualified ns fn =>
    simp only [Tables.gathered, Tables.callee, Tables.target]
    cases t.builtinIdx (ns ++ "." ++ fn) with
    | some i => rfl
    | none =>
      by_cases htool : t.isTool ns = true
      · simp only [if_pos htool]
        cases t.builtinIdx fn with
        | some i => rfl
        | none => exact hfn _
      · simp only [if_neg htool]
        cases t.patternIdx fn with
        | some i => rfl
        | none => exact hbuiltin _

theorem flatMap_gathered (sites : List Site) : sites.flatMap (t.gathered Target.fnIdx) = sites.filterMap t.target := by
  induction sites with
  | nil => rfl
  | cons s sites ih =>
    rw [List.flatMap_cons, ih, gathered_fnIdx, List.filterMap_cons]
    cases t.target s <;> rfl

theorem skipsMedia_fnIdx : t.SkipsMedia Target.fnIdx := fun _ _ _ _ => rfl

variable [FloatModel F]

theorem compileExpr_calls (e : Expr F) {cs cs' : CState} {b : Nat} {frag : Frag F}
    (h : compileExpr t e cs b = .ok (frag, cs')) : callsFrag frag = (sitesExpr e).filterMap t.target := by
  rw [callsFrag_eq, compileExpr_gather skipsMedia_fnIdx e h, flatMap_gathered]

theorem compileStmts_calls (k : BodyKind) (ss : List (Stmt F)) {cs cs' : CState} {b : Nat} {frag : Frag F}
    (h : compileStmts t k ss cs b = .ok (frag, cs')) : callsFrag frag = (sitesStmts ss).filterMap t.target := by
  rw [callsFrag_eq, compileStmts_gather skipsMedia_fnIdx k ss h, flatMap_gathered]

/-- The `CallPattern` indices of a compiled body are those of its sites. -/
theorem compilePatternBody_calls {params : List String} {body : List (Stmt F)} {is : List (Instr F)}
    (h : compilePatternBody t params body = .ok is) :
    callsCode is = (sitesStmts body).filterMap t.target := by
  rw [callsCode_eq, compilePatternBody_gather skipsMedia_fnIdx h, flatMap_gathered]

end

end Metalogos.Compile
