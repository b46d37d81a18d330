import Metalogos.Refine.Sims

/-!
# Simulation of expressions

One lemma per form of expression, from the simulations of its parts. `ExprSim.then` and
`ExprSim.pend` run a part and hand over to what follows: the first in a place where nothing waits
on the stack, the second above operands, where the frame stays as it is.
-/
namespace Metalogos.Refine

open Metalogos.Lang Metalogos.Machine Metalogos.Compile Metalogos.Walk Metalogos.Lib

variable {F W β : Type} [FloatModel F]

variable {S : Setup F W} {p : Policy F} {T : List String}

/-! ## Running a part -/

section

variable {X : Fixed F} {d k : Nat} {code : List (Instr F)} {Γ : Scope} {c : Ctx} {cs cs' : CState}
  {b : Nat} {frag : Frag F} {brk cont : Nat} {env : Env F} {frame regs : List (Value F)}
  {le : LabelEnv} {w : W} {R : β → W → Place F W → Prop} {E : String → W → Place F W → Prop}

theorem ExprSim.then {e : Expr F} {f : Value F → TW F W β} (h : ExprSim S p T e)
    (hr : Runs S X d k) (hc : compileExpr S.tables e cs b = .ok (frag, cs'))
    (hok : okExpr p k Γ e = true) (hcode : CodeAt code b (fill brk cont frag))
    (hs : Sync Γ cs env frame) (hl : LabelsIn T le)
    (hf : ∀ v w' frame' le', Ext (· < cs.next) c.st frame frame' → Sync Γ cs' env frame' →
      LabelsIn T le' → Simulates (S.machine d code) (Clean c) (f v) w'
        (.inl (b + frag.length, X.mach (frame' ++ [v]) regs le' w')) R E)
    (herr : ∀ e w' o, Fails T X (· < cs.next) c.st frame e w' o → E e w' o) :
    Simulates (S.machine d code) (Clean c) (evalExpr S.walk e env >>= f) w
      (.inl (b, X.mach frame regs le w)) R E := by
  refine Simulates.bind (h hr hc hok hcode rfl hs hl) ?_ herr
  rintro v w' o ⟨frame', le', rfl, he, hl'⟩
  exact hf v w' frame' le' he (hs.grow (compileExpr_grows e hc) he) hl'

theorem ExprSim.pend {e : Expr F} {f : Value F → TW F W β} (h : ExprSim S p T e)
    (hr : Runs S X d k) (hc : compileExpr S.tables e cs b = .ok (frag, cs'))
    (hok : okExpr p k Γ e = true) (hcode : CodeAt code b (fill brk cont frag))
    (hs : Sync Γ cs env frame) (hl : LabelsIn T le)
    (hf : ∀ v w' le', LabelsIn T le' → Simulates (S.machine d code) (Clean c) (f v) w'
        (.inl (b + frag.length, X.mach (frame ++ [v]) regs le' w')) R E)
    (herr : ∀ e w' o, Fails T X (· < cs.next) false frame e w' o → E e w' o) :
    Simulates (S.machine d code) (Clean c) (Traced.wrap .pend (evalExpr S.walk e env) >>= f) w
      (.inl (b, X.mach frame regs le w)) R E := by
  refine Simulates.bind (Simulates.wrap (h (c := c.pend) hr hc hok hcode rfl hs hl)) ?_ herr
  rintro v w' o ⟨frame', le', rfl, he, hl'⟩
  obtain rfl : frame' = frame := he.same rfl
  exact hf v w' le' hl'

/-- A condition: both ways of its jump. -/
theorem ExprSim.cond {e : Expr F} {target : Nat} {A B : TW F W β} (h : ExprSim S p T e)
    (hr : Runs S X d k) (hc : compileExpr S.tables e cs b = .ok (frag, cs'))
    (hok : okExpr p k Γ e = true) (hcode : CodeAt code b (fill brk cont frag))
    (hj : code[b + frag.length]? = some (.jumpIfNotCond target))
    (hs : Sync Γ cs env frame) (hl : LabelsIn T le)
    (hA : ∀ w' frame' le', Ext (· < cs.next) c.st frame frame' → Sync Γ cs' env frame' →
      LabelsIn T le' → Simulates (S.machine d code) (Clean c) A w'
        (.inl (b + frag.length + 1, X.mach frame' regs le' w')) R E)
    (hB : ∀ w' frame' le', Ext (· < cs.next) c.st frame frame' → Sync Γ cs' env frame' →
      LabelsIn T le' → Simulates (S.machine d code) (Clean c) B w'
        (.inl (target, X.mach frame' regs le' w')) R E)
    (herr : ∀ e w' o, Fails T X (· < cs.next) c.st frame e w' o → E e w' o) :
    Simulates (S.machine d code) (Clean c) (do
        let v ← evalExpr S.walk e env
        let t ← Traced.lift v.asBool
        if t then A else B) w
      (.inl (b, X.mach frame regs le w)) R E := by
  refine h.then hr hc hok hcode hs hl (fun v w' frame' le' hx hs' hl' => ?_) herr
  refine Simulates.lift_bind (fun t ht => ?_) fun e ht => ?_
  · refine Simulates.pre (gets_jumpIfNotCond hj ht) ?_
    cases t with
    | true => exact hA w' frame' le' hx hs' hl'
    | false => exact hB w' frame' le' hx hs' hl'
  · exact ⟨_, gets_jumpIfNotCond_err hj ht, herr _ _ _ ⟨_, rfl, .here hx hl'⟩⟩

end

/-! ## Literals and names -/

section

variable {X : Fixed F} {d : Nat} {code : List (Instr F)} {c : Ctx} {b : Nat} {P : Nat → Prop}
  {frame regs : List (Value F)} {le : LabelEnv} {w : W}

/-- A constant, for the three literals. -/
theorem const_sim {v : Value F} (hi : code[b]? = some (.const v)) (hl : LabelsIn T le) :
    Simulates (S.machine d code) (Clean c) (pure v : TW F W (Value F)) w
      (.inl (b, X.mach frame regs le w)) (Pushed T X P c.st frame regs (b + 1) fun v => [v])
      (Fails T X P c.st frame) :=
  Simulates.pre (gets_const hi) (Simulates.pure ⟨frame, le, rfl, .refl frame, hl⟩)

/-- A read in scope: the slot's value, or what both sides find among the globals. -/
theorem readVar_sim {Γ : Scope} {cs : CState} {env : Env F} {x : String} (hL : Linked S X.globals)
    (hx : Γ.reads x = true) (hi : code[b]? = some (compileIdent S.tables cs x))
    (hs : Sync Γ cs env frame) (hl : LabelsIn T le) :
    Simulates (S.machine d code) (Clean c) (readVar S.walk env x) w
      (.inl (b, X.mach frame regs le w)) (Pushed T X P c.st frame regs (b + 1) fun v => [v])
      (Fails T X P c.st frame) := by
  obtain ⟨names, hb, hn⟩ := hs.live
  simp only [Scope.reads, hb, Bool.or_eq_true, Bool.and_eq_true, decide_eq_true_eq] at hx
  have found {v : Value F} (hv : (env x).orElse (fun _ => S.walk.globals x) = some v)
      (hg : (S.machine d code).Gets (.inl (b, X.mach frame regs le w))
        (.inl (b + 1, X.mach (frame ++ [v]) regs le w))) :
      Simulates (S.machine d code) (Clean c) (readVar S.walk env x) w
        (.inl (b, X.mach frame regs le w)) (Pushed T X P c.st frame regs (b + 1) fun v => [v])
        (Fails T X P c.st frame) := by
    simp only [readVar, hv]
    exact Simulates.tell fun _ =>
      Simulates.pre hg (Simulates.pure ⟨frame, le, rfl, .refl frame, hl⟩)
  rcases hx with hx | ⟨hmay, hslots⟩
  · obtain ⟨s, v, h1, h2, h3⟩ := hn x hx
    simp only [compileIdent, h1] at hi
    exact found (by simp [h2]) (gets_loadLocal hi h3)
  · have henv : env x = none := by
      cases hv : env x with
      | none => rfl
      | some v => exact absurd (hs.may hv) hmay
    have hloc : cs.locals x = none := by
      cases hv : cs.locals x with
      | none => rfl
      | some v => exact absurd (hs.slots hv) hslots
    simp only [compileIdent, hloc] at hi
    cases hslot : S.tables.globalSlot x with
    | some i =>
      obtain ⟨v, h1, h2⟩ := hL.globalSlot hslot
      simp only [hslot] at hi
      exact found (by simp [henv, h2]) (gets_loadGlobal hi h1)
    | none =>
      have hlook := hL.globalByName hslot
      simp only [hslot] at hi
      cases hg : S.walk.globals x with
      | some v =>
        rw [hg] at hlook
        exact found (by simp [henv, hg]) (gets_loadGlobalByName hi hlook)
      | none =>
        rw [hg] at hlook
        simp only [readVar, henv, hg, Option.orElse]
        exact Simulates.pre (gets_loadGlobalByName_err hi hlook)
          (Simulates.fail ⟨_, rfl, .here (.refl frame) hl⟩)

end

/-! ## Lists of expressions, calls -/

theorem exprs_nil : ExprsSim S p T ([] : List (Expr F)) := by
  intro X d k code Γ c cs cs' b b' frag brk cont env frame regs le w hr hc hok hcode hb' hs hl
  obtain ⟨rfl, rfl⟩ : [] = frag ∧ cs = cs' := by simpa [compileExprs] using hc
  obtain rfl : b' = b := by simpa using hb'
  simp only [evalExprs]
  exact Simulates.pure ⟨rfl, frame, le, by simp, .refl frame, hl⟩

theorem exprs_cons {e : Expr F} {es : List (Expr F)} (he : ExprSim S p T e)
    (hes : ExprsSim S p T es) : ExprsSim S p T (e :: es) := by
  intro X d k code Γ c cs cs' b b' frag brk cont env frame regs le w hr hc hok hcode hb' hs hl
  simp only [compileExprs, bind_ok, Except.ok.injEq, Prod.mk.injEq] at hc
  obtain ⟨⟨c₁, cs₁⟩, h₁, ⟨c₂, cs₂⟩, h₂, rfl, rfl⟩ := hc
  simp only [okExprs, Bool.and_eq_true] at hok
  simp only [fill_append, CodeAt.append_iff, length_fill] at hcode
  obtain rfl : b' = b + c₁.length + c₂.length := by simpa [Nat.add_assoc] using hb'
  simp only [evalExprs]
  refine he.then hr h₁ hok.1 hcode.1 hs hl (fun v w' frame' le' hx hs' hl' => ?_) fun _ _ _ h => h
  have hle := (compileExpr_grows e h₁).next
  refine Simulates.bind
    (Simulates.wrap (hes (c := c.pend) hr h₂ hok.2 hcode.2 rfl hs'.append hl')) ?_
    fun _ _ _ hf => hf.cut hx (fun s hlt => Nat.lt_of_lt_of_le hlt hle) fun _ => rfl
  rintro vs w'' o ⟨hlen, frame'', le'', rfl, hx', hl''⟩
  obtain rfl : frame'' = frame' ++ [v] := hx'.same rfl
  exact Simulates.pure ⟨by simp [hlen], frame', le'', by simp, hx, hl''⟩

/-- Arguments that do not stand for themselves are evaluated like any list. -/
theorem evalCallArgs_eq {I : Interpreter F W} {fn : String} {args : List (Expr F)} {env : Env F}
    (h : ∀ a ∈ args.head?, bareIdentArg I fn a = none) :
    evalCallArgs I fn args env = evalExprs I args env := by
  cases args with
  | nil => rfl
  | cons a as =>
    have ha : bareIdentArg I fn a = none := h a (by simp)
    simp only [evalCallArgs, evalExprs, ha]

theorem fnCall_sim {name : String} {args : List (Expr F)} {line : Nat} (hA : Agrees S p T)
    (hargs : ExprsSim S p T args) : ExprSim S p T (.fnCall name args line) := by
  intro X d k code Γ c cs cs' b b' frag brk cont env frame regs le w hr hc hok hcode hb' hs hl
  simp only [compileExpr, bind_ok, Except.ok.injEq, Prod.mk.injEq] at hc
  obtain ⟨⟨c₁, cs₁⟩, h₁, i, hi, rfl, rfl⟩ := hc
  simp only [okExpr, Bool.and_eq_true] at hok
  simp only [fill_append, fill_code, CodeAt.append_iff, length_fill, CodeAt.cons_iff, CodeAt.nil,
    and_true] at hcode
  obtain rfl : b' = b + c₁.length + 1 := by simpa [Nat.add_assoc] using hb'
  obtain ⟨hres, hbare, har⟩ := hA.call hok.1
  obtain ⟨callee, hcallee, hcall⟩ := compileCall_ok hi
  simp only [evalExpr, evalCallArgs_eq hbare, hres, hcallee]
  refine Simulates.bind (hargs hr h₁ hok.2 hcode.1 rfl hs hl) ?_ fun _ _ _ h => h
  rintro vs w' o ⟨hlen, frame', le', rfl, hx, hl'⟩
  refine call_sim hA hr.linked hcode.2 (hlen ▸ hcall) (fun g hg => ?_) hx hl'
  subst hg
  have hgf : g = name := by
    simp only [calleeOf] at hcallee
    split_ifs at hcallee <;> simp_all
  rw [hlen, hgf]
  exact har (hgf ▸ hcallee)

theorem qualifiedCall_sim {ns fn : String} {args : List (Expr F)} (hA : Agrees S p T)
    (hargs : ExprsSim S p T args) : ExprSim S p T (.qualifiedCall ns fn args) := by
  intro X d k code Γ c cs cs' b b' frag brk cont env frame regs le w hr hc hok hcode hb' hs hl
  simp only [compileExpr, bind_ok, Except.ok.injEq, Prod.mk.injEq] at hc
  obtain ⟨⟨c₁, cs₁⟩, h₁, i, hi, rfl, rfl⟩ := hc
  simp only [okExpr, Bool.and_eq_true] at hok
  simp only [fill_append, fill_code, CodeAt.append_iff, length_fill, CodeAt.cons_iff, CodeAt.nil,
    and_true] at hcode
  obtain rfl : b' = b + c₁.length + 1 := by simpa [Nat.add_assoc] using hb'
  obtain ⟨callee, hcallee, hcall⟩ := compileQualified_ok hi
  obtain ⟨hres, har⟩ := hA.qualified hok.1 hcallee
  simp only [evalExpr, hres]
  refine Simulates.bind (hargs hr h₁ hok.2 hcode.1 rfl hs hl) ?_ fun _ _ _ h => h
  rintro vs w' o ⟨hlen, frame', le', rfl, hx, hl'⟩
  exact call_sim hA hr.linked hcode.2 (hlen ▸ hcall) (fun g hg => hlen.trans (har g hg)) hx hl'

/-! ## Operators -/

theorem fieldAccess_sim {e : Expr F} {field : String} (he : ExprSim S p T e) :
    ExprSim S p T (.fieldAccess e field) := by
  intro X d k code Γ c cs cs' b b' frag brk cont env frame regs le w hr hc hok hcode hb' hs hl
  simp only [compileExpr, bind_ok, Except.ok.injEq, Prod.mk.injEq] at hc
  obtain ⟨⟨c₁, cs₁⟩, h₁, rfl, rfl⟩ := hc
  simp only [okExpr] at hok
  simp only [fill_append, fill_code, CodeAt.append_iff, length_fill, CodeAt.cons_iff, CodeAt.nil,
    and_true] at hcode
  obtain rfl : b' = b + c₁.length + 1 := by simpa [Nat.add_assoc] using hb'
  simp only [evalExpr]
  refine he.then hr h₁ hok hcode.1 hs hl (fun v w' frame' le' hx _ hl' => ?_) fun _ _ _ h => h
  exact Simulates.lift
    (fun u hu => ⟨_, gets_getField hcode.2 hu, frame', le', rfl, hx, hl'⟩)
    (fun e hu => ⟨_, gets_getField_err hcode.2 hu, _, rfl, .here hx hl'⟩)

theorem applyBinop_sim {X : Fixed F} {d : Nat} {code : List (Instr F)} {c : Ctx} {b : Nat}
    {P : Nat → Prop} {frame frame' regs : List (Value F)} {le : LabelEnv} {w : W} {l r : Value F}
    {op : BinOp} (hop : op ≠ .and ∧ op ≠ .or) (hi : code[b]? = some (compileOp op))
    (hx : Ext P c.st frame frame') (hl : LabelsIn T le) :
    Simulates (S.machine d code) (Clean c) (applyBinop l op r) w
      (.inl (b, X.mach (frame' ++ [l] ++ [r]) regs le w))
      (Pushed T X P c.st frame regs (b + 1) fun v => [v]) (Fails T X P c.st frame) := by
  have happly (hne : op = .ne → comparable l r = true) :
      Simulates (S.machine d code) (Clean c) (.lift (twBinop l op r) : TW F W (Value F)) w
        (.inl (b, X.mach (frame' ++ [l] ++ [r]) regs le w))
        (Pushed T X P c.st frame regs (b + 1) fun v => [v]) (Fails T X P c.st frame) := by
    refine Simulates.lift (fun u hu => ?_) (fun e hu => ?_)
    · refine ⟨_, gets_next hi ⟨0, fun _ _ => ?_⟩, frame', le, rfl, hx, hl⟩
      rw [step_compileOp hop hne, hu]
      exact congrArg _ Fixed.mach_push
    · refine ⟨.inr (.error e, X.mach frame' regs le w), gets_err hi ⟨0, fun _ _ => ?_⟩, _, rfl,
        .here hx hl⟩
      rw [step_compileOp hop hne, hu]
      rfl
  unfold applyBinop
  split_ifs with h
  · exact Simulates.tell fun hne => happly fun _ => hne
  · exact happly fun he => absurd he h

theorem compileExpr_strict {t : Tables} {l r : Expr F} {op : BinOp} (hop : op ≠ .and ∧ op ≠ .or)
    (cs : CState) (b : Nat) :
    compileExpr t (.binaryOp l op r) cs b = (do
      let (cl, cs) ← compileExpr t l cs b
      let (cr, cs) ← compileExpr t r cs (b + cl.length)
      .ok (cl ++ cr ++ Compile.code [compileOp op], cs)) := by
  cases op <;> simp_all [compileExpr]

theorem strictOp_sim {l r : Expr F} {op : BinOp} (hop : op ≠ .and ∧ op ≠ .or)
    (hsl : ExprSim S p T l) (hsr : ExprSim S p T r) : ExprSim S p T (.binaryOp l op r) := by
  intro X d k code Γ c cs cs' b b' frag brk cont env frame regs le w hr hc hok hcode hb' hs hl
  rw [compileExpr_strict hop] at hc
  simp only [bind_ok, Except.ok.injEq, Prod.mk.injEq] at hc
  obtain ⟨⟨c₁, cs₁⟩, h₁, ⟨c₂, cs₂⟩, h₂, rfl, rfl⟩ := hc
  simp only [okExpr, Bool.and_eq_true] at hok
  simp only [fill_append, fill_code, CodeAt.append_iff, List.length_append, length_fill,
    CodeAt.cons_iff, CodeAt.nil, and_true, ← Nat.add_assoc] at hcode
  obtain rfl : b' = b + c₁.length + c₂.length + 1 := by simpa [Nat.add_assoc] using hb'
  have heval : evalExpr S.walk (.binaryOp l op r) env = (do
      let a ← evalExpr S.walk l env
      let v ← Traced.wrap .pend (evalExpr S.walk r env)
      applyBinop a op v) := by
    cases op <;> simp_all [evalExpr]
  rw [heval]
  refine hsl.then hr h₁ hok.1 hcode.1.1 hs hl (fun a w' frame' le' hx hs' hl' => ?_)
    fun _ _ _ h => h
  have hle := (compileExpr_grows l h₁).next
  refine hsr.pend hr h₂ hok.2 hcode.1.2 hs'.append hl' (fun v w'' le'' hl'' => ?_) fun _ _ _ hf =>
    hf.cut hx (fun s hlt => Nat.lt_of_lt_of_le hlt hle) fun _ => rfl
  exact applyBinop_sim hop hcode.2 hx hl''

/-- The right operand of `and`/`or` and the constant its truth becomes. -/
theorem truth_sim {X : Fixed F} {d k : Nat} {code : List (Instr F)} {Γ : Scope} {c : Ctx}
    {cs cs' : CState} {b : Nat} {frag : Frag F} {brk cont : Nat} {env : Env F} {P : Nat → Prop}
    {frame frame' regs : List (Value F)} {le : LabelEnv} {w : W} {e : Expr F}
    (he : ExprSim S p T e) (hr : Runs S X d k)
    (hc : compileExpr S.tables e cs b = .ok (frag, cs')) (hok : okExpr p k Γ e = true)
    (hcode : CodeAt code b (fill brk cont frag)) (hs : Sync Γ cs env frame') (hl : LabelsIn T le)
    (hx : Ext P c.st frame frame') (hP : ∀ s, P s → s < cs.next)
    (h0 : code[b + frag.length]? = some (.jumpIfNot (b + frag.length + 3)))
    (h1 : code[b + frag.length + 1]? = some (.const (.bool true)))
    (h2 : code[b + frag.length + 2]? = some (.jump (b + frag.length + 4)))
    (h3 : code[b + frag.length + 3]? = some (.const (.bool false))) :
    Simulates (S.machine d code) (Clean c) (do
        let v ← evalExpr S.walk e env
        pure (.bool v.isTruthy)) w
      (.inl (b, X.mach frame' regs le w))
      (Pushed T X P c.st frame regs (b + frag.length + 4) fun v => [v])
      (Fails T X P c.st frame) := by
  refine he.then hr hc hok hcode hs hl (fun v w' fr le' hx' _ hl' => ?_) fun _ _ _ h => h.mono hx hP
  refine Simulates.pre (gets_jumpIfNot h0) ?_
  have hx'' := hx.trans (hx'.mono hP)
  cases v.isTruthy with
  | true =>
    exact Simulates.pre ((gets_const h1).trans (gets_jump h2))
      (Simulates.pure ⟨fr, le', rfl, hx'', hl'⟩)
  | false =>
    exact Simulates.pre (gets_const h3) (Simulates.pure ⟨fr, le', rfl, hx'', hl'⟩)

theorem and_sim {l r : Expr F} (hsl : ExprSim S p T l) (hsr : ExprSim S p T r) :
    ExprSim S p T (.binaryOp l .and r) := by
  intro X d k code Γ c cs cs' b b' frag brk cont env frame regs le w hr hc hok hcode hb' hs hl
  simp only [compileExpr, bind_ok, Except.ok.injEq, Prod.mk.injEq] at hc
  obtain ⟨⟨c₁, cs₁⟩, h₁, ⟨c₂, cs₂⟩, h₂, rfl, rfl⟩ := hc
  simp only [okExpr, Bool.and_eq_true] at hok
  simp only [fill_append, fill_code, CodeAt.append_iff, List.length_append, length_fill,
    CodeAt.cons_iff, CodeAt.nil, and_true, List.length_cons, List.length_nil, ← Nat.add_assoc]
    at hcode
  obtain ⟨⟨⟨hc₁, hj⟩, hc₂⟩, i0, i1, i2, i3⟩ := hcode
  obtain rfl : b' = b + c₁.length + 1 + c₂.length + 4 := by
    simp at hb'
    omega
  simp only [evalExpr]
  have hle := (compileExpr_grows l h₁).next
  refine hsl.then hr h₁ hok.1 hc₁ hs hl (fun a w' frame' le' hx hs' hl' => ?_) fun _ _ _ h => h
  refine Simulates.pre (gets_jumpIfNot hj) ?_
  cases ha : a.isTruthy with
  | true =>
    exact truth_sim hsr hr h₂ hok.2 hc₂ hs' hl' hx (fun s hlt => Nat.lt_of_lt_of_le hlt hle)
      i0 i1 i2 i3
  | false => exact Simulates.pre (gets_const i3) (Simulates.pure ⟨frame', le', rfl, hx, hl'⟩)

theorem or_sim {l r : Expr F} (hsl : ExprSim S p T l) (hsr : ExprSim S p T r) :
    ExprSim S p T (.binaryOp l .or r) := by
  intro X d k code Γ c cs cs' b b' frag brk cont env frame regs le w hr hc hok hcode hb' hs hl
  simp only [compileExpr, bind_ok, Except.ok.injEq, Prod.mk.injEq] at hc
  obtain ⟨⟨c₁, cs₁⟩, h₁, ⟨c₂, cs₂⟩, h₂, rfl, rfl⟩ := hc
  simp only [okExpr, Bool.and_eq_true] at hok
  simp only [fill_append, fill_code, CodeAt.append_iff, List.length_append, length_fill,
    CodeAt.cons_iff, CodeAt.nil, and_true, List.length_cons, List.length_nil, ← Nat.add_assoc]
    at hcode
  obtain ⟨⟨⟨hc₁, j0, j1, j2⟩, hc₂⟩, i0, i1, i2, i3⟩ := hcode
  obtain rfl : b' = b + c₁.length + 3 + c₂.length + 4 := by
    simp at hb'
    omega
  simp only [evalExpr]
  have hle := (compileExpr_grows l h₁).next
  refine hsl.then hr h₁ hok.1 hc₁ hs hl (fun a w' frame' le' hx hs' hl' => ?_) fun _ _ _ h => h
  refine Simulates.pre (gets_jumpIfNot j0) ?_
  cases ha : a.isTruthy with
  | true =>
    exact Simulates.pre ((gets_const j1).trans (gets_jump j2))
      (Simulates.pure ⟨frame', le', rfl, hx, hl'⟩)
  | false =>
    exact truth_sim hsr hr h₂ hok.2 hc₂ hs' hl' hx (fun s hlt => Nat.lt_of_lt_of_le hlt hle)
      i0 i1 i2 i3

theorem binaryOp_sim {l r : Expr F} {op : BinOp} (hsl : ExprSim S p T l) (hsr : ExprSim S p T r) :
    ExprSim S p T (.binaryOp l op r) := by
  cases op with
  | and => exact and_sim hsl hsr
  | or => exact or_sim hsl hsr
  | _ => exact strictOp_sim (by simp) hsl hsr

theorem ifElse_sim {cnd th el : Expr F} (hc : ExprSim S p T cnd) (ht : ExprSim S p T th)
    (he : ExprSim S p T el) : ExprSim S p T (.ifElse cnd th el) := by
  intro X d k code Γ c cs cs' b b' frag brk cont env frame regs le w hr hcomp hok hcode hb' hs hl
  simp only [compileExpr, bind_ok, Except.ok.injEq, Prod.mk.injEq] at hcomp
  obtain ⟨⟨c₁, cs₁⟩, h₁, ⟨c₂, cs₂⟩, h₂, ⟨c₃, cs₃⟩, h₃, rfl, rfl⟩ := hcomp
  simp only [okExpr, Bool.and_eq_true] at hok
  simp only [ifShape, fill_append, fill_code, CodeAt.append_iff, List.length_append, length_fill,
    CodeAt.cons_iff, CodeAt.nil, and_true, List.length_cons, List.length_nil, Nat.zero_add,
    ← Nat.add_assoc] at hcode
  obtain ⟨⟨⟨⟨hc₁, hj⟩, hc₂⟩, hj'⟩, hc₃⟩ := hcode
  obtain rfl : b' = b + c₁.length + 1 + c₂.length + 1 + c₃.length := by
    simp [ifShape] at hb'
    omega
  simp only [evalExpr]
  have hle₁ := (compileExpr_grows cnd h₁).next
  have hle₂ := (compileExpr_grows th h₂).next
  have g₁ (s : Nat) (hlt : s < cs.next) : s < cs₁.next := Nat.lt_of_lt_of_le hlt hle₁
  have g₂ (s : Nat) (hlt : s < cs.next) : s < cs₂.next := Nat.lt_of_lt_of_le (g₁ s hlt) hle₂
  refine hc.cond hr h₁ hok.1.1 hc₁ hj hs hl (fun w' frame' le' hx hs' hl' => ?_)
    (fun w' frame' le' hx hs' hl' => ?_) fun _ _ _ h => h
  · refine Simulates.post (ht hr h₂ hok.1.2 hc₂ rfl hs' hl') ?_ fun _ _ _ h => h.mono hx g₁
    rintro v w'' o ⟨fr, le'', rfl, hx', hl''⟩
    exact ⟨_, gets_jump hj', fr, le'', rfl, hx.trans (hx'.mono g₁), hl''⟩
  · have hs₂ := hs'.grow (compileExpr_grows th h₂) (Ext.refl frame' : Ext _ false frame' frame')
    refine Simulates.post (he hr h₃ hok.2 hc₃ rfl hs₂ hl') ?_ fun _ _ _ h => h.mono hx g₂
    rintro v w'' o ⟨fr, le'', rfl, hx', hl''⟩
    exact ⟨_, .refl _, fr, le'', rfl, hx.trans (hx'.mono g₂), hl''⟩

/-! ## Composites -/

theorem list_sim {items : List (Expr F)} (hes : ExprsSim S p T items) :
    ExprSim S p T (.list items) := by
  intro X d k code Γ c cs cs' b b' frag brk cont env frame regs le w hr hc hok hcode hb' hs hl
  simp only [compileExpr, bind_ok, Except.ok.injEq, Prod.mk.injEq] at hc
  obtain ⟨⟨c₁, cs₁⟩, h₁, rfl, rfl⟩ := hc
  simp only [okExpr] at hok
  simp only [fill_append, fill_code, CodeAt.append_iff, length_fill, CodeAt.cons_iff, CodeAt.nil,
    and_true] at hcode
  obtain rfl : b' = b + c₁.length + 1 := by simpa [Nat.add_assoc] using hb'
  simp only [evalExpr]
  refine Simulates.bind (hes hr h₁ hok hcode.1 rfl hs hl) ?_ fun _ _ _ h => h
  rintro vs w' o ⟨hlen, frame', le', rfl, hx, hl'⟩
  exact Simulates.pre (gets_makeList hcode.2 hlen) (Simulates.pure ⟨frame', le', rfl, hx, hl'⟩)

theorem structLit_sim {keys : List String} {values : List (Expr F)} (hes : ExprsSim S p T values) :
    ExprSim S p T (.structLit keys values) := by
  intro X d k code Γ c cs cs' b b' frag brk cont env frame regs le w hr hc hok hcode hb' hs hl
  simp only [compileExpr, bind_ok, Except.ok.injEq, Prod.mk.injEq] at hc
  obtain ⟨⟨c₁, cs₁⟩, h₁, rfl, rfl⟩ := hc
  simp only [okExpr, Bool.and_eq_true, decide_eq_true_eq] at hok
  simp only [fill_append, fill_code, CodeAt.append_iff, length_fill, CodeAt.cons_iff, CodeAt.nil,
    and_true] at hcode
  obtain rfl : b' = b + c₁.length + 1 := by simpa [Nat.add_assoc] using hb'
  simp only [evalExpr]
  refine Simulates.bind (hes hr h₁ hok.2 hcode.1 rfl hs hl) ?_ fun _ _ _ h => h
  rintro vs w' o ⟨hlen, frame', le', rfl, hx, hl'⟩
  exact Simulates.pre (gets_makeStruct hcode.2 (hlen.trans hok.1.2.symm))
    (Simulates.pure ⟨frame', le', rfl, hx, hl'⟩)

theorem indexAccess_sim {e i : Expr F} (he : ExprSim S p T e) (hi : ExprSim S p T i) :
    ExprSim S p T (.indexAccess e i) := by
  intro X d k code Γ c cs cs' b b' frag brk cont env frame regs le w hr hc hok hcode hb' hs hl
  simp only [compileExpr, bind_ok, Except.ok.injEq, Prod.mk.injEq] at hc
  obtain ⟨⟨c₁, cs₁⟩, h₁, ⟨c₂, cs₂⟩, h₂, rfl, rfl⟩ := hc
  simp only [okExpr, Bool.and_eq_true] at hok
  simp only [fill_append, fill_code, CodeAt.append_iff, List.length_append, length_fill,
    CodeAt.cons_iff, CodeAt.nil, and_true, ← Nat.add_assoc] at hcode
  obtain rfl : b' = b + c₁.length + c₂.length + 1 := by simpa [Nat.add_assoc] using hb'
  simp only [evalExpr]
  have hle := (compileExpr_grows e h₁).next
  refine he.then hr h₁ hok.1.2 hcode.1.1 hs hl (fun a w' frame' le' hx hs' hl' => ?_)
    fun _ _ _ h => h
  refine hi.pend hr h₂ hok.2 hcode.1.2 hs'.append hl' (fun v w'' le'' hl'' => ?_) fun _ _ _ hf =>
    hf.cut hx (fun s hlt => Nat.lt_of_lt_of_le hlt hle) fun _ => rfl
  refine Simulates.tell fun hclean => ?_
  obtain ⟨⟨u, hu⟩, hstr⟩ := hclean
  rw [hu]
  have hv : vmIndex a v = u := vmIndex_of_twIndex hstr hu
  refine Simulates.lift (fun u' hu' => ?_) (by intro _ herr; cases herr)
  obtain rfl : u = u' := Except.ok.inj hu'
  exact ⟨_, gets_indexAccess hcode.2, frame', le'', by rw [hv], hx, hl''⟩

theorem tryExpr_sim {e : Expr F} (he : ExprSim S p T e) : ExprSim S p T (.try_ e) := by
  intro X d k code Γ c cs cs' b b' frag brk cont env frame regs le w hr hc hok hcode hb' hs hl
  simp only [compileExpr, bind_ok, Except.ok.injEq, Prod.mk.injEq] at hc
  obtain ⟨⟨c₁, cs₁⟩, h₁, rfl, rfl⟩ := hc
  obtain ⟨k, rfl⟩ : ∃ k', k = k' + 1 := by
    cases k with
    | zero => simp [okExpr] at hok
    | succ k => exact ⟨k, rfl⟩
  obtain ⟨d, rfl⟩ : ∃ d', d = d' + 1 := ⟨d - 1, by have := hr.fuel; omega⟩
  simp only [okExpr] at hok
  simp only [fill_code, CodeAt.cons_iff, CodeAt.nil, and_true] at hcode
  obtain rfl : b' = b + 1 := by simpa using hb'
  simp only [evalExpr]
  have hr' : Runs S X.deeper d k := by
    refine ⟨hr.linked, ?_, ?_⟩
    · have := hr.depth
      simp only [Fixed.deeper]
      omega
    · have := hr.fuel
      omega
  have hd : X.depth + 1 ≤ S.maxDepth := by
    have := hr.depth
    omega
  exact try_sim hd hcode (he hr' h₁ hok CodeAt.self (by simp) hs hl)

/-! ## Media -/

theorem handleSource_sim {origin : String} (hA : Agrees S p T) :
    ExprSim S p T (.handleSource origin) := by
  intro X d k code Γ c cs cs' b b' frag brk cont env frame regs le w hr hc hok hcode hb' hs hl
  simp only [compileExpr] at hc
  split at hc
  · rename_i i hi
    obtain ⟨rfl, rfl⟩ : _ = frag ∧ cs = cs' := by simpa using hc
    simp only [fill_code, CodeAt.cons_iff, CodeAt.nil, and_true] at hcode
    obtain rfl : b' = b + 1 + 1 := by simpa using hb'
    simp only [evalExpr]
    refine Simulates.pre (gets_const hcode.1) ?_
    change Simulates _ _ (callResolved S.walk "" [.string origin]
      (.builtin "media_source_capture")) _ _ _ _
    exact call_sim hA hr.linked hcode.2 ⟨i, hi, rfl⟩ (by intro _ hsame; cases hsame) (.refl frame) hl
  · simp at hc

theorem provBind_sim {origin : String} {e : Expr F} (hA : Agrees S p T) (he : ExprSim S p T e) :
    ExprSim S p T (.provBind origin e) := by
  intro X d k code Γ c cs cs' b b' frag brk cont env frame regs le w hr hc hok hcode hb' hs hl
  simp only [compileExpr] at hc
  split at hc
  · rename_i i hi
    simp only [bind_ok, Except.ok.injEq, Prod.mk.injEq] at hc
    obtain ⟨⟨c₁, cs₁⟩, h₁, rfl, rfl⟩ := hc
    simp only [okExpr] at hok
    simp only [fill_append, fill_code, CodeAt.append_iff, List.length_append, length_fill,
      CodeAt.cons_iff, CodeAt.nil, and_true, List.length_cons, List.length_nil, Nat.zero_add,
      ← Nat.add_assoc] at hcode
    obtain rfl : b' = b + 1 + c₁.length + 1 := by
      simp at hb'
      omega
    simp only [evalExpr]
    refine Simulates.pre (gets_const hcode.1.1) ?_
    refine he.pend hr h₁ hok hcode.1.2 hs.append hl (fun v w' le' hl' => ?_) fun _ _ _ hf =>
      hf.cut (.refl frame) (fun s hlt => hlt) fun _ => rfl
    have hstack : frame ++ [Value.string origin] ++ [v] = frame ++ [Value.string origin, v] := by simp
    rw [hstack]
    change Simulates _ _ (callResolved S.walk "" [.string origin, v]
      (.builtin "media_bind_origin")) _ _ _ _
    exact call_sim hA hr.linked hcode.2 ⟨i, hi, rfl⟩ (by intro _ hsame; cases hsame) (.refl frame) hl'
  · simp at hc

end Metalogos.Refine
