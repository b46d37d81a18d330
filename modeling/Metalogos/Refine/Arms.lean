import Metalogos.Refine.Blocks

/-!
# Simulation of block expressions

An arm of a block `if` or of a let-bound `match` is a block of its own on a copy of the
environment; its value comes back through the value register. On the machine the copy is the
protection of every older slot (`Scope.arm`, `Guard`), and a `return` in the arm ends it because it
stands last.
-/
namespace Metalogos.Refine

open Metalogos.Lang Metalogos.Machine Metalogos.Compile Metalogos.Walk Metalogos.Lib

variable {F W : Type} [FloatModel F]

variable {S : Setup F W} {p : Policy F} {T : List String}

section

variable {X : Fixed F} {d k : Nat} {code : List (Instr F)} {Γ : Scope} {c : Ctx} {cs cs' : CState}
  {b : Nat} {frag : Frag F} {brk cont : Nat} {env : Env F} {frame rs : List (Value F)}
  {le : LabelEnv} {w : W}

omit [FloatModel F] in
theorem Sync.enterArm (hs : Sync Γ cs env frame) : Sync Γ.arm (BodyKind.arm.enter cs) env frame :=
  ⟨hs.live, hs.may, hs.slots, ⟨hs.ok.inj, hs.ok.lt⟩⟩

omit [FloatModel F] in
/-- In an arm every slot from before it is protected. -/
theorem Guard.enterArm (hs : Sync Γ cs env frame) :
    Guard (· < cs.next) Γ.arm (BodyKind.arm.enter cs) :=
  ⟨fun hx _ => hs.slots hx, fun h => h⟩

theorem armValue_sim {body : List (Stmt F)} (hb : StmtsSim S p T body) (hr : Runs S X d k)
    (hc : (BodyKind.arm.leave cs) <$>
      compileStmts S.tables .arm body (BodyKind.arm.enter cs) b = .ok (frag, cs'))
    (hok : okStmts p k .arm true Γ.arm body = true) (hcode : CodeAt code b (fill brk cont frag))
    (hs : Sync Γ cs env frame) (hl : LabelsIn T le) :
    Simulates (S.machine d code) (Clean c) (armValue (evalStmts S.walk body .unit env [])) w
      (.inl (b, X.mach frame (.unit :: rs) le w))
      (Valued T X (· < cs.next) c.st frame rs (b + frag.length))
      (Fails T X (· < cs.next) c.st frame) := by
  obtain ⟨⟨frag', cs₁⟩, h₁, hleave⟩ := map_ok.1 hc
  obtain rfl : frag' = frag := (Prod.mk.inj hleave).1
  -- no loop encloses the arm's statements: its base is empty
  let L : Base := ⟨[], Γ.may ++ letsStmts body ++ loopVarsStmts body, cs.locals⟩
  have hL : L.Inside Γ.arm (BodyKind.arm.enter cs) (letsStmts body) (loopVarsStmts body) := by
    refine ⟨by simp [L], by simp [L], fun {x} hx => ?_, by simp [L], by simp [L]⟩
    simpa [L, Scope.arm, or_assoc] using hx
  have hregs : Regs .arm rs .unit .unit (.unit :: rs : List (Value F)) :=
    ⟨.unit, rfl, fun _ => rfl, fun _ => .inl rfl⟩
  refine Simulates.bind (Simulates.wrap (hb (g := ⟨X, (· < cs.next), c.arm, frame, rs, .unit,
    b + frag'.length, brk, cont, L⟩) hr h₁ rfl rfl hok hcode rfl (Ctx.Ok.toArm c) hs.enterArm
    (Guard.enterArm hs) hL hregs hl fun _ => rfl)) ?_ fun _ _ _ h => h
  rintro ⟨sig, env', muts'⟩ w' o ⟨hd, -⟩
  cases sig with
  | normal v =>
    obtain ⟨fr, regs, le', rfl, hx, ⟨r, rfl, h1, h2⟩, hl', -⟩ := hd
    refine Simulates.pure ⟨fr, le', ?_, hx, hl'⟩
    have hv : r = v := by
      by_cases hu : v = .unit
      · rcases h2 hu with h | h <;> rw [h, hu]
      · exact h1 hu
    rw [hv]
  | brk => cases hd.1
  | cont => cases hd.1
  | ret v => exact Simulates.pure hd.2

end

/-! ## Chains of arms -/

theorem elseValue_none : ElseValueSim S p T (.none : ElseChain F) := by
  intro X d k code Γ c cs cs' b b' frag brk cont env frame rs le w hr hc hok hcode hb' hs hl
  obtain ⟨rfl, rfl⟩ : [] = frag ∧ cs = cs' := by simpa [compileElse, unitIf, BodyKind.keeps] using hc
  obtain rfl : b' = b := by simpa using hb'
  simp only [evalElseValue]
  exact Simulates.pure ⟨frame, le, rfl, .refl frame, hl⟩

theorem elseValue_else {body : List (Stmt F)} (hb : StmtsSim S p T body) :
    ElseValueSim S p T (.else_ body) := by
  intro X d k code Γ c cs cs' b b' frag brk cont env frame rs le w hr hc hok hcode hb' hs hl
  subst hb'
  simp only [compileElse] at hc
  simp only [okElse, if_true] at hok
  simp only [evalElseValue]
  exact armValue_sim hb hr hc hok hcode hs hl

theorem elseValue_elseIf {cnd : Expr F} {body : List (Stmt F)} {rest : ElseChain F}
    (hcnd : ExprSim S p T cnd) (hb : StmtsSim S p T body) (hrest : ElseValueSim S p T rest) :
    ElseValueSim S p T (.elseIf cnd body rest) := by
  intro X d k code Γ c cs cs' b b' frag brk cont env frame rs le w hr hc hok hcode hb' hs hl
  simp only [compileElse, bind_ok, Except.ok.injEq, Prod.mk.injEq] at hc
  obtain ⟨⟨c₁, cs₁⟩, h₁, ⟨c₂, cs₂⟩, h₂, ⟨c₃, cs₃⟩, h₃, rfl, rfl⟩ := hc
  simp only [okElse, if_true, Bool.and_eq_true] at hok
  simp only [ifShape, fill_append, fill_code, CodeAt.append_iff, List.length_append, length_fill,
    CodeAt.cons_iff, CodeAt.nil, and_true, List.length_cons, List.length_nil, Nat.zero_add,
    ← Nat.add_assoc] at hcode
  obtain ⟨⟨⟨⟨hc₁, hj⟩, hc₂⟩, hj'⟩, hc₃⟩ := hcode
  obtain rfl : b' = b + c₁.length + 1 + c₂.length + 1 + c₃.length := by
    simp [ifShape] at hb'
    omega
  have g₁ := compileExpr_grows cnd h₁
  have g₂ := Grows.block h₂ fun hx => compileStmts_grows .arm body (fun _ => rfl) hx
  have le₁ (s : Nat) (h : s < cs.next) : s < cs₁.next := Nat.lt_of_lt_of_le h g₁.next
  have le₂ (s : Nat) (h : s < cs.next) : s < cs₂.next := Nat.lt_of_lt_of_le (le₁ s h) g₂.next
  simp only [evalElseValue]
  refine hcnd.cond hr h₁ hok.1.1 hc₁ hj hs hl (fun w' fr le' hx hs' hl' => ?_)
    (fun w' fr le' hx hs' hl' => ?_) fun _ _ _ h => h
  · refine Simulates.post (armValue_sim hb hr h₂ hok.1.2 hc₂ hs' hl') ?_
      fun _ _ _ h => h.mono hx le₁
    rintro v w'' o ⟨fr', le'', rfl, hx', hl''⟩
    exact ⟨_, gets_jump hj', fr', le'', rfl, hx.trans (hx'.mono le₁), hl''⟩
  · have hs₂ : Sync Γ cs₂ env fr := hs'.grow g₂ (Ext.refl fr : Ext _ false fr fr)
    refine Simulates.post (hrest hr h₃ hok.2 hc₃ rfl hs₂ hl') ?_ fun _ _ _ h => h.mono hx le₂
    rintro v w'' o ⟨fr', le'', rfl, hx', hl''⟩
    exact ⟨_, .refl _, fr', le'', rfl, hx.trans (hx'.mono le₂), hl''⟩

theorem blockIfElse_sim {cnd : Expr F} {body : List (Stmt F)} {rest : ElseChain F}
    (hcnd : ExprSim S p T cnd) (hb : StmtsSim S p T body) (hrest : ElseValueSim S p T rest) :
    ExprSim S p T (.blockIfElse cnd body rest) := by
  intro X d k code Γ c cs cs' b b' frag brk cont env frame regs le w hr hc hok hcode hb' hs hl
  simp only [compileExpr, bind_ok, Except.ok.injEq, Prod.mk.injEq] at hc
  obtain ⟨⟨c₁, cs₁⟩, h₁, ⟨c₂, cs₂⟩, h₂, ⟨c₃, cs₃⟩, h₃, rfl, rfl⟩ := hc
  -- between its two register instructions it is a chain of arms
  have hchain := elseValue_elseIf hcnd hb hrest
  have hcomp : compileElse S.tables .arm (.elseIf cnd body rest) cs (b + 1) =
      .ok (ifShape (b + 1) c₁ c₂ c₃, cs₃) := by
    simp only [compileElse, bind_ok, Except.ok.injEq, Prod.mk.injEq]
    exact ⟨(c₁, cs₁), h₁, (c₂, cs₂), h₂, (c₃, cs₃), h₃, rfl, rfl⟩
  have hok' : okElse p k .arm true Γ (.elseIf cnd body rest) = true := by
    simp only [okExpr, Bool.and_eq_true] at hok
    simp [okElse, hok.1.1.2, hok.1.2, hok.2]
  simp only [fill_append, fill_code, CodeAt.append_iff, List.length_append, length_fill,
    CodeAt.cons_iff, CodeAt.nil, and_true, List.length_cons, List.length_nil, Nat.zero_add,
    ← Nat.add_assoc] at hcode
  obtain ⟨⟨hbegin, hmid⟩, hend⟩ := hcode
  obtain rfl : b' = b + 1 + (ifShape (b + 1) c₁ c₂ c₃).length + 1 := by
    simp at hb'
    omega
  have heval : evalExpr S.walk (.blockIfElse cnd body rest) env =
      evalElseValue S.walk (.elseIf cnd body rest) env := by
    simp only [evalExpr, evalElseValue]
  rw [heval]
  refine Simulates.pre (gets_beginValueExpr hbegin) ?_
  refine Simulates.post (hchain hr hcomp hok' hmid rfl hs hl) ?_ fun _ _ _ h => h
  rintro v w' o ⟨fr, le', rfl, hx, hl'⟩
  exact ⟨_, gets_endValueExpr hend, fr, le', rfl, hx, hl'⟩

/-! ## Arms of a let-bound `match` -/

theorem armsValue_none : ArmsValueSim S p T (.none : MatchArms F) := by
  intro X d k code Γ c cs cs' b b' frag brk cont sv env frame rs le w hr hc hok hcode hb' hs hl
  obtain ⟨rfl, rfl⟩ : [] = frag ∧ cs = cs' := by simpa [compileArms, unitIf, BodyKind.keeps] using hc
  obtain rfl : b' = b := by simpa using hb'
  simp only [evalArmsValue]
  exact Simulates.pure ⟨_, le, rfl, .refl _, hl⟩

theorem armsValue_else {body : List (Stmt F)} (hb : StmtsSim S p T body) :
    ArmsValueSim S p T (.else_ body) := by
  intro X d k code Γ c cs cs' b b' frag brk cont sv env frame rs le w hr hc hok hcode hb' hs hl
  subst hb'
  simp only [compileArms] at hc
  simp only [okArms, if_true] at hok
  simp only [evalArmsValue]
  exact armValue_sim hb hr hc hok hcode hs.append hl

/-- The test of an arm is on the stack: the arm, or the arms after it. -/
theorem armsValue_test {body : List (Stmt F)} {rest : MatchArms F} (hb : StmtsSim S p T body)
    (hrest : ArmsValueSim S p T rest) {X : Fixed F} {d k : Nat} {code : List (Instr F)} {Γ : Scope}
    {c : Ctx} {cs cs₂ cs₃ : CState} {b : Nat} {c₂ c₃ : Frag F} {brk cont : Nat} {sv : Value F}
    {env : Env F} {frame rs : List (Value F)} {le : LabelEnv} {w : W} {t : Bool} (hr : Runs S X d k)
    (h₂ : (BodyKind.arm.leave cs) <$>
      compileStmts S.tables .arm body (BodyKind.arm.enter cs) (b + 1) = .ok (c₂, cs₂))
    (h₃ : compileArms S.tables .arm .dup rest cs₂ (b + 1 + c₂.length + 1) = .ok (c₃, cs₃))
    (hok₂ : okStmts p k .arm true Γ.arm body = true) (hok₃ : okArms p k .arm true Γ rest = true)
    (hj : code[b]? = some (.jumpIfNot (b + 1 + c₂.length + 1)))
    (hc₂ : CodeAt code (b + 1) (fill brk cont c₂))
    (hj' : code[b + 1 + c₂.length]? = some (.jump (b + 1 + c₂.length + 1 + c₃.length)))
    (hc₃ : CodeAt code (b + 1 + c₂.length + 1) (fill brk cont c₃))
    (hs : Sync Γ cs env frame) (hl : LabelsIn T le) :
    Simulates (S.machine d code) (Clean c)
      (if t then armValue (evalStmts S.walk body .unit env []) else evalArmsValue S.walk rest sv env) w
      (.inl (b, X.mach (frame ++ [sv] ++ [Value.bool t]) (.unit :: rs) le w))
      (Valued T X (· < cs.next) c.st (frame ++ [sv]) rs (b + 1 + c₂.length + 1 + c₃.length))
      (Fails T X (· < cs.next) c.st (frame ++ [sv])) := by
  have g₂ := Grows.block h₂ fun hx => compileStmts_grows .arm body (fun _ => rfl) hx
  have le₂ (s : Nat) (h : s < cs.next) : s < cs₂.next := Nat.lt_of_lt_of_le h g₂.next
  refine Simulates.pre (gets_jumpIfNot hj) ?_
  cases t with
  | true =>
    refine Simulates.post (armValue_sim hb hr h₂ hok₂ hc₂ hs.append hl) ?_ fun _ _ _ h => h
    rintro v w'' o ⟨fr', le'', rfl, hx', hl''⟩
    exact ⟨_, gets_jump hj', fr', le'', rfl, hx', hl''⟩
  | false =>
    have hs₂ : Sync Γ cs₂ env frame := hs.grow g₂ (Ext.refl frame : Ext _ false frame frame)
    refine Simulates.post (hrest hr h₃ hok₃ hc₃ rfl hs₂ hl) ?_ fun _ _ _ h => h.mono (.refl _) le₂
    rintro v w'' o ⟨fr', le'', rfl, hx', hl''⟩
    exact ⟨_, .refl _, fr', le'', rfl, hx'.mono le₂, hl''⟩

theorem armsValue_lit {test : LitTest} {body : List (Stmt F)} {rest : MatchArms F}
    (hb : StmtsSim S p T body) (hrest : ArmsValueSim S p T rest) :
    ArmsValueSim S p T (.lit test body rest) := by
  intro X d k code Γ c cs cs' b b' frag brk cont sv env frame rs le w hr hc hok hcode hb' hs hl
  simp only [compileArms, bind_ok, Except.ok.injEq, Prod.mk.injEq] at hc
  obtain ⟨⟨c₂, cs₂⟩, h₂, ⟨c₃, cs₃⟩, h₃, rfl, rfl⟩ := hc
  simp only [okArms, if_true, Bool.and_eq_true] at hok
  simp only [armShape, fill_append, fill_code, List.append_nil, CodeAt.append_iff,
    List.length_append, length_fill, CodeAt.cons_iff, CodeAt.nil, and_true, List.length_cons,
    List.length_nil, Nat.zero_add, Nat.add_zero, ← Nat.add_assoc] at hcode
  obtain ⟨⟨⟨⟨hld, htest, hj⟩, hc₂⟩, hj'⟩, hc₃⟩ := hcode
  obtain rfl : b' = b + 1 + 2 + c₂.length + 1 + c₃.length := by
    simp [armShape] at hb'
    omega
  simp only [evalArmsValue]
  refine Simulates.pre ((gets_dup hld).trans (gets_matchLit htest)) ?_
  exact armsValue_test hb hrest hr h₂ h₃ hok.1 hok.2 hj hc₂ hj' hc₃ hs hl

theorem armsValue_compare {op : CompareOp} {th : Expr F} {body : List (Stmt F)}
    {rest : MatchArms F} (hth : ExprSim S p T th) (hb : StmtsSim S p T body)
    (hrest : ArmsValueSim S p T rest) : ArmsValueSim S p T (.compare op th body rest) := by
  intro X d k code Γ c cs cs' b b' frag brk cont sv env frame rs le w hr hc hok hcode hb' hs hl
  simp only [compileArms, bind_ok, Except.ok.injEq, Prod.mk.injEq] at hc
  obtain ⟨⟨c₁, cs₁⟩, h₁, ⟨c₂, cs₂⟩, h₂, ⟨c₃, cs₃⟩, h₃, rfl, rfl⟩ := hc
  simp only [okArms, if_true, Bool.and_eq_true] at hok
  simp only [armShape, fill_append, fill_code, CodeAt.append_iff, List.length_append, length_fill,
    CodeAt.cons_iff, CodeAt.nil, and_true, List.length_cons, List.length_nil, Nat.zero_add,
    ← Nat.add_assoc] at hcode
  obtain ⟨⟨⟨⟨⟨hld, hc₁⟩, htest, hj⟩, hc₂⟩, hj'⟩, hc₃⟩ := hcode
  obtain rfl : b' = b + 1 + c₁.length + 2 + c₂.length + 1 + c₃.length := by
    simp [armShape] at hb'
    omega
  have g₁ := compileExpr_grows th h₁
  have le₁ (s : Nat) (h : s < cs.next) : s < cs₁.next := Nat.lt_of_lt_of_le h g₁.next
  have hs₁ : Sync Γ cs₁ env frame := hs.grow g₁ (Ext.refl frame : Ext _ false frame frame)
  simp only [evalArmsValue]
  refine Simulates.pre (gets_dup hld) ?_
  refine hth.pend hr h₁ hok.1.1 hc₁ hs.append.append hl (fun tv w' le' hl' => ?_) fun _ _ _ h =>
    h.cut (.refl _) (fun _ h => h) fun _ => rfl
  refine Simulates.pre (gets_matchCompare htest) ?_
  refine Simulates.post (armsValue_test hb hrest hr h₂ h₃ hok.1.2 hok.2 hj hc₂ hj' hc₃ hs₁ hl') ?_
    fun _ _ _ h => h.mono (.refl _) le₁
  rintro v w'' o ⟨fr', le'', rfl, hx', hl''⟩
  exact ⟨_, .refl _, fr', le'', rfl, hx'.mono le₁, hl''⟩

end Metalogos.Refine
