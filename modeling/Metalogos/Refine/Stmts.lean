import Metalogos.Refine.Lets

/-!
# Simulation of statements

Every statement but the bindings and the loops: `return` and expression statements with their sink
checks, branches, `match`, the signals of a loop, the memory operations.
-/
namespace Metalogos.Refine

open Metalogos.Lang Metalogos.Machine Metalogos.Compile Metalogos.Walk Metalogos.Lib

variable {F W : Type} [FloatModel F]

variable {S : Setup F W} {p : Policy F} {T : List String}

/-! ## `return`, expression statements -/

theorem return_sim {e : Expr F} (hA : Agrees S p T) (he : ExprSim S p T e) :
    StmtSim S p T (.return_ e) := by
  intro g d k code Γ cs cs' b frag env muts isLast last regs le w hr hc hok hcode hstop hctx hs hg hL
    hregs hl
  have hP (s : Nat) (h : g.P s) : s < cs.next := hg.lt h
  simp only [okStmt, Bool.and_eq_true, Bool.or_eq_true, decide_eq_true_eq] at hok
  simp only [compileStmt] at hc
  simp only [evalStmt]
  split_ifs at hc with hm
  · simp only [bind_ok, Except.ok.injEq, Prod.mk.injEq] at hc
    obtain ⟨⟨c₁, cs₁⟩, h₁, rfl, rfl⟩ := hc
    simp only [fill_append, fill_code, CodeAt.append_iff, length_fill, CodeAt.cons_iff, CodeAt.nil,
      and_true] at hcode
    refine he.then hr h₁ hok.2 hcode.1 hs hl (fun v w' fr le' hx hs' hl' => ?_) fun _ _ _ h =>
      h.mono (.refl _) hP
    refine Simulates.tell fun hret => ?_
    obtain ⟨-, hlast⟩ := hret (hctx.arm hm)
    simp only [Regs, hm, Mode.isValue, if_true] at hregs
    obtain ⟨r, rfl, -⟩ := hregs
    refine Simulates.pre (gets_setValueReg hcode.2) (Simulates.pure ⟨?_, fun _ hne => absurd hm hne⟩)
    simp only [Spot.Done, hm, if_true]
    refine ⟨hlast, fr, le', ?_, hx.mono hP, hl'⟩
    simp [hstop, Nat.add_assoc]
  · simp only [bind_ok, Except.ok.injEq, Prod.mk.injEq] at hc
    obtain ⟨⟨c₁, cs₁⟩, h₁, rfl, rfl⟩ := hc
    simp only [sinkShape, fill_append, fill_code, CodeAt.append_iff, length_fill, CodeAt.cons_iff,
      CodeAt.nil, and_true, List.length_append, ← armedSinkChecks_length, ← Nat.add_assoc] at hcode
    obtain ⟨⟨hsink, hc₁⟩, hret⟩ := hcode
    refine Simulates.pre (sinks_gets hA (hok.1.resolve_left hm) hsink hl) ?_
    refine he.then hr h₁ hok.2 hc₁ hs hl (fun v w' fr le' hx hs' hl' => ?_) fun _ _ _ h =>
      h.mono (.refl _) hP
    refine Simulates.tell fun hclean => ?_
    have harm : g.c.inArm = false := by
      by_contra h
      exact hm (hclean (by simpa using h)).1
    refine Simulates.pre (gets_return hret) (Simulates.pure ⟨?_, fun _ _ => ⟨_, rfl⟩⟩)
    simp only [Spot.Done, if_neg hm]
    exact ⟨harm, .inl ⟨_, rfl, rfl⟩⟩

omit [FloatModel F] in
/-- No statement of an arm keeps its value on the stack. -/
theorem keep_of_value {c : Ctx} {fresh : Bool} (isLast : Bool) (h : c.Ok fresh) (hm : c.mode.isValue = true) :
    c.keep isLast = false := by
  by_contra hk
  simp only [Ctx.keep, Bool.not_eq_false, Bool.and_eq_true] at hk
  have hi := (h.tail hk.1).1
  rw [← inner_isValue, hi] at hm
  cases hm

omit [FloatModel F] in
theorem isUnit_iff {v : Value F} : v.isUnit = true ↔ v = .unit := by
  cases v <;> simp [Value.isUnit]

/-- An expression statement of an arm: its value goes to the register. -/
theorem exprStmt_value {g : Spot F} {d : Nat} {code : List (Instr F)} {fresh isLast : Bool}
    {env : Env F} {muts : List String} {last v : Value F} {fr regs : List (Value F)} {le : LabelEnv}
    {w : W} {b : Nat} {post : Env F → List (Value F) → Prop} {E : String → W → Place F W → Prop}
    (hm : g.c.mode.isValue = true) (hctx : g.c.Ok fresh) (hi : code[b]? = some .keepLastValue)
    (hstop : g.stop = b + 1) (hregs : Regs g.c.mode g.rs g.stale last regs)
    (hx : Ext g.P g.c.st g.frame fr) (hl : LabelsIn T le) (hpost : post env fr)
    (hclean : Clean g.c (.stmt last v isLast)) :
    Simulates (S.machine d code) (Clean g.c)
      (if v.isHttpResponse then pure (.ret v, env, muts)
        else pure (.normal (if v.isUnit then last else v), env, muts) : TW F W (Outcome F)) w
      (.inl (b, g.X.mach (fr ++ [v]) regs le w)) (g.Done T isLast post) E := by
  simp only [Regs, hm, if_true] at hregs
  obtain ⟨r, rfl, hlast, hstale⟩ := hregs
  refine Simulates.pre (gets_keepLastValue hi) ?_
  rw [← hstop]
  cases hh : v.isHttpResponse with
  | true =>
    obtain ⟨hil, hwhere⟩ := hclean.1 hh
    have harm : g.c.mode = .arm := by
      refine hwhere.resolve_right fun ht => ?_
      have hk := keep_of_value true hctx hm
      simp [Ctx.keep, ht] at hk
    have hu : v.isUnit = false := by cases v <;> simp_all [Value.isUnit, Value.isHttpResponse]
    refine Simulates.pure ?_
    simp only [Spot.Done, harm, if_true, hu, Bool.false_eq_true, if_false]
    exact ⟨hil, fr, le, rfl, hx, hl⟩
  | false =>
    refine Simulates.pure ?_
    simp only [Spot.Done, keep_of_value _ hctx hm, Bool.false_eq_true, if_false]
    refine ⟨fr, _, le, rfl, hx, ?_, hl, hpost⟩
    simp only [Regs, hm, if_true]
    refine ⟨_, rfl, ?_, ?_⟩ <;> cases hu : v.isUnit
    · exact fun _ => rfl
    · exact hlast
    · intro h
      simp only [Bool.false_eq_true, if_false] at h
      simp [isUnit_iff.2 h] at hu
    · exact hstale

/-- An expression statement outside the arms: its value stays on the stack or is dropped. -/
theorem exprStmt_stack {g : Spot F} {d : Nat} {code : List (Instr F)} {fresh isLast : Bool}
    {env : Env F} {muts : List String} {last v : Value F} {fr regs : List (Value F)} {le : LabelEnv}
    {w : W} {b : Nat} {post : Env F → List (Value F) → Prop} {E : String → W → Place F W → Prop}
    (hm : g.c.mode.isValue = false) (hctx : g.c.Ok fresh)
    (hcode : CodeAt code b (if g.c.keep isLast then [] else [.pop]))
    (hstop : g.stop = b + (if g.c.keep isLast then [] else [.pop] : List (Instr F)).length)
    (hregs : Regs g.c.mode g.rs g.stale last regs) (hx : Ext g.P g.c.st g.frame fr)
    (hl : LabelsIn T le) (hpost : post env fr) (hclean : Clean g.c (.stmt last v isLast)) :
    Simulates (S.machine d code) (Clean g.c)
      (if v.isHttpResponse then pure (.ret v, env, muts)
        else pure (.normal (if v.isUnit then last else v), env, muts) : TW F W (Outcome F)) w
      (.inl (b, g.X.mach (fr ++ [v]) regs le w)) (g.Done T isLast post) E := by
  obtain rfl := regs_mode hregs hm
  have hne : g.c.mode ≠ .arm := by
    intro h
    simp [h, Mode.isValue] at hm
  cases hk : g.c.keep isLast with
  | true =>
    have ht : g.c.tail = true := by
      simp only [Ctx.keep, Bool.and_eq_true] at hk
      exact hk.1
    obtain rfl : b = g.stop := by simpa [hk] using hstop.symm
    by_cases hh : v.isHttpResponse = true
    · rw [if_pos hh]
      refine Simulates.pure ?_
      simp only [Spot.Done, if_neg hne]
      exact ⟨(hctx.tail ht).2, .inr ⟨hk, fr, le, rfl⟩⟩
    · rw [if_neg hh]
      refine Simulates.pure ?_
      simp only [Spot.Done, hk, if_true]
      refine ⟨fr, v, le, rfl, fun hp => ?_⟩
      split_ifs with hu
      · have hv := isUnit_iff.1 hu
        exact hv.trans (hclean.2 hp hk hv).symm
      · rfl
  | false =>
    simp only [hk, Bool.false_eq_true, if_false, CodeAt.cons_iff, CodeAt.nil, and_true,
      List.length_singleton] at hcode hstop
    have hh : v.isHttpResponse = false := by
      by_contra h
      obtain ⟨hil, hwhere⟩ := hclean.1 (by simpa using h)
      rw [Ctx.keep, hwhere.resolve_left hne, hil] at hk
      cases hk
    refine Simulates.pre (gets_pop hcode) ?_
    rw [← hstop]
    simp only [hh, Bool.false_eq_true, if_false]
    refine Simulates.pure ?_
    simp only [Spot.Done, hk, Bool.false_eq_true, if_false]
    refine ⟨fr, g.rs, le, rfl, hx, ?_, hl, hpost⟩
    simp [Regs, hm]

theorem exprStmt_sim {e : Expr F} (hA : Agrees S p T) (he : ExprSim S p T e) :
    StmtSim S p T (.exprStmt e) := by
  intro g d k code Γ cs cs' b frag env muts isLast last regs le w hr hc hok hcode hstop hctx hs hg hL
    hregs hl
  have hP (s : Nat) (h : g.P s) : s < cs.next := hg.lt h
  have hpost {cs' : CState} {fr : List (Value F)} (h : Sync Γ cs' env fr) :
      Sync (Γ.after g.c.mode cs.fresh (.exprStmt e)) cs' env fr :=
    h.weaken (fun l hl => ⟨l, hl, fun _ hx => hx⟩) (by simp [Scope.after, letsStmt, loopVarsStmt])
      (by simp [Scope.after, letsStmt])
  simp only [okStmt, Bool.and_eq_true, Bool.or_eq_true] at hok
  simp only [compileStmt] at hc
  simp only [evalStmt]
  refine Simulates.noStop ?_
  by_cases hm : g.c.mode.isValue = true
  · simp only [hm, if_true, bind_ok, Except.ok.injEq, Prod.mk.injEq] at hc
    obtain ⟨⟨c₁, cs₁⟩, h₁, rfl, rfl⟩ := hc
    simp only [fill_append, fill_code, CodeAt.append_iff, length_fill, CodeAt.cons_iff, CodeAt.nil,
      and_true] at hcode
    refine he.then hr h₁ hok.2 hcode.1 hs hl (fun v w' fr le' hx hs' hl' => ?_) fun _ _ _ h =>
      h.mono (.refl _) hP
    refine Simulates.tell fun hclean => ?_
    exact exprStmt_value hm hctx hcode.2 (by simpa [Nat.add_assoc] using hstop) hregs (hx.mono hP) hl'
      (hpost hs') hclean
  · simp only [hm, Bool.false_eq_true, if_false, bind_ok, Except.ok.injEq, Prod.mk.injEq] at hc
    obtain ⟨⟨c₁, cs₁⟩, h₁, rfl, rfl⟩ := hc
    have hsplit : (if g.c.keep isLast then [] else Compile.code [.pop] : Frag F) =
        Compile.code (if g.c.keep isLast then [] else [.pop]) := by
      split_ifs <;> rfl
    rw [hsplit] at hcode hstop
    simp only [sinkShape, fill_append, fill_code, CodeAt.append_iff, length_fill, List.length_append,
      ← armedSinkChecks_length, ← Nat.add_assoc] at hcode
    obtain ⟨⟨hsink, hc₁⟩, hpop⟩ := hcode
    refine Simulates.pre (sinks_gets hA (hok.1.resolve_left hm) hsink hl) ?_
    refine he.then hr h₁ hok.2 hc₁ hs hl (fun v w' fr le' hx hs' hl' => ?_) fun _ _ _ h =>
      h.mono (.refl _) hP
    refine Simulates.tell fun hclean => ?_
    refine exprStmt_stack (by simpa using hm) hctx hpop ?_ hregs (hx.mono hP) hl' (hpost hs') hclean
    simp only [hstop, sinkShape, List.length_append, length_code, ← armedSinkChecks_length]
    omega

/-! ## Branches -/

theorem ifThen_sim {cnd : Expr F} {body : List (Stmt F)} (hcnd : ExprSim S p T cnd)
    (hb : StmtsSim S p T body) : StmtSim S p T (.ifThen cnd body) := by
  intro g d k code Γ cs cs' b frag env muts isLast last regs le w hr hc hok hcode hstop hctx hs hg hL
    hregs hl
  obtain ⟨hkm, hkk, -⟩ := nested_kind isLast hctx
  simp only [compileStmt, bind_ok] at hc
  obtain ⟨⟨c₁, cs₁⟩, h₁, ⟨c₂, cs₂⟩, h₂, hc⟩ := hc
  simp only [okStmt, Bool.and_eq_true] at hok
  -- the three shapes differ in what stands between the body and the end
  obtain ⟨rfl, target, hc₁, hj, hc₂, hu, hend, hjump⟩ : cs₂ = cs' ∧ ∃ target,
      CodeAt code b (fill g.brk g.cont c₁) ∧
      code[b + c₁.length]? = some (.jumpIfNotCond target) ∧
      CodeAt code (b + c₁.length + 1) (fill g.brk g.cont c₂) ∧
      CodeAt code target (fill g.brk g.cont (unitIf (g.c.keep isLast))) ∧
      g.stop = target + (unitIf (g.c.keep isLast) : Frag F).length ∧
      (endsInTerminator body = false → ∀ m : Mach F W,
        (S.machine d code).Gets (.inl (b + c₁.length + 1 + c₂.length, m)) (.inl (g.stop, m))) := by
    cases hk : g.c.keep isLast with
    | false =>
      simp only [hk, Bool.false_eq_true, if_false, Except.ok.injEq, Prod.mk.injEq] at hc
      obtain ⟨rfl, rfl⟩ := hc
      simp only [thenShape, fill_append, fill_code, CodeAt.append_iff, length_fill, CodeAt.cons_iff,
        CodeAt.nil, and_true, List.length_append, List.length_cons, List.length_nil, Nat.zero_add,
        ← Nat.add_assoc] at hcode
      simp only [thenShape, List.length_append, length_code, List.length_cons, List.length_nil,
        Nat.zero_add, ← Nat.add_assoc] at hstop
      exact ⟨rfl, _, hcode.1.1, hcode.1.2, hcode.2, CodeAt.nil, hstop, fun _ m => hstop ▸ .refl _⟩
    | true =>
      simp only [hk, if_true] at hc
      split_ifs at hc with ht
      · simp only [Except.ok.injEq, Prod.mk.injEq] at hc
        obtain ⟨rfl, rfl⟩ := hc
        simp only [thenShape, fill_append, fill_code, CodeAt.append_iff, length_fill, CodeAt.cons_iff,
          CodeAt.nil, and_true, List.length_append, List.length_cons, List.length_nil, Nat.zero_add,
          ← Nat.add_assoc] at hcode
        simp only [thenShape, List.length_append, length_code, List.length_cons, List.length_nil,
          Nat.zero_add, ← Nat.add_assoc] at hstop
        refine ⟨rfl, _, hcode.1.1.1, hcode.1.1.2, hcode.1.2, ?_, hstop, fun hf => ?_⟩
        · simpa [unitIf] using hcode.2
        · simp [endsInTerminator, ht] at hf
      · simp only [Except.ok.injEq, Prod.mk.injEq] at hc
        obtain ⟨rfl, rfl⟩ := hc
        simp only [ifShape, fill_append, fill_code, CodeAt.append_iff, length_fill, CodeAt.cons_iff,
          CodeAt.nil, and_true, List.length_append, List.length_cons, List.length_nil, Nat.zero_add,
          length_code, ← Nat.add_assoc] at hcode
        simp only [ifShape, List.length_append, length_code, List.length_cons, List.length_nil,
          Nat.zero_add, ← Nat.add_assoc] at hstop
        refine ⟨rfl, _, hcode.1.1.1.1, hcode.1.1.1.2, hcode.1.1.2, ?_, hstop, fun _ m => ?_⟩
        · simpa [unitIf] using hcode.2
        · rw [hstop]
          exact gets_jump hcode.1.2
  have g₁ := compileExpr_grows cnd h₁
  have hval : (if g.c.keep isLast then BodyKind.keep else g.c.mode.nested).mode.isValue = true →
      cs₁.fresh = true := fun hv => by
    rw [hkm, inner_isValue] at hv
    exact g₁.fresh.trans (hctx.fresh hv)
  have g₂ := compileStmts_grows _ body hval h₂
  have hP (s : Nat) (h : g.P s) : s < cs.next := hg.lt h
  have hsh := okStmts_shares hok.2
  simp only [evalStmt]
  refine Simulates.noStop ?_
  refine hcnd.cond hr h₁ hok.1 hc₁ hj hs hl (fun w' fr le' hx hs' hl' => ?_)
    (fun w' fr le' hx hs' hl' => ?_) fun _ _ _ h => h.mono (.refl _) hP
  · refine block_sim hb hr h₂ hkm hkk (g₁.fresh ▸ hok.2) hc₂ (g₁.fresh ▸ hctx) (hx.mono hP) hs'
      (hg.grow g₁ rfl) (hL.grow hs g₁) hregs hl' hjump fun env' fr' hs₂ => ?_
    rw [g₁.fresh] at hs₂
    refine hs₂.weaken (fun l hl => ?_) (fun x hx => ?_) fun x hx => ?_
    · rw [afters_bound] at hl
      exact meet_left hl
    · simpa [Scope.after, letsStmt, loopVarsStmt, or_assoc] using mem_afters_may.1 hx
    · simpa [Scope.after, letsStmt] using mem_afters_slots.1 hx
  · refine keepLast_sim hu hend hctx (hx.mono hP) hregs hl' ?_
    refine hs'.join g₂ hsh (fun l hl => ?_) (fun x hx => ?_) fun x hx => ?_
    · obtain ⟨l₁, h₁', hsub₁⟩ := dropIf_some cs₁.fresh (letsStmts body) hl
      rw [g₁.fresh] at h₁'
      obtain ⟨l₂, h₂', hsub₂⟩ := meet_right (a := flowStmts g.c.mode.inner cs.fresh Γ body) h₁'
      exact ⟨l₂, h₂', fun x hx => hsub₁ x (hsub₂ x hx)⟩
    · simp only [Scope.after, letsStmt, loopVarsStmt, List.mem_append]
      exact .inl (.inl hx)
    · simpa [Scope.after, letsStmt] using hx

/-- An `if` statement is a chain of branches. -/
theorem ifElseBlock_sim {cnd : Expr F} {body : List (Stmt F)} {rest : ElseChain F}
    (h : ElseSim S p T (.elseIf cnd body rest)) : StmtSim S p T (.ifElseBlock cnd body rest) := by
  intro g d k code Γ cs cs' b frag env muts isLast last regs le w hr hc hok hcode hstop hctx hs hg hL
    hregs hl
  obtain ⟨hkm, hkk, hka⟩ := nested_kind isLast hctx
  have hc' : compileElse S.tables (if g.c.keep isLast then .keep else g.c.mode.nested)
      (.elseIf cnd body rest) cs b = .ok (frag, cs') := by
    rw [← hc]
    simp [compileElse, compileStmt, BodyKind.enter, BodyKind.leave, hka]
  have hok' : okElse p k g.c.mode.inner cs.fresh Γ (.elseIf cnd body rest) = true := by
    simpa only [okElse, okStmt, inner_ne_arm, if_false] using hok
  have heval : evalStmt S.walk (.ifElseBlock cnd body rest) isLast last env muts =
      evalElse S.walk (.elseIf cnd body rest) isLast last env muts := by
    simp only [evalStmt, evalElse]
  rw [heval]
  exact Simulates.noStop (h hr hc' hkm hkk hka hok' hcode hstop hctx hs hg hL hregs hl)

/-! ## `match` -/

omit [FloatModel F] in
/-- A store to a cell no name lives in. -/
theorem Sync.hidden {Γ : Scope} {cs : CState} {env : Env F} {frame : List (Value F)} {slot : Nat}
    {v : Value F} (hs : Sync Γ cs env frame)
    (hslot : ∀ {x : String} {s : Nat}, cs.locals x = some s → s ≠ slot) :
    Sync Γ cs env (writeAt frame slot v) where
  live := by
    obtain ⟨names, hb, hn⟩ := hs.live
    refine ⟨names, hb, fun x hx => ?_⟩
    obtain ⟨s, u, h1, h2, h3⟩ := hn x hx
    obtain ⟨hlt, -⟩ := List.getElem?_eq_some_iff.1 h3
    exact ⟨s, u, h1, h2, by rw [writeAt_ne (hslot h1) hlt, h3]⟩
  may := hs.may
  slots := hs.slots
  ok := hs.ok

omit [FloatModel F] in
/-- After the `Pop` that ends a `match` in an arm: the names that had a cell before it still do. -/
theorem Sync.popped {Γ : Scope} {mode : Mode} {fresh shares : Bool} {s : Expr F} {arms : MatchArms F}
    {cs cs' : CState} {env env' : Env F} {fr fr' : List (Value F)} {P : Nat → Prop} {st : Bool}
    {sv : Value F} (hm : mode.isValue = true) (h : Sync Γ cs env fr)
    (hg : Grows (letsArms arms) shares cs cs') (hx : Ext P st (fr ++ [sv]) fr')
    (h' : Sync (Γ.afterArms mode.inner fresh arms) cs' env' fr') :
    Sync (Γ.after mode fresh (.match_ s arms)) cs' env' fr'.dropLast where
  live := by
    obtain ⟨l, hb, hn⟩ := h.live
    obtain ⟨l', hb', hn'⟩ := h'.live
    have hb' : flowArms mode.inner fresh Γ arms = some l' := hb'
    refine ⟨(l'.filter Γ.within).filter (· ∉ letsArms arms), ?_, fun x hx₀ => ?_⟩
    · simp only [Scope.after, flowStmt, hm, if_true, hb', Option.map_some, dropNames]
    · simp only [List.mem_filter, decide_eq_true_eq, Scope.within, hb] at hx₀
      obtain ⟨⟨hxl', hxl⟩, hxlets⟩ := hx₀
      obtain ⟨n, u, h1, -, h3⟩ := hn x hxl
      obtain ⟨n', u', h1', h2', h3'⟩ := hn' x hxl'
      obtain rfl : n = n' := by
        rw [hg.old hxlets, h1] at h1'
        exact Option.some.inj h1'
      obtain ⟨hlt, -⟩ := List.getElem?_eq_some_iff.1 h3
      have hle : fr.length + 1 ≤ fr'.length := by simpa using hx.le
      refine ⟨n, u', h1', h2', ?_⟩
      rw [List.getElem?_dropLast, if_pos (by omega), h3']
  may := h'.may
  slots := h'.slots
  ok := h'.ok

section

variable {s : Expr F} {arms : MatchArms F} (he : ExprSim S p T s) (ha : ArmsSim S p T arms) {g : Spot F} {d k : Nat}
  {code : List (Instr F)} {Γ : Scope} {cs cs' : CState} {b : Nat} {frag : Frag F} {env : Env F} {muts : List String}
  {isLast : Bool} {last : Value F} {regs : List (Value F)} {le : LabelEnv} {w : W} (hr : Runs S g.X d k)
  (hc : compileStmt S.tables g.c.mode (g.c.keep isLast) (.match_ s arms) cs b = .ok (frag, cs'))
  (hok : okStmt p k g.c.mode cs.fresh Γ (.match_ s arms) = true)
  (hcode : CodeAt code b (fill g.brk g.cont frag)) (hstop : g.stop = b + frag.length)
  (hctx : g.c.Ok cs.fresh) (hs : Sync Γ cs env g.frame) (hg : Guard g.P Γ cs)
  (hL : g.L.Inside Γ cs (letsStmt (.match_ s arms)) (loopVarsStmt (.match_ s arms)))
  (hregs : Regs g.c.mode g.rs g.stale last regs) (hl : LabelsIn T le)

include he ha hr hc hok hcode hstop hctx hs hg hL hregs hl

/-- Outside the arms the scrutinee lives in a cell of its own. -/
theorem match_stack (hm : g.c.mode.isValue = false) :
    Simulates (S.machine d code) (Clean g.c) (evalStmt S.walk (.match_ s arms) isLast last env muts) w
      (.inl (b, g.X.mach g.frame regs le w))
      (g.Done T isLast fun env' frame' =>
        Sync (Γ.after g.c.mode cs.fresh (.match_ s arms)) cs' env' frame')
      (Fails T g.X g.P g.c.st g.frame) := by
  obtain ⟨hkm, hkk, hka⟩ := nested_kind isLast hctx
  simp only [compileStmt, hm, Bool.false_eq_true, if_false, bind_ok, Except.ok.injEq,
    Prod.mk.injEq] at hc
  obtain ⟨⟨c₁, cs₁⟩, h₁, ⟨c₂, cs₂⟩, h₂, rfl, rfl⟩ := hc
  simp only [okStmt, Bool.and_eq_true] at hok
  simp only [fill_append, fill_code, CodeAt.append_iff, length_fill, CodeAt.cons_iff, CodeAt.nil,
    and_true, List.length_append, List.length_cons, List.length_nil, Nat.zero_add,
    ← Nat.add_assoc] at hcode
  obtain ⟨⟨hc₁, hst⟩, hc₂⟩ := hcode
  have g₀ := Grows.reserve cs 1
  have g₁ := compileExpr_grows s h₁
  have hf : cs₁.fresh = cs.fresh := g₁.fresh.trans g₀.fresh
  have hs₀ : Sync Γ { cs with next := cs.next + 1 } env g.frame :=
    hs.grow g₀ (Ext.refl g.frame : Ext _ false g.frame g.frame)
  have hP (s : Nat) (h : g.P s) : s < cs.next + 1 := Nat.lt_succ_of_lt (hg.lt h)
  simp only [evalStmt]
  refine he.then hr h₁ hok.1 hc₁ hs₀ hl (fun sv w' fr le' hx hs' hl' => ?_) fun _ _ _ h =>
    h.mono (.refl _) hP
  refine Simulates.tell fun hscrut => ?_
  have hstore : g.c.st = true := hscrut.resolve_right (by simp [hm])
  have hx' : Ext g.P g.c.st g.frame (writeAt fr cs.next sv) :=
    (hx.mono hP).trans (ext_writeAt hstore fun h => Nat.lt_irrefl _ (hg.lt h))
  have hs₁ : Sync Γ cs₁ env (writeAt fr cs.next sv) := hs'.hidden fun {x n} hn => by
    rw [g₁.old (by simp), g₀.old (by simp)] at hn
    exact Nat.ne_of_lt (hs.ok.lt hn)
  refine Simulates.pre (gets_storeLocal hst) ?_
  refine Simulates.post (ha (g := { g with frame := writeAt fr cs.next sv }) hr h₂
    (fun _ _ _ _ hld => gets_loadLocal hld writeAt_self) hkm hkk hka (hf ▸ hok.2) hc₂ ?_ (hf ▸ hctx)
    hs₁ ((hg.grow g₀ rfl).grow g₁ rfl) ((hL.grow hs g₀).grow hs₀ g₁) hregs hl') ?_
    fun _ _ _ h => h.mono hx' fun _ h => h
  · simp only [hstop, List.length_append, length_code, List.length_cons, List.length_nil]
    omega
  · intro out w'' o hdone
    refine ⟨o, .refl o, hdone.mono hx' fun env' fr' hs₂ => ?_⟩
    rw [hf] at hs₂
    refine hs₂.weaken (fun l hl => ⟨l, ?_, fun _ hx => hx⟩) (fun x hx => hx) fun x hx => hx
    simpa only [Scope.after, Scope.afterArms, flowStmt, hm, Bool.false_eq_true, if_false] using hl

/-- In an arm the scrutinee waits on the stack and is dropped at the end. -/
theorem match_value (hm : g.c.mode.isValue = true) :
    Simulates (S.machine d code) (Clean g.c) (evalStmt S.walk (.match_ s arms) isLast last env muts) w
      (.inl (b, g.X.mach g.frame regs le w))
      (g.Done T isLast fun env' frame' =>
        Sync (Γ.after g.c.mode cs.fresh (.match_ s arms)) cs' env' frame')
      (Fails T g.X g.P g.c.st g.frame) := by
  have hk (l : Bool) : g.c.keep l = false := keep_of_value l hctx hm
  have hinner : g.c.mode.inner = .value := by cases hmode : g.c.mode <;> simp_all [Mode.isValue, Mode.inner]
  simp only [compileStmt, hm, if_true, bind_ok, Except.ok.injEq, Prod.mk.injEq] at hc
  obtain ⟨⟨c₁, cs₁⟩, h₁, ⟨c₂, cs₂⟩, h₂, rfl, rfl⟩ := hc
  simp only [okStmt, Bool.and_eq_true] at hok
  simp only [fill_append, fill_code, CodeAt.append_iff, length_fill, CodeAt.cons_iff, CodeAt.nil,
    and_true, List.length_append, ← Nat.add_assoc] at hcode
  obtain ⟨⟨hc₁, hc₂⟩, hpop⟩ := hcode
  have hend : g.stop = b + c₁.length + c₂.length + 1 := by
    simp only [hstop, List.length_append, length_code, List.length_cons, List.length_nil]
    omega
  have g₁ := compileExpr_grows s h₁
  have g₂ := compileArms_grows .value .dup arms (fun _ _ => g₁.fresh.trans (hctx.fresh hm)) h₂
  have hP (s : Nat) (h : g.P s) : s < cs.next := hg.lt h
  simp only [evalStmt]
  refine he.then hr h₁ hok.1 hc₁ hs hl (fun sv w' fr le' hx hs' hl' => ?_) fun _ _ _ h =>
    h.mono (.refl _) hP
  refine Simulates.tell fun _ => ?_
  have hx₁ := hx.mono hP
  refine Simulates.post (ha (g := { g with frame := fr ++ [sv], stop := b + c₁.length + c₂.length }) hr
    h₂ (fun _ _ _ _ hld => gets_dup hld) hinner.symm (hk isLast).symm (by intro hsame; cases hsame) (g₁.fresh ▸ hok.2) hc₂ rfl
    (g₁.fresh ▸ hctx) hs'.append (hg.grow g₁ rfl) (hL.grow hs g₁) hregs hl') ?_
    fun _ _ _ h => h.cut hx₁ (fun _ h => h) id
  rintro ⟨sig, env', muts'⟩ w'' o hdone
  -- the cell the `Pop` takes is the scrutinee or lies above it
  have pops {fr' regs' : List (Value F)} {le'' : LabelEnv} (hx' : Ext g.P g.c.st (fr ++ [sv]) fr') :
      (S.machine d code).Gets (.inl (b + c₁.length + c₂.length, g.X.mach fr' regs' le'' w''))
        (.inl (g.stop, g.X.mach fr'.dropLast regs' le'' w'')) := by
    obtain ⟨u, hfr⟩ := hx'.concat
    have hgets : (S.machine d code).Gets
        (.inl (b + c₁.length + c₂.length, g.X.mach (fr'.dropLast ++ [u]) regs' le'' w''))
        (.inl (g.stop, g.X.mach fr'.dropLast regs' le'' w'')) := by
      rw [hend]
      exact gets_pop hpop
    rwa [← hfr] at hgets
  cases sig with
  | normal v =>
    simp only [Spot.Done, hk, Bool.false_eq_true, if_false] at hdone ⊢
    obtain ⟨fr', regs', le'', rfl, hx', hregs', hl'', hs₂⟩ := hdone
    rw [g₁.fresh] at hs₂
    exact ⟨_, pops hx', fr'.dropLast, regs', le'', rfl, hx₁.trans hx'.dropLast, hregs', hl'',
      hs'.popped hm g₂ hx' hs₂⟩
  | brk => simp [Spot.Done, Spot.Leaves] at hdone; simp [hdone.1, Mode.isValue] at hm
  | cont => simp [Spot.Done, Spot.Leaves] at hdone; simp [hdone.1, Mode.isValue] at hm
  | ret v =>
    simp only [Spot.Done] at hdone ⊢
    split_ifs at hdone ⊢ with harm
    · obtain ⟨hlast, fr', le'', rfl, hx', hl''⟩ := hdone
      exact ⟨_, pops hx', hlast, fr'.dropLast, le'', rfl, hx₁.trans hx'.dropLast, hl''⟩
    · obtain ⟨hin, hres⟩ := hdone
      obtain ⟨m, rfl, hw⟩ : ∃ m, o = .inr (.ok v, m) ∧ m.vm.world = w'' := by simpa [hk] using hres
      exact ⟨_, .refl _, hin, .inl ⟨m, rfl, hw⟩⟩

end

theorem match_sim {s : Expr F} {arms : MatchArms F} (he : ExprSim S p T s)
    (ha : ArmsSim S p T arms) : StmtSim S p T (.match_ s arms) := by
  intro g d k code Γ cs cs' b frag env muts isLast last regs le w hr hc hok hcode hstop hctx hs hg hL
    hregs hl
  refine Simulates.noStop ?_
  cases hm : g.c.mode.isValue with
  | true => exact match_value he ha hr hc hok hcode hstop hctx hs hg hL hregs hl hm
  | false => exact match_stack he ha hr hc hok hcode hstop hctx hs hg hL hregs hl hm

/-! ## Signals of a loop -/

theorem break_sim : StmtSim S p T (.break_ : Stmt F) := by
  intro g d k code Γ cs cs' b frag env muts isLast last regs le w hr hc hok hcode hstop hctx hs hg hL
    hregs hl
  simp only [evalStmt]
  have hm : g.c.mode = .plain true := by simpa [okStmt] using hok
  obtain ⟨rfl, rfl⟩ : [Emit.brk] = frag ∧ cs = cs' := by simpa [compileStmt, hm] using hc
  obtain rfl := regs_mode hregs (by simp [hm, Mode.isValue])
  simp only [fill, List.map_cons, List.map_nil, Emit.resolve, CodeAt.cons_iff, CodeAt.nil,
    and_true] at hcode
  refine Simulates.pre (gets_jump hcode) (Simulates.pure ⟨?_, fun _ => trivial⟩)
  exact ⟨hm, g.frame, le, rfl, .refl _, hl, hL.holds hs⟩

theorem continue_sim : StmtSim S p T (.continue_ : Stmt F) := by
  intro g d k code Γ cs cs' b frag env muts isLast last regs le w hr hc hok hcode hstop hctx hs hg hL
    hregs hl
  simp only [evalStmt]
  have hm : g.c.mode = .plain true := by simpa [okStmt] using hok
  obtain ⟨rfl, rfl⟩ : [Emit.cont] = frag ∧ cs = cs' := by simpa [compileStmt, hm] using hc
  obtain rfl := regs_mode hregs (by simp [hm, Mode.isValue])
  simp only [fill, List.map_cons, List.map_nil, Emit.resolve, CodeAt.cons_iff, CodeAt.nil,
    and_true] at hcode
  refine Simulates.pre (gets_jump hcode) (Simulates.pure ⟨?_, fun _ => trivial⟩)
  exact ⟨hm, g.frame, le, rfl, .refl _, hl, hL.holds hs⟩

/-! ## Memory operations -/

omit [FloatModel F] in
/-- A statement that binds nothing leaves the scope as it is. -/
theorem Sync.unbound {Γ : Scope} {mode : Mode} {fresh : Bool} {s : Stmt F} {cs : CState} {env : Env F}
    {frame : List (Value F)} (hs : Sync Γ cs env frame) (hf : flowStmt mode fresh Γ s = Γ.bound)
    (hl : letsStmt s = []) (hv : loopVarsStmt s = []) : Sync (Γ.after mode fresh s) cs env frame :=
  hs.weaken (fun l h => ⟨l, hf.trans h, fun _ hx => hx⟩) (by simp [Scope.after, hl, hv])
    (by simp [Scope.after, hl])

theorem memorize_sim {e : Expr F} {priority : F} (he : ExprSim S p T e) :
    StmtSim S p T (.memorize e priority) := by
  intro g d k code Γ cs cs' b frag env muts isLast last regs le w hr hc hok hcode hstop hctx hs hg hL
    hregs hl
  simp only [compileStmt, bind_ok, Except.ok.injEq, Prod.mk.injEq] at hc
  obtain ⟨⟨c₁, cs₁⟩, h₁, rfl, rfl⟩ := hc
  simp only [okStmt] at hok
  simp only [fill_append, fill_code, CodeAt.append_iff, length_fill, List.length_append,
    CodeAt.cons_iff, CodeAt.nil, and_true, List.length_cons, List.length_nil, Nat.zero_add,
    ← Nat.add_assoc] at hcode
  obtain ⟨⟨hc₁, hi⟩, hu⟩ := hcode
  have hP (s : Nat) (h : g.P s) : s < cs.next := hg.lt h
  simp only [evalStmt]
  refine Simulates.noStop ?_
  refine he.then hr h₁ hok hc₁ hs hl (fun v w' fr le' hx hs' hl' => ?_) fun _ _ _ h =>
    h.mono (.refl _) hP
  refine Simulates.update (gets_memorize hi) ?_
  rw [hr.linked.memorize]
  refine keepLast_sim hu ?_ hctx (hx.mono hP) hregs hl' (hs'.unbound rfl rfl rfl)
  simp only [hstop, List.length_append, length_code, List.length_cons, List.length_nil]
  omega

theorem forget_sim {e : Expr F} {days : Int} (he : ExprSim S p T e) :
    StmtSim S p T (.forget e days) := by
  intro g d k code Γ cs cs' b frag env muts isLast last regs le w hr hc hok hcode hstop hctx hs hg hL
    hregs hl
  simp only [compileStmt, bind_ok, Except.ok.injEq, Prod.mk.injEq] at hc
  obtain ⟨⟨c₁, cs₁⟩, h₁, rfl, rfl⟩ := hc
  simp only [okStmt] at hok
  simp only [fill_append, fill_code, CodeAt.append_iff, length_fill, List.length_append,
    CodeAt.cons_iff, CodeAt.nil, and_true, List.length_cons, List.length_nil, Nat.zero_add,
    ← Nat.add_assoc] at hcode
  obtain ⟨⟨hc₁, hi⟩, hu⟩ := hcode
  have hP (s : Nat) (h : g.P s) : s < cs.next := hg.lt h
  simp only [evalStmt]
  refine Simulates.noStop ?_
  refine he.then hr h₁ hok hc₁ hs hl (fun v w' fr le' hx hs' hl' => ?_) fun _ _ _ h =>
    h.mono (.refl _) hP
  refine Simulates.update (gets_forget hi) ?_
  rw [hr.linked.forget]
  refine keepLast_sim hu ?_ hctx (hx.mono hP) hregs hl' (hs'.unbound rfl rfl rfl)
  simp only [hstop, List.length_append, length_code, List.length_cons, List.length_nil]
  omega

theorem relate_sim {src tgt : Expr F} {relation : String} (hsrc : ExprSim S p T src)
    (htgt : ExprSim S p T tgt) : StmtSim S p T (.relate src tgt relation) := by
  intro g d k code Γ cs cs' b frag env muts isLast last regs le w hr hc hok hcode hstop hctx hs hg hL
    hregs hl
  simp only [compileStmt, bind_ok, Except.ok.injEq, Prod.mk.injEq] at hc
  obtain ⟨⟨c₁, cs₁⟩, h₁, ⟨c₂, cs₂⟩, h₂, rfl, rfl⟩ := hc
  simp only [okStmt, Bool.and_eq_true] at hok
  simp only [fill_append, fill_code, CodeAt.append_iff, length_fill, List.length_append,
    CodeAt.cons_iff, CodeAt.nil, and_true, List.length_cons, List.length_nil, Nat.zero_add,
    ← Nat.add_assoc] at hcode
  obtain ⟨⟨⟨hc₁, hc₂⟩, hconst, hi⟩, hu⟩ := hcode
  have hP (s : Nat) (h : g.P s) : s < cs.next := hg.lt h
  have g₁ := compileExpr_grows src h₁
  simp only [evalStmt]
  refine Simulates.noStop ?_
  refine hsrc.then hr h₁ hok.1 hc₁ hs hl (fun v w' fr le' hx hs' hl' => ?_) fun _ _ _ h =>
    h.mono (.refl _) hP
  refine htgt.pend hr h₂ hok.2 hc₂ hs'.append hl' (fun v' w'' le'' hl'' => ?_) fun _ _ _ h =>
    h.cut (hx.mono hP) (fun s h => Nat.lt_of_lt_of_le (hP s h) g₁.next) fun _ => rfl
  refine Simulates.update ((gets_const hconst).trans (gets_relate hi)) ?_
  rw [hr.linked.relate]
  refine keepLast_sim hu ?_ hctx (hx.mono hP) hregs hl'' ?_
  · simp only [hstop, List.length_append, length_code, List.length_cons, List.length_nil]
    omega
  · have hs₂ : Sync Γ cs₂ env fr :=
      hs'.grow (compileExpr_grows tgt h₂) (Ext.refl fr : Ext _ false fr fr)
    exact hs₂.unbound rfl rfl rfl

end Metalogos.Refine
