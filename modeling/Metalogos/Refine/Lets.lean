import Metalogos.Refine.Arms

/-!
# Simulation of bindings

`let`, the let-bound `match`, and assignment. The two halves of a binding are `Sync.init` (the slot
is chosen before the initializer is compiled) and `Sync.store` (slot and environment get the value
together); around them stand label joins and, in an arm, the reset of the value register.
-/
namespace Metalogos.Refine

open Metalogos.Lang Metalogos.Machine Metalogos.Compile Metalogos.Walk Metalogos.Lib

variable {F W : Type} [FloatModel F]

variable {S : Setup F W} {p : Policy F} {T : List String}

/-! ## Bindings -/

section

variable {Γ Γ' : Scope} {cs cs' : CState} {env : Env F} {frame : List (Value F)} {x : String}
  {slot : Nat} {v : Value F}

omit [FloatModel F]

theorem Sync.store (hs : Sync Γ cs env frame) (hslot : cs.locals x = some slot)
    (hb : ∀ l, Γ.bound = some l → ∃ l', Γ'.bound = some l' ∧ ∀ y ∈ l', y = x ∨ y ∈ l)
    (hm : ∀ y, y = x ∨ y ∈ Γ.may → y ∈ Γ'.may) (hsl : ∀ y ∈ Γ.slots, y ∈ Γ'.slots) :
    Sync Γ' cs (env.set x v) (writeAt frame slot v) where
  live := by
    obtain ⟨l, hl, hn⟩ := hs.live
    obtain ⟨l', hl', hsub⟩ := hb l hl
    refine ⟨l', hl', fun y hy => ?_⟩
    by_cases hyx : y = x
    · subst hyx
      exact ⟨slot, v, hslot, by simp [Env.set], writeAt_self⟩
    · obtain ⟨s, u, h1, h2, h3⟩ := hn y ((hsub y hy).resolve_left hyx)
      have hne : s ≠ slot := by
        rintro rfl
        exact hyx (hs.ok.inj h1 hslot)
      obtain ⟨hlt, -⟩ := List.getElem?_eq_some_iff.1 h3
      exact ⟨s, u, h1, by simp [Env.set, hyx, h2], by rw [writeAt_ne hne hlt, h3]⟩
  may {y u} hy := by
    by_cases hyx : y = x
    · exact hm y (.inl hyx)
    · simp only [Env.set, hyx, if_false] at hy
      exact hm y (.inr (hs.may hy))
  slots hy := hsl _ (hs.slots hy)
  ok := hs.ok

/-- The slot of a `let` before anything is stored to it. -/
theorem Sync.init {reuse : Bool} (hs : Sync Γ cs env frame)
    (h : cs.letSlot reuse x = (slot, cs')) :
    Sync (Γ.init reuse x) cs' env frame ∧ cs'.locals x = some slot := by
  unfold CState.letSlot at h
  split at h
  · rename_i s hsome
    obtain ⟨rfl, rfl⟩ := Prod.mk.inj h
    cases reuse with
    | false => simp at hsome
    | true =>
      refine ⟨hs.weaken (fun l hl => ⟨l, hl, fun _ hx => hx⟩) (fun _ hx => hx) fun y hy => ?_, ?_⟩
      · exact List.mem_cons_of_mem _ hy
      · simpa using hsome
  · rename_i hnone
    obtain ⟨rfl, rfl⟩ := Prod.mk.inj h
    refine ⟨?_, by simp [CState.bindFresh, CState.setLocal]⟩
    obtain ⟨l, hl, hn⟩ := hs.live
    have hold {y : String} (hyx : y ≠ x) : (cs.bindFresh x).locals y = cs.locals y := by
      simp [CState.bindFresh, CState.setLocal, hyx]
    have hok : (cs.bindFresh x).Ok := by
      refine ⟨fun {y z s} hy hz => ?_, fun {y s} hy => ?_⟩
      · by_cases hyx : y = x <;> by_cases hzx : z = x
        · rw [hyx, hzx]
        · subst hyx
          rw [hold hzx] at hz
          have := hs.ok.lt hz
          simp [CState.bindFresh, CState.setLocal] at hy
          omega
        · subst hzx
          rw [hold hyx] at hy
          have := hs.ok.lt hy
          simp [CState.bindFresh, CState.setLocal] at hz
          omega
        · rw [hold hyx] at hy
          rw [hold hzx] at hz
          exact hs.ok.inj hy hz
      · by_cases hyx : y = x
        · subst hyx
          simp [CState.bindFresh, CState.setLocal] at hy ⊢
          omega
        · rw [hold hyx] at hy
          exact Nat.lt_succ_of_lt (hs.ok.lt hy)
    refine ⟨?_, hs.may, fun {y s} hy => ?_, hok⟩
    · cases reuse with
      | false =>
        refine ⟨l.filter (· ∉ [x]), by simp [Scope.init, dropNames, hl], fun y hy => ?_⟩
        simp only [List.mem_filter, List.mem_singleton, decide_eq_true_eq] at hy
        obtain ⟨s, u, h1, h2, h3⟩ := hn y hy.1
        exact ⟨s, u, by rw [hold hy.2, h1], h2, h3⟩
      | true =>
        refine ⟨l, by simp [Scope.init, hl], fun y hy => ?_⟩
        obtain ⟨s, u, h1, h2, h3⟩ := hn y hy
        have hyx : y ≠ x := by
          rintro rfl
          simp [h1] at hnone
        exact ⟨s, u, by rw [hold hyx, h1], h2, h3⟩
    · by_cases hyx : y = x
      · exact List.mem_cons.2 (.inl hyx)
      · rw [hold hyx] at hy
        exact List.mem_cons_of_mem _ (hs.slots hy)

/-- A `let` that reuses a slot must be allowed to. -/
theorem Guard.letSlot {P : Nat → Prop} {reuse : Bool} (hg : Guard P Γ cs)
    (h : cs.letSlot reuse x = (slot, cs')) (hx : reuse = true → x ∉ Γ.prot) : ¬ P slot := by
  unfold CState.letSlot at h
  split at h
  · rename_i s hsome
    obtain ⟨rfl, rfl⟩ := Prod.mk.inj h
    cases reuse with
    | false => simp at hsome
    | true => exact fun hp => hx rfl (hg.prot (by simpa using hsome) hp)
  · obtain ⟨rfl, rfl⟩ := Prod.mk.inj h
    exact fun hp => Nat.lt_irrefl _ (hg.lt hp)

theorem Sync.addMut (hs : Sync Γ cs env frame) (isMut : Bool) (x : String) :
    Sync Γ (cs.addMut isMut x) env frame :=
  hs.grow (Grows.addMut cs isMut x) (Ext.refl frame : Ext _ false frame frame)

/-- After a reset the register may be stale, but there is no value to be told. -/
theorem Regs.reset {mode : Mode} {rs regs : List (Value F)} {stale last : Value F}
    (h : Regs mode rs stale last regs) (hr : mode.isValue = true → last = .unit) :
    Regs mode rs stale .unit regs := by
  unfold Regs at h ⊢
  split_ifs at h ⊢ with hm
  · rw [hr hm] at h
    exact h
  · exact h

end

/-! ## Labels and sink checks -/

section

variable {X : Fixed F} {d b : Nat} {code : List (Instr F)} {frame regs : List (Value F)}
  {le : LabelEnv} {w : W}

theorem labelJoin_gets {x : String} {e : Expr F} (hA : Agrees S p T) (hp : p.source x e = true)
    (hcode : CodeAt code b (labelJoin S.tables x e)) (hl : LabelsIn T le) :
    ∃ le', LabelsIn T le' ∧ (S.machine d code).Gets (.inl (b, X.mach frame regs le w))
      (.inl (b + (labelJoin S.tables x e : List (Instr F)).length, X.mach frame regs le' w)) := by
  by_cases hnil : (labelJoin S.tables x e : List (Instr F)) = []
  · rw [hnil]
    exact ⟨le, hl, .refl _⟩
  · have hx := hA.source hp hnil
    obtain ⟨src, hsrc⟩ : ∃ src, (labelJoin S.tables x e : List (Instr F)) = [.labelJoin x src] := by
      unfold labelJoin at hnil ⊢
      split at hnil
      · split_ifs at hnil ⊢ with hs
        · exact ⟨_, rfl⟩
        · exact absurd rfl hnil
      · exact absurd rfl hnil
    rw [hsrc] at hcode ⊢
    simp only [CodeAt.cons_iff, CodeAt.nil, and_true] at hcode
    refine ⟨_, fun y hy => ?_, gets_labelJoin hcode⟩
    have hyx : y ≠ x := fun e => hy (e ▸ hx)
    simp only [execLabelJoin, hyx, if_false]
    exact hl y hy

theorem checks_gets {m : Mach F W} {is : List (Instr F)} (hcode : CodeAt code b is)
    (hpass : ∀ i ∈ is, ∃ data, i = .sinkCheck data ∧
      sinkRefuses data.fnName (labelOf S.names.classes le data.arg) = false)
    (hm : m = X.mach frame regs le w) :
    (S.machine d code).Gets (.inl (b, m)) (.inl (b + is.length, m)) := by
  subst hm
  induction is generalizing b with
  | nil => exact .refl _
  | cons i is ih =>
    simp only [CodeAt.cons_iff] at hcode
    obtain ⟨data, rfl, hp⟩ := hpass i (by simp)
    have hrest := ih hcode.2 fun j hj => hpass j (by simp [hj])
    rw [show b + (Instr.sinkCheck data :: is).length = b + 1 + is.length by simp; omega]
    exact (gets_sinkCheck hcode.1 hp).trans hrest

omit [FloatModel F] in
theorem emitSinkChecks_mem {t : Tables} {cs : CState} {fn : String} {line skip : Nat}
    {args : List (Expr F)} {i : Instr F} {n : Nat}
    (h : i ∈ emitSinkChecks t cs fn line skip n args) : ∃ data, i = .sinkCheck data := by
  induction args generalizing n with
  | nil => simp [emitSinkChecks] at h
  | cons a as ih =>
    simp only [emitSinkChecks, List.mem_append] at h
    rcases h with h | h
    · split at h
      · simp at h
      · exact ⟨_, List.mem_singleton.1 h⟩
    · exact ih h

omit [FloatModel F] in
theorem emitSinkChecks_length {t : Tables} {cs : CState} {fn : String} {line skip skip' : Nat}
    {args : List (Expr F)} {n : Nat} : (emitSinkChecks t cs fn line skip n args).length =
      (emitSinkChecks t cs fn line skip' n args).length := by
  induction args generalizing n with
  | nil => rfl
  | cons a as ih =>
    simp only [emitSinkChecks, List.length_append, ih]
    split <;> rfl

omit [FloatModel F] in
/-- The skip target does not change how many checks there are. -/
theorem armedSinkChecks_length (skip : Nat) {t : Tables} {cs : CState} {e : Expr F} :
    (armedSinkChecks t cs 0 e).length = (armedSinkChecks t cs skip e).length := by
  unfold armedSinkChecks
  split
  · split_ifs
    · exact emitSinkChecks_length
    · rfl
  · rfl

/-- The checks in front of a call let it through. -/
theorem sinks_gets {cs : CState} {skip : Nat} {e : Expr F} (hA : Agrees S p T)
    (hp : p.sink e = true) (hcode : CodeAt code b (armedSinkChecks S.tables cs skip e))
    (hl : LabelsIn T le) :
    (S.machine d code).Gets (.inl (b, X.mach frame regs le w))
      (.inl (b + (armedSinkChecks S.tables cs 0 e).length, X.mach frame regs le w)) := by
  rw [armedSinkChecks_length skip]
  refine checks_gets hcode (fun i hi => ?_) rfl
  obtain ⟨data, rfl⟩ : ∃ data, i = .sinkCheck data := by
    have hi' := hi
    unfold armedSinkChecks at hi'
    split at hi'
    · split_ifs at hi'
      · exact emitSinkChecks_mem hi'
      · simp at hi'
    · simp at hi'
  exact ⟨data, rfl, hA.sink hp hi hl⟩

/-- The label of a bound source, before or after the store. -/
theorem labelJoinIf_gets {c : Prop} [Decidable c] {x : String} {e : Expr F}
    (frame regs : List (Value F)) (w : W) (hA : Agrees S p T)
    (hp : p.source x e = true) (hcode : CodeAt code b (if c then labelJoin S.tables x e else []))
    (hl : LabelsIn T le) :
    ∃ le', LabelsIn T le' ∧ (S.machine d code).Gets (.inl (b, X.mach frame regs le w))
      (.inl (b + (if c then labelJoin S.tables x e else [] : List (Instr F)).length,
        X.mach frame regs le' w)) := by
  split_ifs at hcode ⊢ with h
  · exact labelJoin_gets hA hp hcode hl
  · exact ⟨le, hl, .refl _⟩

/-- In an arm a `let` leaves no value. -/
theorem reset_gets {mode : Mode} {rs : List (Value F)} {stale last : Value F}
    (frame : List (Value F)) (le : LabelEnv) (w : W)
    (hcode : CodeAt code b (if mode.isValue then [.pushUnit, .setValueReg] else []))
    (hregs : Regs mode rs stale last regs) :
    ∃ regs', Regs mode rs stale .unit regs' ∧
      (S.machine d code).Gets (.inl (b, X.mach frame regs le w))
        (.inl (b + (if mode.isValue then [.pushUnit, .setValueReg] else [] : List (Instr F)).length,
          X.mach frame regs' le w)) := by
  cases hm : mode.isValue with
  | false =>
    exact ⟨regs, hregs.reset (by simp [hm]), .refl _⟩
  | true =>
    simp only [Regs, hm, if_true] at hregs hcode ⊢
    obtain ⟨r, rfl, -⟩ := hregs
    simp only [CodeAt.cons_iff, CodeAt.nil, and_true] at hcode
    refine ⟨.unit :: rs, ⟨.unit, rfl, fun _ => rfl, fun _ => .inr rfl⟩, ?_⟩
    exact (gets_pushUnit hcode.1).trans (gets_setValueReg hcode.2)

end

/-! ## `let` -/

section

variable {Γ : Scope} {cs : CState} {env : Env F} {frame : List (Value F)} {x : String} {slot : Nat}
  {v : Value F}

omit [FloatModel F] in
/-- The store that ends a `let`. -/
theorem Sync.bind {reuse fresh isMut : Bool} {mode : Mode} {e : Expr F}
    (hs : Sync (Γ.init reuse x) cs env frame) (hslot : cs.locals x = some slot) :
    Sync (Γ.after mode fresh (.letBinding x e isMut)) cs (env.set x v) (writeAt frame slot v) := by
  refine hs.store hslot (fun l hl => ?_) (fun y hy => ?_) fun y hy => ?_
  · cases hb : Γ.bound with
    | none => cases reuse <;> simp [Scope.init, hb, dropNames] at hl
    | some l₀ =>
      refine ⟨x :: l₀, by simp [Scope.after, flowStmt, hb], fun y hy => ?_⟩
      cases reuse with
      | true =>
        obtain rfl : l₀ = l := by simpa [Scope.init, hb] using hl
        simpa using hy
      | false =>
        obtain rfl : l₀.filter (· ∉ [x]) = l := by simpa [Scope.init, hb, dropNames] using hl
        simp only [List.mem_cons] at hy
        by_cases hyx : y = x
        · exact .inl hyx
        · simp [hyx, hy.resolve_left hyx]
  · simp only [Scope.after, letsStmt, loopVarsStmt, List.mem_append, List.mem_singleton]
    tauto
  · simp only [Scope.after, letsStmt, Scope.init, List.mem_append, List.mem_cons] at hy ⊢
    tauto

end

omit [FloatModel F] in
theorem letShape_eq {t : Tables} {mode : Mode} {x : String} {e : Expr F} {slot : Nat} {c : Frag F} :
    letShape t mode x e slot c = Compile.code (if mode = .top then labelJoin t x e else []) ++ c ++
      Compile.code (.storeLocal slot :: (if mode ≠ .top then labelJoin t x e else []) ++
        if mode.isValue then [.pushUnit, .setValueReg] else []) := by
  cases mode <;> simp [letShape, Mode.isValue, Compile.code]

omit [FloatModel F] in
theorem letOffset_eq {t : Tables} {mode : Mode} {x : String} {e : Expr F} :
    letOffset t mode x e = (if mode = .top then labelJoin t x e else [] : List (Instr F)).length := by
  cases mode <;> simp [letOffset]

/-- A statement that is no terminator promises nothing more. -/
theorem Simulates.noStop {d : Nat} {code : List (Instr F)} {Ok : Event F → Prop}
    {x : TW F W (Outcome F)} {w : W} {o : Place F W} {Q : Outcome F → W → Place F W → Prop}
    {E : String → W → Place F W → Prop} {mode : Mode}
    (h : Simulates (S.machine d code) Ok x w o Q E) :
    Simulates (S.machine d code) Ok x w o (fun out w o => Q out w o ∧ Stops false mode out o) E :=
  h.post (fun _ _ o hq => ⟨o, .refl o, hq, nofun⟩) fun _ _ _ h => h

theorem let_sim {x : String} {e : Expr F} {isMut : Bool} (hm : e.isMatch = false)
    (hA : Agrees S p T) (he : ExprSim S p T e) : StmtSim S p T (.letBinding x e isMut) := by
  intro g d k code Γ cs cs' b frag env muts isLast last regs le w hr hc hok hcode hstop hctx hs hg hL
    hregs hl
  have hc' := hc
  simp only [compileStmt_let hm, bind_ok, Except.ok.injEq, Prod.mk.injEq] at hc'
  obtain ⟨⟨c₁, cs₁⟩, h₁, rfl, rfl⟩ := hc'
  have hok' : ((!g.c.mode.reuse cs.fresh || decide (x ∉ Γ.prot)) && p.source x e
      && okExpr p k (Γ.init (g.c.mode.reuse cs.fresh) x) e) = true := by
    cases e <;> first | exact hok | simp [Expr.isMatch] at hm
  simp only [Bool.and_eq_true, Bool.or_eq_true, Bool.not_eq_true', decide_eq_true_eq] at hok'
  obtain ⟨⟨hprot, hsrc⟩, hexp⟩ := hok'
  rcases hslot : (cs.addMut isMut x).letSlot (g.c.mode.reuse cs.fresh) x with ⟨slot, cs₀⟩
  rw [hslot] at h₁ hcode hstop
  have hfresh : (cs.addMut isMut x).fresh = cs.fresh := (Grows.addMut cs isMut x).fresh
  have g₀ : Grows [x] false (cs.addMut isMut x) cs₀ :=
    .letSlot (by rw [hfresh]; exact reuse_fresh hctx.fresh) hslot
  obtain ⟨hs₀, hx₀⟩ := (hs.addMut isMut x).init hslot
  have hnP : ¬ g.P slot := (hg.grow (Grows.addMut cs isMut x) rfl).letSlot hslot fun hre =>
    hprot.resolve_left (by simp [hre])
  have hP (s : Nat) (h : g.P s) : s < cs₀.next :=
    Nat.lt_of_lt_of_le (hg.lt h) (Nat.le_trans (Grows.addMut cs isMut x).next g₀.next)
  have hx₁ : cs₁.locals x = some slot := by rw [(compileExpr_grows e h₁).old (by simp), hx₀]
  rw [letShape_eq] at hcode hstop
  rw [letOffset_eq] at h₁
  simp only [fill_append, fill_code, CodeAt.append_iff, length_fill, List.length_append,
    CodeAt.cons_iff, List.length_cons, List.cons_append, ← Nat.add_assoc] at hcode
  obtain ⟨⟨⟨hlj, hc₁⟩, hst, hlj', hreset⟩, hu⟩ := hcode
  obtain ⟨le₁, hl₁, hgets₁⟩ := labelJoinIf_gets (X := g.X) (d := d) g.frame regs w hA hsrc hlj hl
  simp only [evalStmt]
  refine Simulates.noStop (Simulates.pre hgets₁ ?_)
  refine he.then hr h₁ hexp hc₁ hs₀ hl₁ (fun v w' fr le' hx hs' hl' => ?_) fun _ _ _ h =>
    h.mono (.refl _) hP
  refine Simulates.tell fun hstore => ?_
  have hstore : g.c.st = true := hstore
  obtain ⟨le₂, hl₂, hgets₂⟩ := labelJoinIf_gets (X := g.X) (d := d) (writeAt fr slot v) regs w' hA
    hsrc hlj' hl'
  obtain ⟨regs', hregs', hgets₃⟩ := reset_gets (S := S) (X := g.X) (d := d) (writeAt fr slot v) le₂ w'
    hreset hregs
  refine Simulates.pre (((gets_storeLocal hst).trans hgets₂).trans hgets₃) ?_
  refine finish_sim ?_ ?_ hctx ((hx.mono hP).trans (ext_writeAt hstore hnP)) hregs' (fun _ _ => rfl)
    hl₂ (hs'.bind hx₁)
  · convert hu using 1
    omega
  · simp only [hstop, List.length_append, length_code, List.length_cons]
    omega

omit [FloatModel F] in
/-- The last cell of a frame that grew over a waiting value. -/
theorem Ext.concat {P : Nat → Prop} {st : Bool} {a b : List (Value F)} {v : Value F}
    (h : Ext P st (a ++ [v]) b) : ∃ u, b = b.dropLast ++ [u] := by
  have hne : b ≠ [] := by
    rintro rfl
    simpa using h.le
  exact ⟨b.getLast hne, (List.dropLast_concat_getLast hne).symm⟩

/-- Scrutinee and arms of a let-bound `match`: the scrutinee's cell, or one a block of the arm left,
is on top. -/
theorem matchValue_sim {s : Expr F} {arms : MatchArms F} (he : ExprSim S p T s)
    (ha : ArmsValueSim S p T arms) {X : Fixed F} {d k : Nat} {code : List (Instr F)} {Γ : Scope}
    {c : Ctx} {cs cs₁ cs₂ : CState} {b : Nat} {c₁ c₂ : Frag F} {brk cont : Nat} {env : Env F}
    {frame rs : List (Value F)} {le : LabelEnv} {w : W} (hr : Runs S X d k)
    (h₁ : compileExpr S.tables s cs b = .ok (c₁, cs₁))
    (h₂ : compileArms S.tables .arm .dup arms cs₁ (b + c₁.length) = .ok (c₂, cs₂))
    (hexp : okExpr p k Γ s = true) (harms : okArms p k .arm true Γ arms = true)
    (hc₁ : CodeAt code b (fill brk cont c₁))
    (hc₂ : CodeAt code (b + c₁.length) (fill brk cont c₂))
    (hs : Sync Γ cs env frame) (hl : LabelsIn T le) :
    Simulates (S.machine d code) (Clean c) (do
        let sv ← evalExpr S.walk s env
        evalArmsValue S.walk arms sv env) w
      (.inl (b, X.mach frame (.unit :: rs) le w))
      (fun v w o => ∃ fr u le, o = .inl (b + c₁.length + c₂.length, X.mach (fr ++ [u]) (v :: rs) le w) ∧
        Ext (· < cs.next) c.st frame fr ∧ LabelsIn T le)
      (Fails T X (· < cs.next) c.st frame) := by
  have hle (n : Nat) (h : n < cs.next) : n < cs₁.next :=
    Nat.lt_of_lt_of_le h (compileExpr_grows s h₁).next
  refine he.then hr h₁ hexp hc₁ hs hl (fun sv w' fr le' hx hs' hl' => ?_) fun _ _ _ h => h
  refine Simulates.post (ha hr h₂ harms hc₂ rfl hs' hl') ?_ fun _ _ _ h => h.cut hx hle id
  rintro v w'' o ⟨fr', le'', rfl, hx', hl''⟩
  obtain ⟨u, hfr⟩ := hx'.concat
  refine ⟨_, .refl _, fr'.dropLast, u, le'', by rw [← hfr], hx.trans (hx'.dropLast.mono hle), hl''⟩

theorem letMatch_sim {x : String} {s : Expr F} {arms : MatchArms F} {isMut : Bool}
    (he : ExprSim S p T s) (ha : ArmsValueSim S p T arms) :
    StmtSim S p T (.letBinding x (.matchExpr s arms) isMut) := by
  intro g d k code Γ cs cs' b frag env muts isLast last regs le w hr hc hok hcode hstop hctx hs hg hL
    hregs hl
  simp only [compileStmt, bind_ok, Except.ok.injEq, Prod.mk.injEq] at hc
  obtain ⟨⟨c₁, cs₁⟩, h₁, ⟨c₂, cs₂⟩, h₂, rfl, rfl⟩ := hc
  simp only [okStmt, Bool.and_eq_true, Bool.or_eq_true, decide_eq_true_eq] at hok
  obtain ⟨⟨⟨-, hprot⟩, hexp⟩, harms⟩ := hok
  rcases hslot : (cs.addMut isMut x).letSlot (!g.c.mode.isValue) x with ⟨slot, cs₀⟩
  rw [hslot] at h₁ hcode hstop
  have g₀ : Grows [x] false (cs.addMut isMut x) cs₀ := by
    refine .letSlot ?_ hslot
    rw [(Grows.addMut cs isMut x).fresh]
    cases hv : g.c.mode.isValue with
    | true => exact .inl (hctx.fresh hv)
    | false => exact .inr rfl
  obtain ⟨hs₀, hx₀⟩ := (hs.addMut isMut x).init hslot
  have hnP : ¬ g.P slot := (hg.grow (Grows.addMut cs isMut x) rfl).letSlot hslot fun hre =>
    hprot.resolve_left (by simpa using hre)
  have hP (s : Nat) (h : g.P s) : s < cs₀.next :=
    Nat.lt_of_lt_of_le (hg.lt h) (Nat.le_trans (Grows.addMut cs isMut x).next g₀.next)
  have g₁ := compileExpr_grows s h₁
  have g₂ : Grows [] false cs₁ cs₂ := compileArms_grows .arm .dup arms (fun _ hne => absurd rfl hne) h₂
  have hx₂ : cs₂.locals x = some slot := by rw [g₂.old (by simp), g₁.old (by simp), hx₀]
  have hsplit : (if g.c.mode.isValue then Compile.code [.pushUnit, .setValueReg] else [] : Frag F) =
      Compile.code (if g.c.mode.isValue then [.pushUnit, .setValueReg] else []) := by
    split_ifs <;> rfl
  rw [hsplit] at hcode hstop
  simp only [fill_append, fill_code, CodeAt.append_iff, length_fill, List.length_append,
    CodeAt.cons_iff, CodeAt.nil, and_true, List.length_cons, List.length_nil, Nat.zero_add,
    ← Nat.add_assoc] at hcode
  obtain ⟨⟨⟨⟨⟨hbegin, hc₁⟩, hc₂⟩, hpop, hend, hst⟩, hreset⟩, hu⟩ := hcode
  simp only [evalStmt, evalExpr]
  refine Simulates.noStop (Simulates.pre (gets_beginValueExpr hbegin) ?_)
  refine Simulates.bind (matchValue_sim he ha hr h₁ h₂ hexp harms hc₁ hc₂ hs₀ hl) ?_ fun _ _ _ h =>
    h.mono (.refl _) hP
  rintro v w' o ⟨fr, u, le', rfl, hx, hl'⟩
  refine Simulates.tell fun hstore => ?_
  have hstore : g.c.st = true := hstore
  obtain ⟨regs', hregs', hgets⟩ := reset_gets (S := S) (X := g.X) (d := d) (writeAt fr slot v) le' w'
    hreset hregs
  refine Simulates.pre ((((gets_pop hpop).trans (gets_endValueExpr hend)).trans
    (gets_storeLocal hst)).trans hgets) ?_
  refine finish_sim hu ?_ hctx ((hx.mono hP).trans (ext_writeAt hstore hnP)) hregs' (fun _ _ => rfl)
    hl' ((hs₀.grow (g₁.trans g₂) hx).bind hx₂)
  simp only [hstop, List.length_append, length_code, List.length_cons, List.length_nil]
  omega

/-! ## Assignment -/

theorem assign_sim {x : String} {e : Expr F} (he : ExprSim S p T e) :
    StmtSim S p T (.assign x e) := by
  intro g d k code Γ cs cs' b frag env muts isLast last regs le w hr hc hok hcode hstop hctx hs hg hL
    hregs hl
  simp only [compileStmt] at hc
  split_ifs at hc with hmut
  split at hc
  · simp at hc
  rename_i slot hslot
  simp only [bind_ok, Except.ok.injEq, Prod.mk.injEq] at hc
  obtain ⟨⟨c₁, cs₁⟩, h₁, rfl, rfl⟩ := hc
  simp only [okStmt, Bool.and_eq_true, decide_eq_true_eq] at hok
  obtain ⟨⟨hprot, hmay⟩, hexp⟩ := hok
  simp only [fill_append, fill_code, CodeAt.append_iff, length_fill, List.length_append,
    CodeAt.cons_iff, CodeAt.nil, and_true, List.length_cons, List.length_nil, Nat.zero_add,
    ← Nat.add_assoc] at hcode
  obtain ⟨⟨hc₁, hst⟩, hu⟩ := hcode
  have hP (s : Nat) (h : g.P s) : s < cs.next := hg.lt h
  have g₁ := compileExpr_grows e h₁
  simp only [evalStmt]
  split_ifs with hin
  · refine Simulates.noStop ?_
    refine he.then hr h₁ hexp hc₁ hs hl (fun v w' fr le' hx hs' hl' => ?_) fun _ _ _ h =>
      h.mono (.refl _) hP
    refine Simulates.tell fun hreset => Simulates.tell fun hstore => ?_
    have hstore : g.c.st = true := hstore
    refine Simulates.pre (gets_storeAssignLocal hst) ?_
    refine finish_sim hu ?_ hctx ((hx.mono hP).trans (ext_writeAt hstore fun h =>
      hprot (hg.prot hslot h))) (hregs.reset hreset) (fun _ _ => rfl) hl' ?_
    · simp only [hstop, List.length_append, length_code, List.length_cons, List.length_nil]
      omega
    · refine hs'.store (by rw [g₁.old (by simp), hslot]) (fun l hl => ?_) (fun y hy => ?_)
        fun y hy => ?_
      · exact ⟨x :: l, by simp [Scope.after, flowStmt, hl], fun y hy => by simpa using hy⟩
      · simp only [Scope.after, letsStmt, loopVarsStmt, List.append_nil]
        rcases hy with rfl | hy
        · exact hmay
        · exact hy
      · simpa [Scope.after, letsStmt] using hy
  · exact Simulates.tell fun h => h.elim

end Metalogos.Refine
