import Metalogos.Refine.Exprs

/-!
# Simulation of blocks and branches

A block runs statement by statement; a nested block runs inside a statement of another one and
hands its signal on (`eval_block!` on one side, the joined jumps on the other). Chains of `else if`
and the arms of a `match` come in two versions: as statements, where a body may end with any
signal, and as the arms of a block expression, where its value goes through the register.
-/
namespace Metalogos.Refine

open Metalogos.Lang Metalogos.Machine Metalogos.Compile Metalogos.Walk Metalogos.Lib

variable {F W : Type} [FloatModel F]

variable {S : Setup F W} {p : Policy F} {T : List String}

/-! ## Signals -/

omit [FloatModel F] in
/-- A piece that started later, on a frame that grew. -/
theorem Spot.Done.mono {g : Spot F} {fr : List (Value F)} {isLast : Bool}
    {post post' : Env F → List (Value F) → Prop} {out : Outcome F} {w : W} {o : Place F W}
    (h : Spot.Done { g with frame := fr } T isLast post out w o)
    (he : Ext g.P g.c.st g.frame fr) (hp : ∀ env frame, post env frame → post' env frame) :
    g.Done T isLast post' out w o := by
  obtain ⟨sig, env, muts⟩ := out
  have leaves {target : Nat} (hL : Spot.Leaves { g with frame := fr } T target env w o) :
      g.Leaves T target env w o := by
    obtain ⟨hm, frame, le, rfl, hx, hl, hb⟩ := hL
    exact ⟨hm, frame, le, rfl, he.trans hx, hl, hb⟩
  cases sig with
  | normal v =>
    simp only [Spot.Done] at h ⊢
    split_ifs at h ⊢ with hk
    · exact h
    · obtain ⟨frame, regs, le, rfl, hx, hr, hl, hpost⟩ := h
      exact ⟨frame, regs, le, rfl, he.trans hx, hr, hl, hp _ _ hpost⟩
  | brk => exact leaves h
  | cont => exact leaves h
  | ret v =>
    simp only [Spot.Done] at h ⊢
    split_ifs at h ⊢ with hm
    · obtain ⟨hlast, frame, le, rfl, hx, hl⟩ := h
      exact ⟨hlast, frame, le, rfl, he.trans hx, hl⟩
    · exact h

omit [FloatModel F] in
theorem regs_mode {mode : Mode} {rs : List (Value F)} {stale last : Value F}
    {regs : List (Value F)} (h : Regs mode rs stale last regs) (hm : mode.isValue = false) :
    regs = rs := by
  simpa [Regs, hm] using h

theorem inner_isValue (mode : Mode) : mode.inner.isValue = mode.isValue := by
  cases mode <;> rfl

omit [FloatModel F] in
/-- Into a nested block and out again: what the register holds at its entry is stale inside. -/
theorem Regs.enter {mode : Mode} {rs : List (Value F)} {stale last : Value F}
    {regs : List (Value F)} (h : Regs mode rs stale last regs) :
    ∃ r, Regs mode.inner rs r .unit regs ∧ ∀ {v regs'}, Regs mode.inner rs r v regs' →
      (mode.isValue = true → v = .unit → last = .unit) → Regs mode rs stale v regs' := by
  cases hm : mode.isValue with
  | false =>
    refine ⟨.unit, ?_, fun {v regs'} h' _ => ?_⟩
    · simp only [Regs, inner_isValue, hm, Bool.false_eq_true, if_false]
      exact regs_mode h hm
    · simpa only [Regs, inner_isValue, hm, Bool.false_eq_true, if_false] using h'
  | true =>
    simp only [Regs, hm, if_true] at h
    obtain ⟨r, rfl, -, hstale⟩ := h
    refine ⟨r, ?_, fun {v regs'} h' hv => ?_⟩
    · simp only [Regs, inner_isValue, hm, if_true]
      exact ⟨r, rfl, fun h => absurd rfl h, fun _ => .inl rfl⟩
    · simp only [Regs, inner_isValue, hm, if_true] at h' ⊢
      obtain ⟨r', h1, h2, h3⟩ := h'
      refine ⟨r', h1, h2, fun hu => ?_⟩
      rcases h3 hu with rfl | h
      · exact hstale (hv rfl hu)
      · exact .inr h

/-- A nested block: the register it finds is stale for it, and the running value of the statement
around it counts again when the block had none. -/
theorem block_sim {body : List (Stmt F)} (hb : StmtsSim S p T body) {g : Spot F} {d k : Nat}
    {code : List (Instr F)} {kind : BodyKind} {Γ : Scope} {cs cs' : CState} {b : Nat}
    {frag : Frag F} {env : Env F} {muts : List String} {isLast : Bool} {last : Value F}
    {fr regs : List (Value F)} {le : LabelEnv} {w : W} {post : Env F → List (Value F) → Prop}
    (hr : Runs S g.X d k) (hc : compileStmts S.tables kind body cs b = .ok (frag, cs'))
    (hkm : kind.mode = g.c.mode.inner) (hkk : kind.keeps = g.c.keep isLast)
    (hok : okStmts p k g.c.mode.inner cs.fresh Γ body = true)
    (hcode : CodeAt code b (fill g.brk g.cont frag)) (hctx : g.c.Ok cs.fresh)
    (hx : Ext g.P g.c.st g.frame fr) (hs : Sync Γ cs env fr) (hg : Guard g.P Γ cs)
    (hL : g.L.Inside Γ cs (letsStmts body) (loopVarsStmts body))
    (hregs : Regs g.c.mode g.rs g.stale last regs) (hl : LabelsIn T le)
    (hj : endsInTerminator body = false →
      ∀ m, (S.machine d code).Gets (.inl (b + frag.length, m)) (.inl (g.stop, m)))
    (hp : ∀ env' fr', Sync (Γ.afters g.c.mode.inner cs.fresh body) cs' env' fr' → post env' fr') :
    Simulates (S.machine d code) (Clean g.c)
      (evalBlock isLast last (evalStmts S.walk body .unit env muts)) w
      (.inl (b, g.X.mach fr regs le w)) (g.Done T isLast post)
      (Fails T g.X g.P g.c.st g.frame) := by
  obtain ⟨r, hregs', hexit⟩ := hregs.enter
  refine Simulates.bind (Simulates.wrap (hb
    (g := { g with c := g.c.blk isLast, frame := fr, stop := b + frag.length, stale := r })
    hr hc hkm hkk hok hcode rfl (hctx.blk isLast) hs hg hL hregs' hl fun _ => rfl)) ?_
    fun _ _ _ h => h.mono hx fun _ h => h
  have hkeep : (g.c.blk isLast).keep true = g.c.keep isLast := by simp [Ctx.keep, Ctx.blk]
  rintro ⟨sig, env', muts'⟩ w' o ⟨hdone, hstops⟩
  cases sig with
  | normal v =>
    have hj := hj (by simpa [Stops] using hstops)
    refine Simulates.tell fun htaken => ?_
    simp only [Spot.Done] at hdone
    rw [hkeep] at hdone
    cases hk : g.c.keep isLast with
    | true =>
      rw [hk] at hdone
      obtain ⟨frame, u, le', rfl, hu⟩ := hdone
      refine Simulates.pre (hj _) (Simulates.pure ?_)
      simp only [Spot.Done, hk, if_true]
      exact ⟨frame, u, le', rfl, hu⟩
    | false =>
      rw [hk] at hdone
      obtain ⟨frame, regs', le', rfl, hx', hr', hl', hpost⟩ := hdone
      refine Simulates.pre (hj _) (Simulates.pure ?_)
      simp only [Spot.Done, hk, Bool.false_eq_true, if_false]
      exact ⟨frame, regs', le', rfl, hx.trans hx', hexit hr' htaken, hl', hp _ _ hpost⟩
  | brk =>
    obtain ⟨hm, frame, le', rfl, hx', hl', hb'⟩ := hdone
    refine Simulates.pure ⟨?_, frame, le', rfl, hx.trans hx', hl', hb'⟩
    cases hmode : g.c.mode <;> simp_all [Ctx.blk, Mode.inner]
  | cont =>
    obtain ⟨hm, frame, le', rfl, hx', hl', hb'⟩ := hdone
    refine Simulates.pure ⟨?_, frame, le', rfl, hx.trans hx', hl', hb'⟩
    cases hmode : g.c.mode <;> simp_all [Ctx.blk, Mode.inner]
  | ret v =>
    have hne : (g.c.blk isLast).mode ≠ .arm := by
      simp only [Ctx.blk]
      cases g.c.mode <;> simp [Mode.inner]
    simp only [Spot.Done, if_neg hne, hkeep] at hdone
    obtain ⟨ha, hres⟩ := hdone
    have hne' : g.c.mode ≠ .arm := by
      intro hm
      have harm := hctx.arm hm
      simp only [Ctx.blk] at ha
      rw [harm] at ha
      cases ha
    rcases hres with ⟨m, rfl, hw⟩ | ⟨hk, frame, le', rfl⟩
    · refine Simulates.pure ?_
      simp only [Spot.Done, if_neg hne']
      exact ⟨ha, .inl ⟨m, rfl, hw⟩⟩
    · have hj := hj (by simpa [Stops, hne] using hstops)
      refine Simulates.pre (hj _) (Simulates.pure ?_)
      simp only [Spot.Done, if_neg hne']
      exact ⟨ha, .inr ⟨hk, frame, le', rfl⟩⟩

section

variable {g : Spot F} {d b : Nat} {code : List (Instr F)} {env : Env F} {muts : List String}
  {fresh isLast : Bool} {last : Value F} {fr regs : List (Value F)} {le : LabelEnv} {w : W} {post : Env F → List (Value F) → Prop}

omit [FloatModel F] in
/-- A statement that keeps its value is outside every arm. -/
theorem regs_keep (hctx : g.c.Ok fresh) (hk : g.c.keep isLast = true)
    (hregs : Regs g.c.mode g.rs g.stale last regs) : regs = g.rs := by
  simp only [Ctx.keep, Bool.and_eq_true] at hk
  have hm := (hctx.tail hk.1).1
  refine regs_mode hregs ?_
  rw [← inner_isValue, hm]
  rfl

/-- The end of a statement that has no value of its own. -/
theorem finish_sim {v : Value F} {E : String → W → Place F W → Prop}
    (hcode : CodeAt code b (fill g.brk g.cont (unitIf (g.c.keep isLast))))
    (hstop : g.stop = b + (unitIf (g.c.keep isLast) : Frag F).length) (hctx : g.c.Ok fresh)
    (hx : Ext g.P g.c.st g.frame fr) (hregs : Regs g.c.mode g.rs g.stale v regs)
    (hv : g.c.precise = true → g.c.keep isLast = true → v = .unit) (hl : LabelsIn T le)
    (hpost : post env fr) :
    Simulates (S.machine d code) (Clean g.c) (pure (.normal v, env, muts) : TW F W (Outcome F)) w
      (.inl (b, g.X.mach fr regs le w)) (g.Done T isLast post) E := by
  cases hk : g.c.keep isLast with
  | true =>
    rw [hk] at hcode hstop hv
    simp only [unitIf, if_true, fill_code, CodeAt.cons_iff, CodeAt.nil, and_true] at hcode
    obtain rfl := regs_keep hctx hk hregs
    refine Simulates.pre (gets_pushUnit hcode) (Simulates.pure ?_)
    simp only [Spot.Done, hk, if_true]
    refine ⟨fr, .unit, le, ?_, fun hp => (hv hp rfl).symm⟩
    rw [hstop]
    rfl
  | false =>
    rw [hk] at hstop
    refine Simulates.pure ?_
    simp only [Spot.Done, hk, Bool.false_eq_true, if_false]
    refine ⟨fr, regs, le, ?_, hx, hregs, hl, hpost⟩
    rw [hstop]
    rfl

theorem keepLast_sim {E : String → W → Place F W → Prop}
    (hcode : CodeAt code b (fill g.brk g.cont (unitIf (g.c.keep isLast))))
    (hstop : g.stop = b + (unitIf (g.c.keep isLast) : Frag F).length) (hctx : g.c.Ok fresh)
    (hx : Ext g.P g.c.st g.frame fr) (hregs : Regs g.c.mode g.rs g.stale last regs)
    (hl : LabelsIn T le) (hpost : post env fr) :
    Simulates (S.machine d code) (Clean g.c) (keepLast isLast last env muts : TW F W (Outcome F)) w
      (.inl (b, g.X.mach fr regs le w)) (g.Done T isLast post) E := by
  unfold keepLast
  exact Simulates.tell fun hs => finish_sim hcode hstop hctx hx hregs hs hl hpost

end

/-! ## Sequences -/

/-- A `let` that does not reuse a slot binds its name to a new one. -/
theorem let_fresh_slot {t : Tables} {mode : Mode} {keep isMut : Bool} {x : String} {e : Expr F}
    {cs cs' : CState} {b : Nat} {frag : Frag F}
    (h : compileStmt t mode keep (.letBinding x e isMut) cs b = .ok (frag, cs'))
    (hr : e.isMatch = false → mode.reuse cs.fresh = false)
    (hv : e.isMatch = true → mode.isValue = true) : cs'.locals x = some cs.next := by
  have hslot : (((cs.addMut isMut x).letSlot false x).2).locals x = some cs.next := by
    cases isMut <;> simp [CState.letSlot, CState.bindFresh, CState.setLocal, CState.addMut]
  cases hm : e.isMatch with
  | false =>
    simp only [compileStmt_let hm, hr hm, bind_ok, Except.ok.injEq, Prod.mk.injEq] at h
    obtain ⟨⟨c₁, cs₁⟩, h₁, -, rfl⟩ := h
    rw [(compileExpr_grows e h₁).old (by simp), hslot]
  | true =>
    cases e with
    | matchExpr s arms =>
      simp only [compileStmt, hv hm, Bool.not_true, bind_ok, Except.ok.injEq, Prod.mk.injEq] at h
      obtain ⟨⟨c₁, cs₁⟩, h₁, ⟨c₂, cs₂⟩, h₂, -, rfl⟩ := h
      have ga := compileArms_grows .arm .dup arms (fun _ hne => absurd rfl hne) h₂
      rw [ga.old (by simp [BodyKind.out]), (compileExpr_grows s h₁).old (by simp), hslot]
    | _ => simp [Expr.isMatch] at hm

theorem guard_after {t : Tables} {mode : Mode} {keep : Bool} {s : Stmt F} {cs cs' : CState}
    {b : Nat} {frag : Frag F} {P : Nat → Prop} {Γ : Scope}
    (h : compileStmt t mode keep s cs b = .ok (frag, cs'))
    (hm : mode.isValue = true → cs.fresh = true) (hg : Guard P Γ cs) :
    Guard P (Γ.after mode cs.fresh s) cs' := by
  have hgr := compileStmt_grows mode keep s hm h
  have hprot {y : String} {n : Nat} (hy : cs'.locals y = some n) (hp : P n) : y ∈ Γ.prot := by
    rcases hgr.new hy with hy | ⟨-, hle⟩
    · exact hg.prot hy hp
    · exact absurd (hg.lt hp) (Nat.not_lt.2 hle)
  -- a name bound to a new slot is not protected any more, and that slot never was
  have hfilter {x y : String} {n : Nat} (hx : cs'.locals x = some cs.next)
      (hy : cs'.locals y = some n) (hp : P n) : y ∈ Γ.prot.filter (· ≠ x) := by
    simp only [List.mem_filter, decide_eq_true_eq]
    refine ⟨hprot hy hp, ?_⟩
    rintro rfl
    rw [hx] at hy
    cases hy
    exact Nat.lt_irrefl _ (hg.lt hp)
  refine ⟨fun {y n} hy hp => ?_, fun hp => Nat.lt_of_lt_of_le (hg.lt hp) hgr.next⟩
  unfold Scope.after
  simp only
  split
  · split_ifs with hv
    · exact hfilter (let_fresh_slot h (by simp [Expr.isMatch]) fun _ => hv) hy hp
    · exact hprot hy hp
  · rename_i x e isMut hne
    have hnm : e.isMatch = false := by
      cases e with
      | matchExpr s arms => exact absurd rfl (hne s arms)
      | _ => rfl
    split_ifs with hv
    · exact hprot hy hp
    · exact hfilter (let_fresh_slot h (fun _ => by simpa using hv) (by simp [hnm])) hy hp
  · exact hprot hy hp

theorem stmts_nil : StmtsSim S p T ([] : List (Stmt F)) := by
  intro g d k code kind Γ cs cs' b frag env muts last regs le w hr hc hkm hkk hok hcode hstop hctx hs
    hg hL hregs hl hlast
  obtain ⟨rfl, rfl⟩ : unitIf kind.keeps = frag ∧ cs = cs' := by simpa [compileStmts] using hc
  have hk : kind.keeps = g.c.keep true := by simp [hkk, Ctx.keep]
  rw [hk] at hcode hstop
  simp only [evalStmts]
  refine Simulates.post (finish_sim hcode hstop hctx (.refl _) hregs (fun _ _ => hlast rfl) hl hs) ?_
    fun _ _ _ h => h
  exact fun out w' o hd => ⟨o, .refl o, hd, nofun⟩

theorem stmts_single {s : Stmt F} (h : StmtSim S p T s) : StmtsSim S p T [s] := by
  intro g d k code kind Γ cs cs' b frag env muts last regs le w hr hc hkm hkk hok hcode hstop hctx hs
    hg hL hregs hl _
  have hk : kind.keeps = g.c.keep true := by simp [hkk, Ctx.keep]
  simp only [compileStmts, hkm, hk] at hc
  simp only [okStmts, Bool.and_eq_true] at hok
  simp only [letsStmts, loopVarsStmts, List.append_nil] at hL
  simp only [evalStmts, List.isEmpty_nil]
  refine Simulates.bind (h hr hc hok.1 hcode hstop hctx hs hg hL hregs hl) ?_ fun _ _ _ h => h
  rintro ⟨sig, env', muts'⟩ w' o hd
  cases sig <;> exact Simulates.pure hd

theorem stmts_cons {s s' : Stmt F} {rest : List (Stmt F)} (h : StmtSim S p T s)
    (ht : StmtsSim S p T (s' :: rest)) : StmtsSim S p T (s :: s' :: rest) := by
  intro g d k code kind Γ cs cs' b frag env muts last regs le w hr hc hkm hkk hok hcode hstop hctx hs
    hg hL hregs hl _
  simp only [compileStmts, bind_ok, Except.ok.injEq, Prod.mk.injEq] at hc
  obtain ⟨⟨c₁, cs₁⟩, h₁, ⟨c₂, cs₂⟩, h₂, rfl, rfl⟩ := hc
  have hk : g.c.keep false = false := by simp [Ctx.keep]
  rw [hkm, ← hk] at h₁
  rw [okStmts, Bool.and_eq_true] at hok
  simp only [fill_append, CodeAt.append_iff, length_fill] at hcode
  have hgr := compileStmt_grows _ _ s hctx.fresh h₁
  have hsh := okStmt_shares hok.1
  have hL₁ : g.L.Inside Γ cs (letsStmt s) (loopVarsStmt s) :=
    hL.sub (fun x hx => List.mem_append_left _ hx) fun x hx => List.mem_append_left _ hx
  have hL₂ := Base.Inside.after (s := s) hL hs hgr hsh hctx.fresh
  rw [evalStmts]
  refine Simulates.bind (h (g := { g with stop := b + c₁.length }) hr h₁ hok.1 hcode.1 rfl hctx hs hg
    hL₁ hregs hl) ?_ fun _ _ _ h => h
  have hends : endsInTerminator (s :: s' :: rest) = endsInTerminator (s' :: rest) := by
    simp [endsInTerminator]
  rintro ⟨sig, env', muts'⟩ w' o ⟨hd, -⟩
  cases sig with
  | normal v =>
    simp only [Spot.Done, List.isEmpty_cons, hk, Bool.false_eq_true, if_false] at hd
    obtain ⟨fr, regs', le', rfl, hx, hregs', hl', hs'⟩ := hd
    have hctx' : g.c.Ok cs₁.fresh := hgr.fresh ▸ hctx
    have hok₂ := hok.2
    rw [← hgr.fresh] at hok₂ hs' hL₂
    have hg₂ := guard_after h₁ hctx.fresh hg
    rw [← hgr.fresh] at hg₂
    refine Simulates.post (ht (g := { g with frame := fr }) hr h₂ hkm hkk hok₂ hcode.2 ?_ hctx' hs'
      hg₂ hL₂ hregs' hl' (by intro hnil; cases hnil)) ?_ fun _ _ _ h => h.mono hx fun _ h => h
    · simpa [Nat.add_assoc] using hstop
    · rintro out w'' o ⟨hdone, hstops⟩
      have hpost (env' : Env F) (fr' : List (Value F))
          (hs : Sync ((Γ.after g.c.mode cs₁.fresh s).afters g.c.mode cs₁.fresh (s' :: rest)) cs₂ env'
            fr') : Sync (Γ.afters g.c.mode cs.fresh (s :: s' :: rest)) cs₂ env' fr' := by
        rw [hgr.fresh] at hs
        exact hs
      exact ⟨o, .refl o, hdone.mono hx hpost, hends ▸ hstops⟩
  | brk => exact Simulates.pure ⟨hd, fun _ => trivial⟩
  | cont => exact Simulates.pure ⟨hd, fun _ => trivial⟩
  | ret v =>
    simp only [Spot.Done, List.isEmpty_cons, hk] at hd
    split_ifs at hd with hm
    · simp at hd
    · obtain ⟨ha, hres⟩ := hd
      have hhalt : ∃ m, o = .inr (.ok v, m) ∧ m.vm.world = w' := by simpa using hres
      obtain ⟨m, rfl, hw⟩ := hhalt
      refine Simulates.pure ⟨?_, fun _ _ => ⟨_, rfl⟩⟩
      simp only [Spot.Done, if_neg hm]
      exact ⟨ha, .inl ⟨m, rfl, hw⟩⟩

/-! ## Branches of statements -/

/-- The kind of the blocks nested in a statement. -/
theorem nested_kind {c : Ctx} {fresh : Bool} (isLast : Bool) (h : c.Ok fresh) :
    (if c.keep isLast then BodyKind.keep else c.mode.nested).mode = c.mode.inner ∧
      (if c.keep isLast then BodyKind.keep else c.mode.nested).keeps = c.keep isLast ∧
      (if c.keep isLast then BodyKind.keep else c.mode.nested) ≠ .arm := by
  cases hk : c.keep isLast with
  | true =>
    simp only [Ctx.keep, Bool.and_eq_true] at hk
    exact ⟨(h.tail hk.1).1.symm, rfl, nofun⟩
  | false => cases c.mode <;> exact ⟨rfl, rfl, nofun⟩

theorem inner_ne_arm (mode : Mode) : mode.inner ≠ .arm := by
  cases mode <;> simp [Mode.inner]

omit [FloatModel F] in
theorem block_ok {kind : BodyKind} (hk : kind ≠ .arm) {cs : CState}
    {x : CState → Except String (Frag F × CState)} {r : Frag F × CState}
    (h : (kind.leave cs) <$> x (kind.enter cs) = .ok r) : x cs = .ok r := by
  obtain ⟨r', h₁, h₂⟩ := map_ok.1 h
  simp only [BodyKind.enter, hk, if_false] at h₁
  simp only [BodyKind.leave, hk, if_false] at h₂
  rw [h₁, h₂]

theorem else_none : ElseSim S p T (.none : ElseChain F) := by
  intro g d k code kind Γ cs cs' b frag env muts isLast last regs le w hr hc hkm hkk hka hok hcode
    hstop hctx hs hg hL hregs hl
  obtain ⟨rfl, rfl⟩ : unitIf kind.keeps = frag ∧ cs = cs' := by simpa [compileElse] using hc
  rw [hkk] at hcode hstop
  simp only [evalElse]
  refine keepLast_sim hcode hstop hctx (.refl _) hregs hl ?_
  exact hs.weaken (fun l hl => ⟨l, hl, fun _ hx => hx⟩) (by simp [Scope.afterElse, letsElse,
    loopVarsElse]) (by simp [Scope.afterElse, letsElse])

theorem else_else {body : List (Stmt F)} (hb : StmtsSim S p T body) :
    ElseSim S p T (.else_ body) := by
  intro g d k code kind Γ cs cs' b frag env muts isLast last regs le w hr hc hkm hkk hka hok hcode
    hstop hctx hs hg hL hregs hl
  simp only [compileElse] at hc
  have hc' := block_ok hka (x := fun cs => compileStmts S.tables kind body cs b) hc
  simp only [okElse, inner_ne_arm, if_false] at hok
  simp only [evalElse]
  refine block_sim hb hr hc' hkm hkk hok hcode hctx (.refl _) hs hg hL hregs hl
    (fun _ m => by rw [hstop]; exact .refl _) fun env' fr' hs' => ?_
  refine hs'.weaken (fun l hl => ⟨l, ?_, fun _ hx => hx⟩) (fun x hx => ?_) (fun x hx => ?_)
  · rw [afters_bound] at hl
    exact hl
  · simpa [Scope.afterElse, letsElse, loopVarsElse, or_assoc] using mem_afters_may.1 hx
  · simpa [Scope.afterElse, letsElse] using mem_afters_slots.1 hx

omit [FloatModel F] in
/-- From the end of a taken branch to the end of the chain, over the rest of its text. -/
theorem join_left {Γ Γ' : Scope} {cs cs' : CState} {env : Env F} {fr : List (Value F)}
    {mode : Mode} {body : List (Stmt F)} {lets : List String} {shares : Bool}
    {b : Option (List String)} (hs : Sync (Γ.afters mode cs.fresh body) cs env fr)
    (hg : Grows lets shares cs cs') (hsh : shares = false)
    (hb : Γ'.bound = meet (if cs.fresh then dropNames lets (flowStmts mode cs.fresh Γ body)
      else flowStmts mode cs.fresh Γ body) b)
    (hm : ∀ x, x ∈ Γ.may ∨ x ∈ letsStmts body ∨ x ∈ loopVarsStmts body → x ∈ Γ'.may)
    (hsl : ∀ x, (x ∈ Γ.slots ∨ x ∈ letsStmts body) ∨ x ∈ lets → x ∈ Γ'.slots) :
    Sync Γ' cs' env fr := by
  refine hs.join hg hsh (fun l hl => ?_) (fun x hx => hm x (mem_afters_may.1 hx)) fun x hx =>
    hsl x (hx.imp_left mem_afters_slots.1)
  rw [afters_bound] at hl
  obtain ⟨l₁, h₁, hsub₁⟩ := dropIf_some cs.fresh lets hl
  obtain ⟨l₂, h₂, hsub₂⟩ := meet_left (b := b) h₁
  exact ⟨l₂, hb.trans h₂, fun x hx => hsub₁ x (hsub₂ x hx)⟩

theorem else_elseIf {cnd : Expr F} {body : List (Stmt F)} {rest : ElseChain F}
    (hcnd : ExprSim S p T cnd) (hb : StmtsSim S p T body) (hrest : ElseSim S p T rest) :
    ElseSim S p T (.elseIf cnd body rest) := by
  intro g d k code kind Γ cs cs' b frag env muts isLast last regs le w hr hc hkm hkk hka hok hcode
    hstop hctx hs hg hL hregs hl
  simp only [compileElse, bind_ok, Except.ok.injEq, Prod.mk.injEq] at hc
  obtain ⟨⟨c₁, cs₁⟩, h₁, ⟨c₂, cs₂⟩, h₂', ⟨c₃, cs₃⟩, h₃, rfl, rfl⟩ := hc
  have h₂ := block_ok hka (x := fun cs => compileStmts S.tables kind body cs _) h₂'
  simp only [okElse, inner_ne_arm, if_false, Bool.and_eq_true] at hok
  simp only [ifShape, fill_append, fill_code, CodeAt.append_iff, List.length_append, length_fill,
    CodeAt.cons_iff, CodeAt.nil, and_true, List.length_cons, List.length_nil, Nat.zero_add,
    ← Nat.add_assoc] at hcode
  obtain ⟨⟨⟨⟨hc₁, hj⟩, hc₂⟩, hj'⟩, hc₃⟩ := hcode
  have hend : g.stop = b + c₁.length + 1 + c₂.length + 1 + c₃.length := by
    simp [ifShape] at hstop
    omega
  have g₁ := compileExpr_grows cnd h₁
  have hval : kind.mode.isValue = true → cs₁.fresh = true := fun hv => by
    rw [hkm, inner_isValue] at hv
    exact g₁.fresh.trans (hctx.fresh hv)
  have g₂ := compileStmts_grows kind body hval h₂
  have g₃ := compileElse_grows kind rest (fun hv _ => g₂.fresh.trans (hval hv)) h₃
  simp only [BodyKind.out, BodyKind.shares, hka, if_false] at g₃
  have hP : ∀ s, g.P s → s < cs.next := fun s => hg.lt
  have hsh := okStmts_shares hok.1.2
  have hsh' := okElse_shares hok.2
  have hctx₁ : g.c.Ok cs₁.fresh := g₁.fresh ▸ hctx
  simp only [evalElse]
  refine hcnd.cond hr h₁ hok.1.1 hc₁ hj hs hl (fun w' fr le' hx hs' hl' => ?_)
    (fun w' fr le' hx hs' hl' => ?_) fun _ _ _ h => h.mono (.refl _) hP
  · have hL₁ : g.L.Inside Γ cs₁ (letsStmts body) (loopVarsStmts body) :=
      (hL.grow hs g₁).sub (fun x hx => List.mem_append_left _ hx) fun x hx => List.mem_append_left _ hx
    refine block_sim hb hr h₂ hkm hkk (g₁.fresh ▸ hok.1.2) hc₂ hctx₁ (hx.mono hP) hs'
      (hg.grow g₁ rfl) hL₁ hregs hl' (fun _ m => ?_) fun env' fr' hs₂ => ?_
    · rw [hend]
      exact gets_jump hj'
    · rw [← g₂.fresh] at hs₂
      refine join_left (b := flowElse g.c.mode.inner cs.fresh (Γ.past cs.fresh (letsStmts body)) rest)
        hs₂ g₃ hsh' ?_ (fun x hx => ?_) fun x hx => ?_
      · rw [g₂.fresh, g₁.fresh]
        rfl
      · rcases hx with hx | hx | hx <;> simp [Scope.afterElse, letsElse, loopVarsElse, hx]
      · rcases hx with (hx | hx) | hx <;> simp [Scope.afterElse, letsElse, hx]
  · have hL₂ : g.L.Inside (Γ.past cs₁.fresh (letsStmts body)) cs₂ (letsElse rest) (loopVarsElse rest) :=
      ((hL.grow hs g₁).past hs' g₂ hsh fun x hx => List.mem_append_left _ hx).sub
        (fun x hx => List.mem_append_right _ hx) fun x hx => List.mem_append_right _ hx
    have hs₂ : Sync (Γ.past cs₁.fresh (letsStmts body)) cs₂ env fr :=
      hs'.join g₂ hsh (fun l hl => dropIf_some _ _ hl) (fun x hx => hx) fun x hx => by
        simpa [Scope.past] using hx
    have hf₂ : cs₂.fresh = cs.fresh := g₂.fresh.trans g₁.fresh
    rw [g₁.fresh] at hs₂ hL₂
    refine Simulates.post (hrest (g := { g with frame := fr }) hr h₃ hkm hkk hka (hf₂ ▸ hok.2) hc₃ hend
      (hf₂ ▸ hctx) hs₂ ((hg.grow g₁ rfl).grow g₂ rfl) hL₂ hregs hl') ?_
      fun _ _ _ h => h.mono (hx.mono hP) fun _ h => h
    intro out w'' o hdone
    refine ⟨o, .refl o, hdone.mono (hx.mono hP) fun env' fr' hs₃ => ?_⟩
    rw [hf₂] at hs₃
    refine hs₃.weaken (fun l hl => meet_right hl) (fun x hx => ?_) fun x hx => ?_
    · simp only [Scope.afterElse, Scope.past, letsElse, loopVarsElse, List.mem_append] at hx ⊢
      rcases hx with (hx | hx) | hx <;> simp [hx]
    · simp only [Scope.afterElse, Scope.past, letsElse, List.mem_append] at hx ⊢
      rcases hx with (hx | hx) | hx <;> simp [hx]

/-! ## Arms of a `match` statement -/

theorem arms_none : ArmsSim S p T (.none : MatchArms F) := by
  intro g d k code kind load Γ cs cs' b frag sv env muts isLast last regs le w hr hc hload hkm hkk hka
    hok hcode hstop hctx hs hg hL hregs hl
  obtain ⟨rfl, rfl⟩ : unitIf kind.keeps = frag ∧ cs = cs' := by simpa [compileArms] using hc
  rw [hkk] at hcode hstop
  simp only [evalArms]
  refine keepLast_sim hcode hstop hctx (.refl _) hregs hl ?_
  exact hs.weaken (fun l hl => ⟨l, hl, fun _ hx => hx⟩) (by simp [Scope.afterArms, letsArms,
    loopVarsArms]) (by simp [Scope.afterArms, letsArms])

theorem arms_else {body : List (Stmt F)} (hb : StmtsSim S p T body) :
    ArmsSim S p T (.else_ body) := by
  intro g d k code kind load Γ cs cs' b frag sv env muts isLast last regs le w hr hc hload hkm hkk hka
    hok hcode hstop hctx hs hg hL hregs hl
  simp only [compileArms] at hc
  have hc' := block_ok hka (x := fun cs => compileStmts S.tables kind body cs b) hc
  simp only [okArms, inner_ne_arm, if_false] at hok
  simp only [evalArms]
  refine block_sim hb hr hc' hkm hkk hok hcode hctx (.refl _) hs hg hL hregs hl
    (fun _ m => by rw [hstop]; exact .refl _) fun env' fr' hs' => ?_
  refine hs'.weaken (fun l hl => ⟨l, ?_, fun _ hx => hx⟩) (fun x hx => ?_) (fun x hx => ?_)
  · rw [afters_bound] at hl
    exact hl
  · simpa [Scope.afterArms, letsArms, loopVarsArms, or_assoc] using mem_afters_may.1 hx
  · simpa [Scope.afterArms, letsArms] using mem_afters_slots.1 hx

/-- The test of an arm is on the stack: its body, or the arms after it. -/
theorem arms_test {body : List (Stmt F)} {rest : MatchArms F} (hb : StmtsSim S p T body)
    (hrest : ArmsSim S p T rest) {g : Spot F} {d k : Nat} {code : List (Instr F)} {kind : BodyKind}
    {load : Instr F} {Γ Γ' : Scope} {cs cs₂ cs₃ : CState} {b : Nat} {c₂ c₃ : Frag F} {sv : Value F}
    {env : Env F} {muts : List String} {isLast t : Bool} {last : Value F} {regs : List (Value F)}
    {le : LabelEnv} {w : W} (hr : Runs S g.X d k)
    (h₂ : compileStmts S.tables kind body cs (b + 1) = .ok (c₂, cs₂))
    (h₃ : compileArms S.tables kind load rest cs₂ (b + 1 + c₂.length + 1) = .ok (c₃, cs₃))
    (hload : Loads S d code g.X g.frame load sv)
    (hkm : kind.mode = g.c.mode.inner) (hkk : kind.keeps = g.c.keep isLast) (hka : kind ≠ .arm)
    (hok₂ : okStmts p k g.c.mode.inner cs.fresh Γ body = true)
    (hok₃ : okArms p k g.c.mode.inner cs.fresh (Γ.past cs.fresh (letsStmts body)) rest = true)
    (hj : code[b]? = some (.jumpIfNot (b + 1 + c₂.length + 1)))
    (hc₂ : CodeAt code (b + 1) (fill g.brk g.cont c₂))
    (hj' : code[b + 1 + c₂.length]? = some (.jump g.stop))
    (hc₃ : CodeAt code (b + 1 + c₂.length + 1) (fill g.brk g.cont c₃))
    (hstop : g.stop = b + 1 + c₂.length + 1 + c₃.length) (hctx : g.c.Ok cs.fresh)
    (hs : Sync Γ cs env g.frame) (hg : Guard g.P Γ cs)
    (hL : g.L.Inside Γ cs (letsStmts body ++ letsArms rest) (loopVarsStmts body ++ loopVarsArms rest))
    (hregs : Regs g.c.mode g.rs g.stale last regs) (hl : LabelsIn T le)
    (hΓ : Γ' = Γ.afterArms g.c.mode.inner cs.fresh (.lit (.exact "") body rest)) :
    Simulates (S.machine d code) (Clean g.c)
      (if t then evalBlock isLast last (evalStmts S.walk body .unit env muts)
        else evalArms S.walk rest sv isLast last env muts) w
      (.inl (b, g.X.mach (g.frame ++ [Value.bool t]) regs le w))
      (g.Done T isLast fun env' fr' => Sync Γ' cs₃ env' fr')
      (Fails T g.X g.P g.c.st g.frame) := by
  subst hΓ
  have hval : kind.mode.isValue = true → cs.fresh = true := fun hv => by
    rw [hkm, inner_isValue] at hv
    exact hctx.fresh hv
  have g₂ := compileStmts_grows kind body hval h₂
  have g₃ := compileArms_grows kind load rest (fun hv _ => g₂.fresh.trans (hval hv)) h₃
  simp only [BodyKind.out, BodyKind.shares, hka, if_false] at g₃
  have hsh := okStmts_shares hok₂
  have hsh' := okArms_shares hok₃
  refine Simulates.pre (gets_jumpIfNot hj) ?_
  cases t with
  | true =>
    have hL₁ : g.L.Inside Γ cs (letsStmts body) (loopVarsStmts body) :=
      hL.sub (fun x hx => List.mem_append_left _ hx) fun x hx => List.mem_append_left _ hx
    refine block_sim hb hr h₂ hkm hkk hok₂ hc₂ hctx (.refl _) hs hg hL₁ hregs hl
      (fun _ m => gets_jump hj') fun env' fr' hs₂ => ?_
    rw [← g₂.fresh] at hs₂
    refine join_left (b := flowArms g.c.mode.inner cs.fresh (Γ.past cs.fresh (letsStmts body)) rest)
      hs₂ g₃ hsh' ?_ (fun x hx => ?_) fun x hx => ?_
    · rw [g₂.fresh]
      rfl
    · rcases hx with hx | hx | hx <;> simp [Scope.afterArms, letsArms, loopVarsArms, hx]
    · rcases hx with (hx | hx) | hx <;> simp [Scope.afterArms, letsArms, hx]
  | false =>
    have hL₂ : g.L.Inside (Γ.past cs.fresh (letsStmts body)) cs₂ (letsArms rest) (loopVarsArms rest) :=
      (hL.past hs g₂ hsh fun x hx => List.mem_append_left _ hx).sub
        (fun x hx => List.mem_append_right _ hx) fun x hx => List.mem_append_right _ hx
    have hs₂ : Sync (Γ.past cs.fresh (letsStmts body)) cs₂ env g.frame :=
      hs.join g₂ hsh (fun l hl => dropIf_some _ _ hl) (fun x hx => hx) fun x hx => by
        simpa [Scope.past] using hx
    refine Simulates.post (hrest hr h₃ hload hkm hkk hka (g₂.fresh ▸ hok₃) hc₃ hstop
      (g₂.fresh ▸ hctx) hs₂ (hg.grow g₂ rfl) hL₂ hregs hl) ?_ fun _ _ _ h => h
    intro out w'' o hdone
    refine ⟨o, .refl o, Spot.Done.mono hdone (.refl _) fun env' fr' hs₃ => ?_⟩
    rw [g₂.fresh] at hs₃
    refine hs₃.weaken (fun l hl => meet_right hl) (fun x hx => ?_) fun x hx => ?_
    · simp only [Scope.afterArms, Scope.past, letsArms, loopVarsArms, List.mem_append] at hx ⊢
      rcases hx with (hx | hx) | hx <;> simp [hx]
    · simp only [Scope.afterArms, Scope.past, letsArms, List.mem_append] at hx ⊢
      rcases hx with (hx | hx) | hx <;> simp [hx]

theorem arms_lit {test : LitTest} {body : List (Stmt F)} {rest : MatchArms F}
    (hb : StmtsSim S p T body) (hrest : ArmsSim S p T rest) : ArmsSim S p T (.lit test body rest) := by
  intro g d k code kind load Γ cs cs' b frag sv env muts isLast last regs le w hr hc hload hkm hkk hka
    hok hcode hstop hctx hs hg hL hregs hl
  simp only [compileArms, bind_ok, Except.ok.injEq, Prod.mk.injEq] at hc
  obtain ⟨⟨c₂, cs₂⟩, h₂', ⟨c₃, cs₃⟩, h₃, rfl, rfl⟩ := hc
  have h₂ := block_ok hka (x := fun cs => compileStmts S.tables kind body cs _) h₂'
  simp only [okArms, inner_ne_arm, if_false, Bool.and_eq_true] at hok
  simp only [armShape, fill_append, fill_code, List.append_nil, CodeAt.append_iff,
    List.length_append, length_fill, CodeAt.cons_iff, CodeAt.nil, and_true, List.length_cons,
    List.length_nil, Nat.zero_add, Nat.add_zero, ← Nat.add_assoc] at hcode
  obtain ⟨⟨⟨⟨hld, htest, hj⟩, hc₂⟩, hj'⟩, hc₃⟩ := hcode
  have hend : g.stop = b + 1 + 2 + c₂.length + 1 + c₃.length := by
    simp [armShape] at hstop
    omega
  simp only [evalArms]
  refine Simulates.pre ((hload hld).trans (gets_matchLit htest)) ?_
  exact arms_test hb hrest hr h₂ h₃ hload hkm hkk hka hok.1 hok.2 hj hc₂ (hend ▸ hj') hc₃ hend hctx hs
    hg hL hregs hl rfl

theorem arms_compare {op : CompareOp} {th : Expr F} {body : List (Stmt F)} {rest : MatchArms F}
    (hth : ExprSim S p T th) (hb : StmtsSim S p T body) (hrest : ArmsSim S p T rest) :
    ArmsSim S p T (.compare op th body rest) := by
  intro g d k code kind load Γ cs cs' b frag sv env muts isLast last regs le w hr hc hload hkm hkk hka
    hok hcode hstop hctx hs hg hL hregs hl
  simp only [compileArms, bind_ok, Except.ok.injEq, Prod.mk.injEq] at hc
  obtain ⟨⟨c₁, cs₁⟩, h₁, ⟨c₂, cs₂⟩, h₂', ⟨c₃, cs₃⟩, h₃, rfl, rfl⟩ := hc
  have h₂ := block_ok hka (x := fun cs => compileStmts S.tables kind body cs _) h₂'
  simp only [okArms, inner_ne_arm, if_false, Bool.and_eq_true] at hok
  simp only [armShape, fill_append, fill_code, CodeAt.append_iff, List.length_append, length_fill,
    CodeAt.cons_iff, CodeAt.nil, and_true, List.length_cons, List.length_nil, Nat.zero_add,
    ← Nat.add_assoc] at hcode
  obtain ⟨⟨⟨⟨⟨hld, hc₁⟩, htest, hj⟩, hc₂⟩, hj'⟩, hc₃⟩ := hcode
  have hend : g.stop = b + 1 + c₁.length + 2 + c₂.length + 1 + c₃.length := by
    simp [armShape] at hstop
    omega
  have g₁ := compileExpr_grows th h₁
  have hP : ∀ s, g.P s → s < cs.next := fun s => hg.lt
  simp only [evalArms]
  refine Simulates.pre (hload hld) ?_
  refine hth.pend hr h₁ hok.1.1 hc₁ hs.append hl (fun tv w' le' hl' => ?_) fun _ _ _ h =>
    h.cut (.refl _) hP fun _ => rfl
  refine Simulates.pre (gets_matchCompare htest) ?_
  have hs₁ : Sync Γ cs₁ env g.frame := hs.grow g₁ (Ext.refl g.frame : Ext _ false g.frame g.frame)
  refine arms_test hb hrest hr h₂ h₃ hload hkm hkk hka (g₁.fresh ▸ hok.1.2) (g₁.fresh ▸ hok.2) hj hc₂
    (hend ▸ hj') hc₃ hend (g₁.fresh ▸ hctx) hs₁ (hg.grow g₁ rfl) (hL.grow hs g₁) hregs hl' ?_
  rw [g₁.fresh]
  rfl

end Metalogos.Refine
