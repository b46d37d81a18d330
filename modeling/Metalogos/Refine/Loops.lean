import Metalogos.Refine.Stmts

/-!
# Simulation of loops

A round of a loop runs the body with the loop's own targets for `break` and `continue`
(`round_sim`); at the head the machine finds again what `Base.head` says, whichever signal ended the
round. `while` is then an induction on the iterations left, `each` one on the items left, with the
list and the counter in two hidden cells that no statement of the body writes.
-/
namespace Metalogos.Refine

open Metalogos.Lang Metalogos.Machine Metalogos.Compile Metalogos.Walk Metalogos.Lib

variable {F W : Type} [FloatModel F]

variable {S : Setup F W} {p : Policy F} {T : List String}

/-! ## One round -/

/-- How a round ends: at the next one, behind the loop, or with the body's result. -/
def Spot.Round (g : Spot F) (T : List String) (out : Outcome F) (w : W) (o : Place F W) : Prop :=
  match out.1 with
  | .brk => g.Leaves T g.brk out.2.1 w o
  | .ret v => g.c.inArm = false ∧ ∃ m, o = .inr (.ok v, m) ∧ m.vm.world = w
  | _ => g.Leaves T g.cont out.2.1 w o

theorem round_sim {body : List (Stmt F)} (hb : StmtsSim S p T body) {g : Spot F} {d k : Nat}
    {code : List (Instr F)} {Γ : Scope} {cs cs' : CState} {b : Nat} {frag : Frag F} {env : Env F}
    {muts : List String} {le : LabelEnv} {w : W} (hm : g.c.mode = .plain true)
    (ht : g.c.tail = false) (hr : Runs S g.X d k)
    (hc : compileStmts S.tables (.plain true) body cs b = .ok (frag, cs'))
    (hok : okStmts p k (.plain true) cs.fresh Γ body = true)
    (hcode : CodeAt code b (fill g.brk g.cont frag)) (hstop : g.stop = b + frag.length)
    (hs : Sync Γ cs env g.frame) (hg : Guard g.P Γ cs)
    (hL : g.L.Inside Γ cs (letsStmts body) (loopVarsStmts body)) (hl : LabelsIn T le)
    (hj : ∀ m, (S.machine d code).Gets (.inl (g.stop, m)) (.inl (g.cont, m))) :
    Simulates (S.machine d code) (Clean g.c) (evalStmts S.walk body .unit env muts) w
      (.inl (b, g.X.mach g.frame g.rs le w)) (g.Round T) (Fails T g.X g.P g.c.st g.frame) := by
  have hctx : g.c.Ok cs.fresh := ⟨by simp [hm, Mode.isValue], by simp [ht], by simp [hm]⟩
  have hkeep (l : Bool) : g.c.keep l = false := by simp [Ctx.keep, ht]
  have hregs : Regs g.c.mode g.rs .unit .unit g.rs := by simp [Regs, hm, Mode.isValue]
  have hgr := compileStmts_grows (.plain true) body (by intro hmode; cases hmode) hc
  refine Simulates.post (hb (g := { g with stale := .unit }) hr hc hm.symm ht.symm (by rwa [hm]) hcode
    hstop hctx hs hg hL hregs hl fun _ => rfl) ?_ fun _ _ _ h => h
  rintro ⟨sig, env', muts'⟩ w' o ⟨hdone, -⟩
  cases sig with
  | normal v =>
    simp only [Spot.Done, hkeep, Bool.false_eq_true, if_false] at hdone
    obtain ⟨fr, regs, le', rfl, hx, hregs', hl', hs'⟩ := hdone
    obtain rfl := regs_mode hregs' (by simp [hm, Mode.isValue])
    have hin := hL.afters g.c.mode hs hgr (okStmts_shares hok) (by simp [hm, Mode.isValue])
    exact ⟨_, hj _, hm, fr, le', rfl, hx, hl', hin.holds hs'⟩
  | brk => exact ⟨o, .refl o, hdone⟩
  | cont => exact ⟨o, .refl o, hdone⟩
  | ret v =>
    have hne : g.c.mode ≠ .arm := by simp [hm]
    simp only [Spot.Done, if_neg hne, hkeep] at hdone
    obtain ⟨ha, hres⟩ := hdone
    exact ⟨o, .refl o, ha, by simpa using hres⟩

/-! ## The end of a loop -/

/-- A loop ends behind its text, without a value, or with the body's result. -/
def Spot.Ends (g : Spot F) (T : List String) (after : Nat) (regs : List (Value F))
    (post : Env F → List (Value F) → Prop) (out : Outcome F) (w : W) (o : Place F W) : Prop :=
  match out.1 with
  | .normal v => v = .unit ∧ ∃ frame le, o = .inl (after, g.X.mach frame regs le w) ∧
      Ext g.P g.c.st g.frame frame ∧ LabelsIn T le ∧ post out.2.1 frame
  | .ret v => g.c.inArm = false ∧ ∃ m, o = .inr (.ok v, m) ∧ m.vm.world = w
  | _ => False

theorem ends_sim {g : Spot F} {d : Nat} {code : List (Instr F)} {fresh isLast : Bool}
    {last : Value F} {regs : List (Value F)} {after : Nat} {post : Env F → List (Value F) → Prop}
    {x : TW F W (Outcome F)} {w : W} {o : Place F W} {E : String → W → Place F W → Prop}
    (hu : CodeAt code after (fill g.brk g.cont (unitIf (g.c.keep isLast))))
    (hstop : g.stop = after + (unitIf (g.c.keep isLast) : Frag F).length) (hctx : g.c.Ok fresh)
    (hregs : Regs g.c.mode g.rs g.stale last regs) (hreset : g.c.mode.isValue = true → last = .unit)
    (h : Simulates (S.machine d code) (Clean g.c) x w o (g.Ends T after regs post) E) :
    Simulates (S.machine d code) (Clean g.c) x w o (g.Done T isLast post) E := by
  refine Simulates.post h ?_ fun _ _ _ h => h
  rintro ⟨sig, env, muts⟩ w' o hends
  cases sig with
  | normal v =>
    obtain ⟨rfl, fr, le, rfl, hx, hl, hpost⟩ := hends
    have hend : Simulates (S.machine d code) (Clean g.c)
        (pure (.normal .unit, env, muts) : TW F W (Outcome F)) w'
        (.inl (after, g.X.mach fr regs le w')) (g.Done T isLast post) fun _ _ _ => True :=
      finish_sim hu hstop hctx hx (hregs.reset hreset) (fun _ _ => rfl) hl hpost
    exact hend.gets
  | ret v =>
    obtain ⟨ha, hres⟩ := hends
    have hne : g.c.mode ≠ .arm := by
      intro hm
      rw [hctx.arm hm] at ha
      cases ha
    refine ⟨o, .refl o, ?_⟩
    simp only [Spot.Done, if_neg hne]
    exact ⟨ha, .inl hres⟩
  | brk => exact hends.elim
  | cont => exact hends.elim

/-! ## `while` -/

section

variable {g : Spot F} {d k : Nat} {code : List (Instr F)} {Γ : Scope} {cs cs₁ cs₂ : CState} {b : Nat}
  {c₁ c₂ : Frag F} {cnd : Expr F} {body : List (Stmt F)} {regs : List (Value F)}

omit [FloatModel F] in
theorem loop_bound {fresh : Bool} {l : List String} {x : String}
    (h : (Γ.loop fresh body).bound = some l) (hx : x ∈ l) :
    x ∉ loopVarsStmts body ∧ (fresh = true → x ∉ letsStmts body) := by
  obtain ⟨l₀, -, rfl⟩ := Option.map_eq_some_iff.1 h
  simp only [List.mem_filter, decide_eq_true_eq, clobStmts, List.mem_append, not_or] at hx
  refine ⟨hx.2.1, ?_⟩
  rintro rfl
  simpa using hx.2.2

omit [FloatModel F] in
/-- From the head to behind the loop, over the text of the body. -/
theorem Sync.afterWhile {mode : Mode} {env : Env F} {frame : List (Value F)} {lets : List String}
    {shares : Bool} {cs cs' : CState}
    (hs : Sync (Γ.loop cs.fresh body) cs env frame) (hg : Grows lets shares cs cs')
    (hl : lets = letsStmts body) (hsh : shares = false) :
    Sync (Γ.after mode cs.fresh (.while_ cnd body)) cs' env frame := by
  subst hl
  refine hs.join hg hsh (fun l hl => ⟨l, hl, fun x hx => ⟨hx, ?_⟩⟩) (fun x hx => hx) fun x hx => ?_
  · exact (loop_bound hl hx).2
  · simpa [Scope.after, Scope.loop, letsStmt] using hx

theorem while_loop (hcnd : ExprSim S p T cnd) (hb : StmtsSim S p T body) (hr : Runs S g.X d k)
    (h₁ : compileExpr S.tables cnd cs b = .ok (c₁, cs₁))
    (h₂ : compileStmts S.tables (.plain true) body cs₁ (b + c₁.length + 1) = .ok (c₂, cs₂))
    (hok₁ : okExpr p k (Γ.loop cs.fresh body) cnd = true)
    (hok₂ : okStmts p k (.plain true) cs.fresh (Γ.loop cs.fresh body) body = true)
    (hc₁ : CodeAt code b (fill g.brk g.cont c₁))
    (hj : code[b + c₁.length]? = some (.jumpIfNotCond (b + c₁.length + 1 + c₂.length + 1)))
    (hc₂ : CodeAt code (b + c₁.length + 1) (fill (b + c₁.length + 1 + c₂.length + 1) b c₂))
    (hj' : code[b + c₁.length + 1 + c₂.length]? = some (.jump b)) (hg : Guard g.P Γ cs) :
    ∀ (n : Nat) {env : Env F} {muts : List String} {frame : List (Value F)} {le : LabelEnv} {w : W},
      Ext g.P g.c.st g.frame frame → Sync (Γ.loop cs.fresh body) cs env frame → LabelsIn T le →
      Simulates (S.machine d code) (Clean g.c)
        (whileLoop S.walk (fun env => evalExpr S.walk cnd env)
          (fun env muts => evalStmts S.walk body .unit env muts) n env muts) w
        (.inl (b, g.X.mach frame regs le w))
        (g.Ends T (b + c₁.length + 1 + c₂.length + 1) regs fun env' frame' =>
          Sync (Γ.after g.c.mode cs.fresh (.while_ cnd body)) cs₂ env' frame')
        (Fails T g.X g.P g.c.st g.frame) := by
  have g₁ := compileExpr_grows cnd h₁
  have g₂ := compileStmts_grows (.plain true) body nofun h₂
  have hsh := okStmts_shares hok₂
  have hP (s : Nat) (h : g.P s) : s < cs.next := hg.lt h
  intro n
  induction n with
  | zero =>
    intro env muts frame le w _ _ _
    simp only [whileLoop]
    exact Simulates.tell fun h => h.elim
  | succ n ih =>
    intro env muts frame le w hx hs hl
    simp only [whileLoop]
    refine hcnd.cond hr h₁ hok₁ hc₁ hj hs hl (fun w' fr le' hx' hs' hl' => ?_)
      (fun w' fr le' hx' hs' hl' => ?_) fun _ _ _ h => h.mono hx hP
    · have hxr := hx.trans (hx'.mono hP)
      have hin : (Base.head (Γ.loop cs.fresh body) cs).Inside (Γ.loop cs.fresh body) cs₁
          (letsStmts body) (loopVarsStmts body) := by
        obtain ⟨names, hnames, -⟩ := hs.live
        refine ⟨fun hx l hl => by simpa [Base.head, hl] using hx, fun _ => g₁.old (by simp), ?_, ?_, ?_⟩
        · intro x hx
          simp only [Base.head, Scope.loop, List.mem_append] at hx ⊢
          tauto
        · intro x hx
          exact (loop_bound hnames (by simpa [Base.head, hnames] using hx)).1
        · intro x hf hx
          exact (loop_bound hnames (by simpa [Base.head, hnames] using hx)).2 (g₁.fresh ▸ hf)
      refine Simulates.bind (Simulates.wrap (round_sim hb
        (g := ⟨g.X, g.P, g.c.loop, fr, regs, .unit, b + c₁.length + 1 + c₂.length,
          b + c₁.length + 1 + c₂.length + 1, b, Base.head (Γ.loop cs.fresh body) cs⟩)
        rfl rfl hr h₂ (g₁.fresh ▸ hok₂) hc₂ rfl hs' ((hg.grow g₁ rfl)) hin hl' fun m => gets_jump hj')) ?_
        fun _ _ _ h => h.mono hxr fun _ h => h
      rintro ⟨sig, env', muts'⟩ w'' o hround
      have again (hL : Spot.Leaves ⟨g.X, g.P, g.c.loop, fr, regs, .unit, b + c₁.length + 1 + c₂.length,
          b + c₁.length + 1 + c₂.length + 1, b, Base.head (Γ.loop cs.fresh body) cs⟩ T b env' w'' o) :
          Simulates (S.machine d code) (Clean g.c)
            (whileLoop S.walk (fun env => evalExpr S.walk cnd env)
              (fun env muts => evalStmts S.walk body .unit env muts) n env' muts') w'' o
            (g.Ends T (b + c₁.length + 1 + c₂.length + 1) regs fun env' frame' =>
              Sync (Γ.after g.c.mode cs.fresh (.while_ cnd body)) cs₂ env' frame')
            (Fails T g.X g.P g.c.st g.frame) := by
        obtain ⟨-, fr', le'', rfl, hx'', hl'', hbase⟩ := hL
        exact ih (hxr.trans hx'') (hs.of_head hbase) hl''
      cases sig with
      | normal v => exact again hround
      | cont => exact again hround
      | brk =>
        obtain ⟨-, fr', le'', rfl, hx'', hl'', hbase⟩ := hround
        refine Simulates.pure ⟨rfl, fr', le'', rfl, hxr.trans hx'', hl'', ?_⟩
        exact (hs.of_head hbase).afterWhile (g₁.trans g₂) rfl (by simpa using hsh)
      | ret v => exact Simulates.pure hround
    · refine Simulates.pure ⟨rfl, fr, le', rfl, hx.trans (hx'.mono hP), hl', ?_⟩
      rw [← g₁.fresh] at hs'
      have hend : Sync (Γ.after g.c.mode cs₁.fresh (.while_ cnd body)) cs₂ env fr :=
        hs'.afterWhile g₂ rfl hsh
      rwa [g₁.fresh] at hend

end

theorem while_sim {cnd : Expr F} {body : List (Stmt F)} (hcnd : ExprSim S p T cnd)
    (hb : StmtsSim S p T body) : StmtSim S p T (.while_ cnd body) := by
  intro g d k code Γ cs cs' b frag env muts isLast last regs le w hr hc hok hcode hstop hctx hs hg hL
    hregs hl
  simp only [compileStmt, bind_ok, Except.ok.injEq, Prod.mk.injEq] at hc
  obtain ⟨⟨c₁, cs₁⟩, h₁, ⟨c₂, cs₂⟩, h₂, rfl, rfl⟩ := hc
  simp only [okStmt, Bool.and_eq_true] at hok
  simp only [whileShape, fill_append, fill_code, fill_resolve, CodeAt.append_iff, length_fill,
    CodeAt.cons_iff, CodeAt.nil, and_true, List.length_append, List.length_cons, List.length_nil,
    Nat.zero_add, ← Nat.add_assoc] at hcode
  obtain ⟨⟨⟨⟨hc₁, hj⟩, hc₂⟩, hj'⟩, hu⟩ := hcode
  simp only [evalStmt]
  refine Simulates.noStop (Simulates.tell fun hreset => ?_)
  refine ends_sim hu ?_ hctx hregs hreset
    (while_loop hcnd hb hr h₁ h₂ hok.1 hok.2 hc₁ hj hc₂ hj' hg _ (.refl _) ?_ hl)
  · simp only [hstop, whileShape, List.length_append, length_code, length_resolve, List.length_cons,
      List.length_nil]
    omega
  · refine hs.weaken (fun l hl => ⟨l.filter (· ∉ clobStmts cs.fresh body), ?_, fun x hx => ?_⟩)
      (fun x hx => ?_) fun x hx => hx
    · simp [Scope.loop, dropNames, hl]
    · exact (List.mem_filter.1 hx).1
    · simp only [Scope.loop, List.mem_append]
      exact .inl (.inl hx)

/-! ## `each` -/

/-- The scope of the body of an `each`. -/
def Scope.eachBody (Γ : Scope) (index : Option String) (x : String) : Scope :=
  match index with
  | none => Γ.bindItem x
  | some i => (Γ.bindItem x).bindIndex i

/-- The scope at its head, whichever item is next. -/
def Scope.eachHead (Γ : Scope) (fresh : Bool) (index : Option String) (x : String)
    (body : List (Stmt F)) : Scope where
  bound := dropNames (index.toList ++ x :: clobStmts fresh body) Γ.bound
  may := ((Γ.loop fresh body).eachBody index x).may
  slots := Γ.slots
  prot := Γ.prot

/-- How an `each` binds its item and its index. -/
def eachBind (index : Option String) (x : String) : Nat → Value F → Env F → Env F :=
  match index with
  | none => bindItem x
  | some i => bindIndexItem i x

section

variable {Γ : Scope} {index : Option String} {x y : String} {n : Nat} {v : Value F} {env : Env F}
  {cs : CState} {idx item : Nat}

theorem eachBody_bound : (Γ.eachBody index x).bound = Γ.bound.map (index.toList ++ x :: ·) := by
  cases index with
  | none => rfl
  | some i => cases h : Γ.bound <;> simp [Scope.eachBody, Scope.bindItem, Scope.bindIndex, h]

theorem eachBody_may : (Γ.eachBody index x).may = index.toList ++ x :: Γ.may := by
  cases index <;> rfl

theorem eachBody_slots : (Γ.eachBody index x).slots = index.toList ++ x :: Γ.slots := by
  cases index <;> rfl

theorem eachBody_prot : (Γ.eachBody index x).prot = index.toList ++ Γ.prot.filter (· ≠ x) := by
  cases index <;> rfl

theorem eachBind_item : (eachBind index x n v env) x = some v := by
  cases index <;> simp [eachBind, bindItem, bindIndexItem, Env.set]

theorem eachBind_index (h : index = some y) (hne : index ≠ some x) :
    (eachBind index x n v env) y = some (.float (FloatModel.ofNat n)) := by
  subst h
  have hyx : y ≠ x := fun e => hne (by rw [e])
  simp [eachBind, bindIndexItem, Env.set, hyx]

theorem eachBind_other (hx : y ≠ x) (hi : index ≠ some y) : (eachBind index x n v env) y = env y := by
  cases index with
  | none => simp [eachBind, bindItem, Env.set, hx]
  | some i =>
    have hyi : y ≠ i := fun e => hi (by rw [e])
    simp [eachBind, bindIndexItem, Env.set, hx, hyi]

theorem bindEach_item (hne : index ≠ some x) : (cs.bindEach index x idx item).locals x = some item := by
  cases index with
  | none => simp [CState.bindEach, CState.setLocal]
  | some i =>
    have hxi : x ≠ i := fun e => hne (by rw [e])
    simp [CState.bindEach, CState.setLocal, hxi]

theorem bindEach_index (h : index = some y) : (cs.bindEach index x idx item).locals y = some idx := by
  subst h
  simp [CState.bindEach, CState.setLocal]

theorem bindEach_other (hx : y ≠ x) (hi : index ≠ some y) :
    (cs.bindEach index x idx item).locals y = cs.locals y := by
  cases index with
  | none => simp [CState.bindEach, CState.setLocal, hx]
  | some i =>
    have hyi : y ≠ i := fun e => hi (by rw [e])
    simp [CState.bindEach, CState.setLocal, hx, hyi]

end

section

variable {Γ : Scope} {index : Option String} {x : String} {body : List (Stmt F)} {cs cs₁ : CState}
  {env : Env F} {frame : List (Value F)}

omit [FloatModel F] in
/-- The names at the head keep their slots in the body. -/
theorem eachHead_other {y : String} {l : List String} {fresh : Bool}
    (hb : (Γ.eachHead fresh index x body).bound = some l) (hy : y ∈ l) :
    y ≠ x ∧ index ≠ some y ∧ y ∉ clobStmts fresh body := by
  obtain ⟨l₀, -, rfl⟩ := Option.map_eq_some_iff.1 hb
  simp only [List.mem_filter, List.mem_append, List.mem_cons, Option.mem_toList, not_or,
    decide_eq_true_eq] at hy
  exact ⟨hy.2.2.1, hy.2.1, hy.2.2.2⟩

/-- From the head into the body: item and index are bound on both sides. -/
theorem Sync.eachBody {n : Nat} {v : Value F} {fresh : Bool}
    (hs : Sync (Γ.eachHead fresh index x body) cs env frame)
    (h₁ : Grows [] false { cs with next := cs.next + 3 } cs₁) (hne : index ≠ some x)
    (hidx : frame[cs.next + 1]? = some (.float (FloatModel.ofNat n))) :
    Sync ((Γ.loop fresh body).eachBody index x) (cs₁.bindEach index x (cs.next + 1) (cs.next + 2))
      (eachBind index x n v env) (writeAt frame (cs.next + 2) v) where
  live := by
    obtain ⟨l, hl, hn⟩ := hs.live
    obtain ⟨l₀, hl₀, rfl⟩ := Option.map_eq_some_iff.1 hl
    refine ⟨index.toList ++ x :: l₀.filter (· ∉ clobStmts fresh body), ?_, fun y hy => ?_⟩
    · simp [eachBody_bound, Scope.loop, dropNames, hl₀]
    · by_cases hyx : y = x
      · subst hyx
        exact ⟨_, v, bindEach_item hne, eachBind_item, writeAt_self⟩
      by_cases hyi : index = some y
      · refine ⟨_, _, bindEach_index hyi, eachBind_index hyi hne, ?_⟩
        obtain ⟨hlt, -⟩ := List.getElem?_eq_some_iff.1 hidx
        rw [writeAt_ne (by omega) hlt, hidx]
      · have hy₀ : y ∈ l₀ ∧ y ∉ clobStmts fresh body := by
          simpa [hyx, hyi] using hy
        obtain ⟨s, u, h1, h2, h3⟩ := hn y (by simp [hy₀, hyx, hyi])
        obtain ⟨hlt, -⟩ := List.getElem?_eq_some_iff.1 h3
        have hslt := hs.ok.lt h1
        refine ⟨s, u, ?_, by rw [eachBind_other hyx hyi, h2], by rw [writeAt_ne (by omega) hlt, h3]⟩
        rw [bindEach_other hyx hyi, h₁.old (by simp)]
        exact h1
  may {y u} hy := by
    rw [eachBody_may]
    simp only [List.mem_append, List.mem_cons, Option.mem_toList]
    by_cases hyx : y = x
    · exact .inr (.inl hyx)
    by_cases hyi : index = some y
    · exact .inl hyi
    · rw [eachBind_other hyx hyi] at hy
      have hm := hs.may hy
      simp only [Scope.eachHead, eachBody_may, List.mem_append, List.mem_cons,
        Option.mem_toList] at hm
      exact hm
  slots {y s} hy := by
    rw [eachBody_slots]
    simp only [List.mem_append, List.mem_cons, Option.mem_toList]
    by_cases hyx : y = x
    · exact .inr (.inl hyx)
    by_cases hyi : index = some y
    · exact .inl hyi
    · rw [bindEach_other hyx hyi, h₁.old (by simp)] at hy
      exact .inr (.inr (hs.slots hy))
  ok := by
    refine Grows.bindEach_ok (h₁.ok ((Grows.reserve cs 3).ok hs.ok)) h₁.next fun {z s} hz => ?_
    rw [h₁.old (by simp)] at hz
    exact hs.ok.lt hz

omit [FloatModel F] in
/-- The list and the counter are protected in the body. -/
theorem Guard.eachBody {P : Nat → Prop} {fresh : Bool} (hg : Guard P Γ cs) (hk : cs.Ok)
    (h₁ : Grows [] false { cs with next := cs.next + 3 } cs₁) (hne : index ≠ some x) :
    Guard (fun s => P s ∨ s = cs.next ∨ s = cs.next + 1) ((Γ.loop fresh body).eachBody index x)
      (cs₁.bindEach index x (cs.next + 1) (cs.next + 2)) where
  prot {y s} hy hP := by
    rw [eachBody_prot]
    simp only [List.mem_append, List.mem_filter, Option.mem_toList, decide_eq_true_eq]
    by_cases hyx : y = x
    · subst hyx
      rw [bindEach_item hne] at hy
      have hs : cs.next + 2 = s := Option.some.inj hy
      rcases hP with hP | hP
      · have := hg.lt hP
        omega
      · omega
    by_cases hyi : index = some y
    · exact .inl hyi
    · rw [bindEach_other hyx hyi, h₁.old (by simp)] at hy
      have hlt := hk.lt hy
      refine .inr ⟨hg.prot hy ?_, hyx⟩
      exact hP.resolve_right (by omega)
  lt {s} hP := by
    have hn : (cs₁.bindEach index x (cs.next + 1) (cs.next + 2)).next = cs₁.next := by
      cases index <;> rfl
    have := h₁.next
    simp only at this
    rw [hn]
    rcases hP with hP | hP
    · have := hg.lt hP
      omega
    · omega

omit [FloatModel F] in
theorem Base.Inside.eachBody {fresh : Bool} {names : List String}
    (h₁ : Grows [] false { cs with next := cs.next + 3 } cs₁) (hfresh : cs₁.fresh = fresh)
    (hb : (Γ.eachHead fresh index x body).bound = some names) :
    (Base.head (Γ.eachHead fresh index x body) cs).Inside ((Γ.loop fresh body).eachBody index x)
      (cs₁.bindEach index x (cs.next + 1) (cs.next + 2)) (letsStmts body) (loopVarsStmts body) := by
  have hmem {y : String} (hy : y ∈ (Base.head (Γ.eachHead fresh index x body) cs).bound) : y ∈ names := by
    simpa [Base.head, hb] using hy
  have hf : (cs₁.bindEach index x (cs.next + 1) (cs.next + 2)).fresh = fresh := by
    cases index <;> exact hfresh
  refine ⟨fun {y} hy l hl => ?_, fun {y} hy => ?_, fun {y} hy => ?_, fun {y} hy => ?_,
    fun {y} hfr hy => ?_⟩
  · obtain ⟨-, -, hclob⟩ := eachHead_other hb (hmem hy)
    obtain ⟨l₀, hl₀, rfl⟩ := Option.map_eq_some_iff.1 hb
    have hy₀ := (List.mem_filter.1 (hmem hy)).1
    obtain rfl : index.toList ++ x :: l₀.filter (· ∉ clobStmts fresh body) = l := by
      simpa [eachBody_bound, Scope.loop, dropNames, hl₀] using hl
    simp [hy₀, hclob]
  · obtain ⟨hyx, hyi, -⟩ := eachHead_other hb (hmem hy)
    rw [bindEach_other hyx hyi, h₁.old (by simp)]
    rfl
  · simp only [Base.head, Scope.eachHead, eachBody_may, Scope.loop, List.mem_append,
      List.mem_cons] at hy ⊢
    tauto
  · obtain ⟨-, -, hclob⟩ := eachHead_other hb (hmem hy)
    simp only [clobStmts, List.mem_append, not_or] at hclob
    exact hclob.1
  · obtain ⟨-, -, hclob⟩ := eachHead_other hb (hmem hy)
    rw [hf] at hfr
    subst hfr
    simp only [clobStmts, if_true, List.mem_append, not_or] at hclob
    exact hclob.2

end

section

variable {g : Spot F} {d k : Nat} {code : List (Instr F)} {X : Fixed F} {pc : Nat}
  {frame regs : List (Value F)} {le : LabelEnv} {w : W}

theorem gets_cmpLt {a b : F} (h : code[pc]? = some (.cmp .lt)) :
    (S.machine d code).Gets (.inl (pc, X.mach (frame ++ [Value.float a] ++ [Value.float b]) regs le w))
      (.inl (pc + 1, X.mach (frame ++ [Value.bool (FloatModel.flt a b)]) regs le w)) :=
  gets_next h ⟨0, fun _ _ => by
    simp [-List.append_assoc, Setup.step, step, evalCmp, pushResult]⟩

theorem gets_addFloat {a b : F} (h : code[pc]? = some (.arith .add)) :
    (S.machine d code).Gets (.inl (pc, X.mach (frame ++ [Value.float a] ++ [Value.float b]) regs le w))
      (.inl (pc + 1, X.mach (frame ++ [Value.float (FloatModel.add a b)]) regs le w)) :=
  gets_next h ⟨0, fun _ _ => by
    simp [-List.append_assoc, Setup.step, step, ArithOp.toBinOp, vmArith, addValues, Value.isOpaque,
      pushResult]⟩

/-- The element a counter below `2^53` points to. -/
theorem vmIndex_ofNat {items : List (Value F)} {n : Nat} {v : Value F} (hn : n < 2 ^ 53)
    (h : items[n]? = some v) : vmIndex (.list items) (.float (FloatModel.ofNat n)) = v := by
  have hi : FloatModel.toIsize (FloatModel.ofNat n : F) = n := FloatModel.toIsize_ofNat (by omega)
  have hpos : indexPos items.length (FloatModel.ofNat n : F) = n := by
    simp only [indexPos, hi]
    rw [if_neg (by omega)]
    simp
  simp [vmIndex, hpos, h]

/-- The cells of a running `each`: its list and its counter. -/
structure Counter (slot : Nat) (items : List (Value F)) (n : Nat) (frame : List (Value F)) : Prop where
  list : frame[slot]? = some (.list items)
  idx : frame[slot + 1]? = some (.float (FloatModel.ofNat n))

/-- The test at the head. -/
theorem gets_eachTest {base list after n : Nat} {items : List (Value F)}
    (hcode : CodeAt code base [.loadLocal (list + 1), .loadLocal list, .listLen, .cmp .lt,
      .jumpIfNot after])
    (hc : Counter list items n frame) (hn : n ≤ items.length) (hlen : items.length < 2 ^ 53) :
    (S.machine d code).Gets (.inl (base, X.mach frame regs le w))
      (.inl (if n < items.length then base + 5 else after, X.mach frame regs le w)) := by
  simp only [CodeAt.cons_iff, CodeAt.nil, and_true, Nat.add_assoc] at hcode
  obtain ⟨h0, h1, h2, h3, h4⟩ := hcode
  have hlist : (frame ++ [Value.float (FloatModel.ofNat n)])[list]? = some (.list items) := by
    obtain ⟨hlt, -⟩ := List.getElem?_eq_some_iff.1 hc.list
    rw [List.getElem?_append_left hlt, hc.list]
  have hlt : FloatModel.flt (FloatModel.ofNat n : F) (FloatModel.ofNat items.length) =
      decide (n < items.length) := FloatModel.flt_ofNat (by omega) (by omega)
  refine ((((gets_loadLocal h0 hc.idx).trans (gets_loadLocal h1 hlist)).trans
    (gets_listLen h2)).trans (gets_cmpLt h3)).trans ?_
  rw [hlt]
  have hj : (S.machine d code).Gets
      (.inl (base + 4, X.mach (frame ++ [Value.bool (decide (n < items.length))]) regs le w)) _ :=
    gets_jumpIfNot h4
  simpa [Value.isTruthy] using hj

/-- The item is taken from the list. -/
theorem gets_eachItem {base list n : Nat} {items : List (Value F)} {v : Value F}
    (hcode : CodeAt code base [.loadLocal list, .loadLocal (list + 1), .indexAccess,
      .storeLocal (list + 2)])
    (hc : Counter list items n frame) (hv : items[n]? = some v) (hn : n < 2 ^ 53) :
    (S.machine d code).Gets (.inl (base, X.mach frame regs le w))
      (.inl (base + 4, X.mach (writeAt frame (list + 2) v) regs le w)) := by
  simp only [CodeAt.cons_iff, CodeAt.nil, and_true, Nat.add_assoc] at hcode
  obtain ⟨h0, h1, h2, h3⟩ := hcode
  have hidx : (frame ++ [Value.list items])[list + 1]? = some (.float (FloatModel.ofNat n)) := by
    obtain ⟨hlt, -⟩ := List.getElem?_eq_some_iff.1 hc.idx
    rw [List.getElem?_append_left hlt, hc.idx]
  have hindex : (S.machine d code).Gets (.inl (base + 2, X.mach (frame ++ [Value.list items] ++
      [.float (FloatModel.ofNat n)]) regs le w)) _ := gets_indexAccess h2
  rw [vmIndex_ofNat hn hv] at hindex
  exact (((gets_loadLocal h0 hc.list).trans (gets_loadLocal h1 hidx)).trans hindex).trans
    (gets_storeLocal h3)

/-- The counter is advanced. -/
theorem gets_eachNext {base list head n : Nat} {items : List (Value F)}
    (hcode : CodeAt code base [.loadLocal (list + 1), .const (.float (FloatModel.one F)),
      .arith .add, .storeLocal (list + 1), .jump head])
    (hc : Counter list items n frame) (hn : n < 2 ^ 53) :
    (S.machine d code).Gets (.inl (base, X.mach frame regs le w))
      (.inl (head, X.mach (writeAt frame (list + 1) (.float (FloatModel.ofNat (n + 1)))) regs le w)) := by
  simp only [CodeAt.cons_iff, CodeAt.nil, and_true, Nat.add_assoc] at hcode
  obtain ⟨h0, h1, h2, h3, h4⟩ := hcode
  have hadd : (S.machine d code).Gets (.inl (base + 2, X.mach (frame ++ [Value.float (FloatModel.ofNat n)] ++
      [.float (FloatModel.one F)]) regs le w)) _ := gets_addFloat h2
  rw [FloatModel.one, FloatModel.add_one hn] at hadd
  exact ((((gets_loadLocal h0 hc.idx).trans (gets_const h1)).trans hadd).trans
    (gets_storeLocal h3)).trans (gets_jump h4)

omit [FloatModel F] in
theorem Ext.counterless {P : Nat → Prop} {st : Bool} {list : Nat} {a b : List (Value F)}
    (h : Ext (fun s => P s ∨ s = list ∨ s = list + 1) st a b) : Ext P st a b :=
  h.mono fun _ hs => .inl hs

/-- A round keeps list and counter. -/
theorem Counter.round {P : Nat → Prop} {st : Bool} {list n : Nat} {items : List (Value F)}
    {v : Value F} {frame' : List (Value F)} (h : Counter list items n frame)
    (hx : Ext (fun s => P s ∨ s = list ∨ s = list + 1) st (writeAt frame (list + 2) v) frame') :
    Counter list items n frame' := by
  obtain ⟨hl, -⟩ := List.getElem?_eq_some_iff.1 h.list
  obtain ⟨hi, -⟩ := List.getElem?_eq_some_iff.1 h.idx
  have hlen : (writeAt frame (list + 2) v).length = max frame.length (list + 2 + 1) := length_writeAt
  constructor
  · rw [hx.cells (.inr (.inl rfl)) (by omega), writeAt_ne (by omega) hl, h.list]
  · rw [hx.cells (.inr (.inr rfl)) (by omega), writeAt_ne (by omega) hi, h.idx]

theorem Counter.next {list n : Nat} {items : List (Value F)} (h : Counter list items n frame) :
    Counter list items (n + 1) (writeAt frame (list + 1) (.float (FloatModel.ofNat (n + 1)))) := by
  obtain ⟨hl, -⟩ := List.getElem?_eq_some_iff.1 h.list
  exact ⟨by rw [writeAt_ne (by omega) hl, h.list], writeAt_self⟩

end

section

variable {g : Spot F} {d k : Nat} {code : List (Instr F)} {Γ : Scope} {cs cs₁ cs₂ : CState}
  {head : Nat} {c₂ : Frag F} {body : List (Stmt F)} {regs : List (Value F)} {index : Option String}
  {x : String}

/-- The rounds of an `each`, from the head on. -/
theorem each_loop (hb : StmtsSim S p T body) (hr : Runs S g.X d k) (hst : g.c.st = true)
    (h₁ : Grows [] false { cs with next := cs.next + 3 } cs₁) (hne : index ≠ some x)
    (h₂ : compileStmts S.tables (.plain true) body
      (cs₁.bindEach index x (cs.next + 1) (cs.next + 2)) (head + 9) = .ok (c₂, cs₂))
    (hok : okStmts p k (.plain true) cs.fresh ((Γ.loop cs.fresh body).eachBody index x) body = true)
    (hcode : CodeAt code head
      (fill g.brk g.cont (eachShape head cs.next (cs.next + 1) (cs.next + 2) c₂)))
    (hg : Guard g.P Γ cs) {items : List (Value F)} (hlen : items.length < 2 ^ 53) :
    ∀ (vs : List (Value F)) {n : Nat} {env : Env F} {muts : List String} {frame : List (Value F)}
      {le : LabelEnv} {w : W}, items.drop n = vs → n ≤ items.length →
      Ext g.P g.c.st g.frame frame → Sync (Γ.eachHead cs.fresh index x body) cs env frame →
      Counter cs.next items n frame → LabelsIn T le →
      Simulates (S.machine d code) (Clean g.c)
        (eachLoop S.walk (eachBind index x) (fun env muts => evalStmts S.walk body .unit env muts)
          n vs env muts) w
        (.inl (head, g.X.mach frame regs le w))
        (g.Ends T (head + 9 + c₂.length + 5) regs fun env' frame' =>
          Sync (Γ.eachHead cs.fresh index x body) cs env' frame')
        (Fails T g.X g.P g.c.st g.frame) := by
  have hsplit : CodeAt code head [.loadLocal (cs.next + 1), .loadLocal cs.next, .listLen, .cmp .lt,
        .jumpIfNot (head + 9 + c₂.length + 5)] ∧
      CodeAt code (head + 5) [.loadLocal cs.next, .loadLocal (cs.next + 1), .indexAccess,
        .storeLocal (cs.next + 2)] ∧
      CodeAt code (head + 9) (fill (head + 9 + c₂.length + 5) (head + 9 + c₂.length) c₂) ∧
      CodeAt code (head + 9 + c₂.length) [.loadLocal (cs.next + 1), .const (.float (FloatModel.one F)),
        .arith .add, .storeLocal (cs.next + 1), .jump head] := by
    simp only [eachShape, fill_append, fill_code, fill_resolve, CodeAt.append_iff, length_fill,
      CodeAt.cons_iff, CodeAt.nil, and_true, List.length_append, List.length_cons, List.length_nil,
      Nat.zero_add, Nat.add_assoc, Nat.reduceAdd] at hcode ⊢
    tauto
  obtain ⟨htest, hitem, hbody, hnext⟩ := hsplit
  have hf₁ : cs₁.fresh = cs.fresh := h₁.fresh
  have hfb : (cs₁.bindEach index x (cs.next + 1) (cs.next + 2)).fresh = cs.fresh := by
    cases index <;> exact hf₁
  intro vs
  induction vs with
  | nil =>
    intro n env muts frame le w hdrop hn hx hs hcnt hl
    have hlast : ¬ n < items.length := by
      have := congrArg List.length hdrop
      simp only [List.length_drop, List.length_nil] at this
      omega
    have htest' : (S.machine d code).Gets (.inl (head, g.X.mach frame regs le w)) _ :=
      gets_eachTest htest hcnt hn hlen
    rw [if_neg hlast] at htest'
    simp only [eachLoop]
    exact Simulates.pre htest' (Simulates.pure ⟨rfl, frame, le, rfl, hx, hl, hs⟩)
  | cons v vs ih =>
    intro n env muts frame le w hdrop hn hx hs hcnt hl
    have hlt : n < items.length := by
      have := congrArg List.length hdrop
      simp only [List.length_drop, List.length_cons] at this
      omega
    have hv : items[n]? = some v := by
      have := congrArg List.head? hdrop
      simpa [List.head?_drop] using this
    have hdrop' : items.drop (n + 1) = vs := by
      have := congrArg List.tail hdrop
      simpa [List.tail_drop] using this
    have htest' : (S.machine d code).Gets (.inl (head, g.X.mach frame regs le w)) _ :=
      gets_eachTest htest hcnt hn hlen
    rw [if_pos hlt] at htest'
    simp only [eachLoop]
    split_ifs with hsand
    · exact Simulates.tell fun h => h.elim
    refine Simulates.pre (htest'.trans (gets_eachItem hitem hcnt hv (by omega))) ?_
    have hx₀ : Ext g.P g.c.st g.frame (writeAt frame (cs.next + 2) v) :=
      hx.trans (ext_writeAt hst fun hP => by have := hg.lt hP; omega)
    obtain ⟨names, hnames, -⟩ := hs.live
    refine Simulates.bind (Simulates.wrap (round_sim hb
      (g := ⟨g.X, fun s => g.P s ∨ s = cs.next ∨ s = cs.next + 1, g.c.loop,
        writeAt frame (cs.next + 2) v, regs, .unit, head + 9 + c₂.length, head + 9 + c₂.length + 5,
        head + 9 + c₂.length, Base.head (Γ.eachHead cs.fresh index x body) cs⟩)
      rfl rfl hr h₂ (hfb ▸ hok) hbody rfl (hs.eachBody h₁ hne hcnt.idx) (hg.eachBody hs.ok h₁ hne)
      (.eachBody h₁ hf₁ hnames) hl fun m => .refl _)) ?_
      fun _ _ _ h => h.mono hx₀ fun _ h => .inl h
    rintro ⟨sig, env', muts'⟩ w' o hround
    have again (hL : Spot.Leaves ⟨g.X, fun s => g.P s ∨ s = cs.next ∨ s = cs.next + 1, g.c.loop,
        writeAt frame (cs.next + 2) v, regs, .unit, head + 9 + c₂.length, head + 9 + c₂.length + 5,
        head + 9 + c₂.length, Base.head (Γ.eachHead cs.fresh index x body) cs⟩ T
          (head + 9 + c₂.length) env' w' o) :
        Simulates (S.machine d code) (Clean g.c)
          (eachLoop S.walk (eachBind index x) (fun env muts => evalStmts S.walk body .unit env muts)
            (n + 1) vs env' muts') w' o
          (g.Ends T (head + 9 + c₂.length + 5) regs fun env' frame' =>
            Sync (Γ.eachHead cs.fresh index x body) cs env' frame')
          (Fails T g.X g.P g.c.st g.frame) := by
      obtain ⟨-, fr, le', rfl, hx', hl', hbase⟩ := hL
      have hcnt' := hcnt.round hx'
      refine Simulates.pre (gets_eachNext hnext hcnt' (by omega)) ?_
      have hx'' : Ext g.P g.c.st g.frame fr := hx₀.trans hx'.counterless
      refine ih hdrop' hlt (hx''.trans (ext_writeAt hst fun hP => by have := hg.lt hP; omega)) ?_
        hcnt'.next hl'
      refine (hs.of_head hbase).hidden fun {y s} hy => ?_
      have := hs.ok.lt hy
      omega
    cases sig with
    | normal u => exact again hround
    | cont => exact again hround
    | brk =>
      obtain ⟨-, fr, le', rfl, hx', hl', hbase⟩ := hround
      exact Simulates.pure ⟨rfl, fr, le', rfl, hx₀.trans hx'.counterless, hl', hs.of_head hbase⟩
    | ret u => exact Simulates.pure hround

theorem length_eachShape {base list idx item : Nat} {body : Frag F} :
    (eachShape base list idx item body).length = 9 + body.length + 5 := by
  simp only [eachShape, List.length_append, length_code, length_resolve, List.length_cons,
    List.length_nil, Nat.zero_add]

omit [FloatModel F] in
theorem Sync.eachHead {env : Env F} {frame : List (Value F)} (hs : Sync Γ cs env frame) :
    Sync (Γ.eachHead cs.fresh index x body) cs env frame := by
  refine hs.weaken (fun l hl => ⟨_, by simp [Scope.eachHead, dropNames, hl]; rfl, fun y hy => ?_⟩)
    (fun y hy => ?_) fun y hy => hy
  · exact (List.mem_filter.1 hy).1
  · simp only [Scope.eachHead, eachBody_may, Scope.loop, List.mem_append, List.mem_cons]
    tauto

/-- An `each` from its iterable on, for both forms. -/
theorem eachStmt_sim (index : Option String) {it : Expr F} (he : ExprSim S p T it) (hb : StmtsSim S p T body) {b : Nat}
    {c₁ : Frag F} {isLast : Bool} {last : Value F} {env : Env F} {muts : List String} {le : LabelEnv}
    {w : W} {post : Env F → List (Value F) → Prop} (hr : Runs S g.X d k)
    (h₁ : compileExpr S.tables it { cs with next := cs.next + 3 } b = .ok (c₁, cs₁))
    (hne : index ≠ some x)
    (h₂ : compileStmts S.tables (.plain true) body (cs₁.bindEach index x (cs.next + 1) (cs.next + 2))
      (b + c₁.length + 3 + 9) = .ok (c₂, cs₂))
    (hok₁ : okExpr p k Γ it = true)
    (hok₂ : okStmts p k (.plain true) cs.fresh ((Γ.loop cs.fresh body).eachBody index x) body = true)
    (hcode : CodeAt code b (fill g.brk g.cont (c₁ ++ Compile.code [.storeLocal cs.next,
      .const (.float (FloatModel.zero F)), .storeLocal (cs.next + 1)] ++
      eachShape (b + c₁.length + 3) cs.next (cs.next + 1) (cs.next + 2) c₂ ++
      unitIf (g.c.keep isLast))))
    (hstop : g.stop = b + c₁.length + 3 + 9 + c₂.length + 5 +
      (unitIf (g.c.keep isLast) : Frag F).length)
    (hctx : g.c.Ok cs.fresh) (hs : Sync Γ cs env g.frame) (hg : Guard g.P Γ cs)
    (hregs : Regs g.c.mode g.rs g.stale last regs) (hl : LabelsIn T le)
    (hp : ∀ env' fr', Sync (Γ.eachHead cs.fresh index x body) cs env' fr' → post env' fr') :
    Simulates (S.machine d code) (Clean g.c) (do
        let v ← evalExpr S.walk it env
        eachStmt S.walk (eachBind index x) (fun env muts => evalStmts S.walk body .unit env muts) last v
          env muts) w
      (.inl (b, g.X.mach g.frame regs le w)) (g.Done T isLast post)
      (Fails T g.X g.P g.c.st g.frame) := by
  have g₀ := Grows.reserve cs 3
  have g₁ := compileExpr_grows it h₁
  simp only [fill_append, fill_code, CodeAt.append_iff, length_fill, CodeAt.cons_iff, CodeAt.nil,
    and_true, List.length_append, List.length_cons, List.length_nil, Nat.zero_add,
    ← Nat.add_assoc] at hcode
  obtain ⟨⟨⟨hc₁, hst₁, hzero, hst₂⟩, hloop⟩, hu'⟩ := hcode
  have hu : CodeAt code (b + c₁.length + 3 + 9 + c₂.length + 5)
      (fill g.brk g.cont (unitIf (g.c.keep isLast))) := by
    rw [length_eachShape] at hu'
    convert hu' using 1
    omega
  have hP (s : Nat) (h : g.P s) : s < cs.next + 3 := Nat.lt_add_right 3 (hg.lt h)
  have hlt {y : String} {s : Nat} (hy : cs.locals y = some s) : s < cs.next := hs.ok.lt hy
  refine he.then hr h₁ hok₁ hc₁ (hs.grow g₀ (Ext.refl g.frame : Ext _ false g.frame g.frame)) hl
    (fun v w' fr le' hx _ hl' => ?_) fun _ _ _ h => h.mono (.refl _) hP
  refine Simulates.tell fun hstore => ?_
  have hstore : g.c.st = true := hstore
  -- the list and the counter are in their cells
  let fr' := writeAt (writeAt fr cs.next v) (cs.next + 1) (.float (FloatModel.zero F))
  have hgets : (S.machine d code).Gets (.inl (b + c₁.length, g.X.mach (fr ++ [v]) regs le' w'))
      (.inl (b + c₁.length + 3, g.X.mach fr' regs le' w')) :=
    ((gets_storeLocal hst₁).trans (gets_const hzero)).trans (gets_storeLocal hst₂)
  have hx' : Ext g.P g.c.st g.frame fr' :=
    ((hx.mono hP).trans (ext_writeAt hstore fun h => Nat.lt_irrefl _ (hg.lt h))).trans
      (ext_writeAt hstore fun h => by have := hg.lt h; omega)
  have hlist : fr'[cs.next]? = some v := by
    have hlen : cs.next < (writeAt fr cs.next v).length := by
      rw [length_writeAt]
      omega
    rw [writeAt_ne (by omega) hlen, writeAt_self]
  have hidx : fr'[cs.next + 1]? = some (.float (FloatModel.ofNat 0)) := writeAt_self
  refine Simulates.pre hgets ?_
  cases v with
  | list items =>
    refine Simulates.tell fun hreset => Simulates.tell fun hitems => ?_
    split_ifs with hsand
    · exact Simulates.tell fun h => h.elim
    have hsync : Sync Γ cs env fr' := by
      have hs' : Sync Γ cs env fr :=
        hs.grow (Grows.refl cs) (hx.mono fun s h => Nat.lt_add_right 3 h)
      exact (hs'.hidden fun {y s} hy => by have := hlt hy; omega).hidden fun {y s} hy => by
        have := hlt hy
        omega
    refine ends_sim hu hstop hctx hregs hreset (Simulates.post
      (each_loop hb hr hstore g₁ hne h₂ hok₂ hloop hg hitems items rfl (Nat.zero_le _) hx'
        hsync.eachHead ⟨hlist, hidx⟩ hl') (fun out w'' o hends => ⟨o, .refl o, ?_⟩) fun _ _ _ h => h)
    obtain ⟨sig, env', muts'⟩ := out
    cases sig with
    | normal u =>
      obtain ⟨rfl, fr'', le'', rfl, hx'', hl'', hs''⟩ := hends
      exact ⟨rfl, fr'', le'', rfl, hx'', hl'', hp _ _ hs''⟩
    | _ => exact hends
  | _ =>
    simp only [eachShape, fill_append, fill_code, CodeAt.append_iff, CodeAt.cons_iff] at hloop
    obtain ⟨⟨⟨hld₁, hld₂, hlen, -⟩, -⟩, -⟩ := hloop
    obtain ⟨hb₁, -⟩ := List.getElem?_eq_some_iff.1 hlist
    exact Simulates.pre (((gets_loadLocal hld₁ hidx).trans
      (gets_loadLocal hld₂ ((List.getElem?_append_left hb₁).trans hlist))).trans
      (gets_listLen_err hlen (by simp))) (Simulates.fail ⟨_, rfl, .of_mach hx' hl'⟩)

end

theorem each_sim {x : String} {it : Expr F} {body : List (Stmt F)} (he : ExprSim S p T it)
    (hb : StmtsSim S p T body) : StmtSim S p T (.each x it body) := by
  intro g d k code Γ cs cs' b frag env muts isLast last regs le w hr hc hok hcode hstop hctx hs hg hL
    hregs hl
  simp only [compileStmt, bind_ok, Except.ok.injEq, Prod.mk.injEq] at hc
  obtain ⟨⟨c₁, cs₁⟩, h₁, ⟨c₂, cs₂⟩, h₂, rfl, rfl⟩ := hc
  simp only [okStmt, Bool.and_eq_true] at hok
  have hgr := Grows.each (compileExpr_grows it h₁) (compileStmts_grows (.plain true) body
    (by intro hmode; cases hmode) h₂)
  simp only [evalStmt]
  refine Simulates.noStop (eachStmt_sim none he hb hr h₁ (by intro hsame; cases hsame) h₂ hok.1 hok.2 hcode ?_
    hctx hs hg hregs hl fun env' fr' hs' => ?_)
  · simp only [hstop, length_eachShape, List.length_append, length_code, List.length_cons,
      List.length_nil]
    omega
  · refine hs'.join hgr (by simpa using okStmts_shares hok.2)
      (fun l hl => ⟨l, hl, fun y hy => ⟨hy, fun hf => ?_⟩⟩) (fun y hy => ?_) fun y hy => ?_
    · have hclob := (eachHead_other hl hy).2.2
      simp only [clobStmts, hf, if_true, List.mem_append, not_or] at hclob
      simpa using hclob.2
    · simp only [Scope.eachHead, eachBody_may, Scope.loop, Scope.after, letsStmt, loopVarsStmt,
        List.mem_append, List.mem_cons, Option.toList_none, List.nil_append] at hy ⊢
      tauto
    · simpa [Scope.eachHead, Scope.after, letsStmt] using hy

theorem eachWithIndex_sim {i x : String} {it : Expr F} {body : List (Stmt F)} (he : ExprSim S p T it)
    (hb : StmtsSim S p T body) : StmtSim S p T (.eachWithIndex i x it body) := by
  intro g d k code Γ cs cs' b frag env muts isLast last regs le w hr hc hok hcode hstop hctx hs hg hL
    hregs hl
  simp only [compileStmt, bind_ok, Except.ok.injEq, Prod.mk.injEq] at hc
  obtain ⟨⟨c₁, cs₁⟩, h₁, ⟨c₂, cs₂⟩, h₂, rfl, rfl⟩ := hc
  simp only [okStmt, Bool.and_eq_true, decide_eq_true_eq] at hok
  have hne : (some i : Option String) ≠ some x := fun e => hok.1.1 (Option.some.inj e)
  have hgr := Grows.each (compileExpr_grows it h₁) (compileStmts_grows (.plain true) body
    (by intro hmode; cases hmode) h₂)
  simp only [if_neg hne, decide_eq_false hne, List.nil_append, Bool.false_or] at hgr
  simp only [evalStmt]
  refine Simulates.noStop (eachStmt_sim (some i) he hb hr h₁ hne h₂ hok.1.2 hok.2 hcode ?_
    hctx hs hg hregs hl fun env' fr' hs' => ?_)
  · simp only [hstop, length_eachShape, List.length_append, length_code, List.length_cons,
      List.length_nil]
    omega
  · refine hs'.join hgr (okStmts_shares hok.2)
      (fun l hl => ⟨l, hl, fun y hy => ⟨hy, fun hf => ?_⟩⟩) (fun y hy => ?_) fun y hy => ?_
    · have hclob := (eachHead_other hl hy).2.2
      simp only [clobStmts, hf, if_true, List.mem_append, not_or] at hclob
      exact hclob.2
    · simp only [Scope.eachHead, eachBody_may, Scope.loop, Scope.after, letsStmt, loopVarsStmt,
        List.mem_append, List.mem_cons, Option.toList_some, List.not_mem_nil, or_false] at hy ⊢
      tauto
    · simp only [Scope.eachHead, Scope.after, letsStmt, List.mem_append] at hy ⊢
      tauto

end Metalogos.Refine
