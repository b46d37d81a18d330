import Metalogos.Walk.Reach

/-!
# Where the signal of a `break` goes

A `break` or a `continue` ends its block with a signal, the block hands it to the statement around it, and so on until
a loop takes it or a block gets it whose value is wanted. `Follows` is the way from such a block to the statements that
run in it, with no loop and no value block between them. A block ends with a signal if and only if it gets to a `break`
or a `continue` that way (`signals_iff`), and a value block that ends so raises the error (`evalExpr_refuses`,
`evalStatements_refuses`).
-/
namespace Metalogos.Walk

open Metalogos.Lang Metalogos.Lib

variable {F W : Type}

def ControlFlow.isSignal : ControlFlow F → Bool
  | .brk => true
  | .cont => true
  | .normal _ => false
  | .ret _ => false

/-- The evaluations that can end with a signal. A loop takes it. -/
def Work.isBlock : Work F → Bool
  | .stmt _ _ _ => true
  | .stmts _ _ _ _ => true
  | .chain _ _ _ => true
  | .arms _ _ _ _ => true
  | _ => false

def Work.isExpr : Work F → Bool
  | .expr _ _ => true
  | _ => false

/-- A `break` or a `continue`. -/
def Work.isSignal : Work F → Bool
  | .stmt .break_ _ _ => true
  | .stmt .continue_ _ _ => true
  | _ => false

variable [FloatModel F]

/-! ## Blocks that end with a signal -/

/-- The run of `x` from `w` comes to its end, with a signal. -/
def Ends (x : TW F W (Outcome F)) (w : W) : Prop :=
  ∃ out w' t, x w = (.ok out, w', t) ∧ out.1.isSignal = true

namespace Ends

variable {α : Type} {x : TW F W α} {f : α → TW F W (Outcome F)} {block : TW F W (Outcome F)} {a : α} {w w' : W}
  {t : List (Event F)}

omit [FloatModel F] in
theorem bind (h : x w = (.ok a, w', t)) (hf : Ends (f a) w') : Ends (x >>= f) w := by
  obtain ⟨out, w₂, t₂, hrun, hsig⟩ := hf
  exact ⟨out, w₂, t ++ t₂, by rw [Traced.bind_ok h, hrun], hsig⟩

omit [FloatModel F] in
theorem lift {r : Except String α} (h : r = .ok a) (hf : Ends (f a) w) : Ends (Traced.lift r >>= f) w :=
  bind (by rw [h]; rfl) hf

omit [FloatModel F] in
theorem tell {e : Event F} {f : Unit → TW F W (Outcome F)} (hf : Ends (f ()) w) : Ends (Traced.tell e >>= f) w :=
  bind rfl hf

omit [FloatModel F] in
theorem wrap {g : Event F → Event F} (h : x w = (.ok a, w', t)) (hf : Ends (f a) w') :
    Ends (Traced.wrap g x >>= f) w := by
  refine bind (t := t.map g) ?_ hf
  unfold Traced.wrap
  rw [h]

omit [FloatModel F] in
theorem evalBlock {isLast : Bool} {last : Value F} (h : Ends block w) : Ends (evalBlock isLast last block) w := by
  obtain ⟨⟨sig, rest⟩, w', t, hrun, hsig⟩ := h
  cases sig with
  | normal v => cases hsig
  | ret v => cases hsig
  | brk => exact wrap hrun ⟨_, _, _, rfl, rfl⟩
  | cont => exact wrap hrun ⟨_, _, _, rfl, rfl⟩

end Ends

variable (c : Interpreter F W)

/-- The evaluation ends with a signal. -/
def Signals (s : Eval F W) : Prop :=
  match s.work with
  | .stmt x env muts => ∀ isLast last, Ends (evalStmt c x isLast last env muts) s.world
  | .stmts ss last env muts => Ends (evalStmts c ss last env muts) s.world
  | .chain rest env muts => ∀ isLast last, Ends (evalElse c rest isLast last env muts) s.world
  | .arms arms sv env muts => ∀ isLast last, Ends (evalArms c arms sv isLast last env muts) s.world
  | _ => False

variable {c}

/-- A block hands the signal on. -/
theorem signals_calls {s t : Eval F W} (h : Calls c s t) (hstart : s.work.isBlock = true)
    (ht : t.work.isBlock = true) (hsig : Signals c t) : Signals c s := by
  cases h
  case thenBody hc hb =>
    intro isLast last
    rw [evalStmt]
    refine .bind hc (.lift hb ?_)
    rw [if_pos rfl]
    exact .evalBlock hsig
  case elseBody hc hb =>
    intro isLast last
    rw [evalStmt]
    refine .bind hc (.lift hb ?_)
    rw [if_neg Bool.false_ne_true]
    exact hsig isLast last
  case guarded hc hb =>
    intro isLast last
    rw [evalStmt]
    refine .bind hc (.lift hb ?_)
    rw [if_pos rfl]
    exact .evalBlock hsig
  case arms hs =>
    intro isLast last
    rw [evalStmt]
    exact .bind hs (.tell (hsig isLast last))
  case first p x ss last env muts w =>
    obtain ⟨⟨sig, rest⟩, w', t, hrun, hend⟩ := hsig ss.isEmpty last
    show Ends (evalStmts c (x :: ss) last env muts) w
    rw [evalStmts]
    refine .bind hrun ?_
    cases sig with
    | normal v => cases hend
    | ret v => cases hend
    | brk => exact ⟨_, _, _, rfl, rfl⟩
    | cont => exact ⟨_, _, _, rfl, rfl⟩
  case next p x ss last env muts w v env' muts' w' t hx =>
    show Ends (evalStmts c (x :: ss) last env muts) w
    rw [evalStmts]
    exact .bind hx hsig
  case else_ =>
    intro isLast last
    rw [evalElse]
    exact .evalBlock hsig
  case elseThen hc hb =>
    intro isLast last
    rw [evalElse]
    refine .bind hc (.lift hb ?_)
    rw [if_pos rfl]
    exact .evalBlock hsig
  case elseRest hc hb =>
    intro isLast last
    rw [evalElse]
    refine .bind hc (.lift hb ?_)
    rw [if_neg Bool.false_ne_true]
    exact hsig isLast last
  case armElse =>
    intro isLast last
    rw [evalArms]
    exact .evalBlock hsig
  case armLit htest =>
    intro isLast last
    rw [evalArms, if_pos htest]
    exact .evalBlock hsig
  case litRest htest =>
    intro isLast last
    rw [evalArms, if_neg (by rw [htest]; exact Bool.false_ne_true)]
    exact hsig isLast last
  case armCompare hth hcmp =>
    intro isLast last
    rw [evalArms]
    refine .wrap hth ?_
    rw [if_pos hcmp]
    exact .evalBlock hsig
  case compareRest hth hcmp =>
    intro isLast last
    rw [evalArms]
    refine .wrap hth ?_
    rw [if_neg (by rw [hcmp]; exact Bool.false_ne_true)]
    exact hsig isLast last
  all_goals first
    | exact absurd hstart Bool.false_ne_true
    | exact absurd ht Bool.false_ne_true

/-! ## The way to the statement that signals -/

variable (c) in
/-- One block starts the other. -/
def Enters (s t : Eval F W) : Prop := Calls c s t ∧ s.work.isBlock = true ∧ t.work.isBlock = true

variable (c) in
def Follows : Eval F W → Eval F W → Prop := Relation.ReflTransGen (Enters c)

theorem Follows.reaches {s t : Eval F W} (h : Follows c s t) : Reaches c s t := by
  induction h with
  | refl => exact .refl
  | tail _ hstep ih => exact ih.tail hstep.1

theorem signals_follows {s t : Eval F W} (h : Follows c s t) (ht : Signals c t) : Signals c s := by
  induction h with
  | refl => exact ht
  | tail _ hstep ih => exact ih (signals_calls hstep.1 hstep.2.1 hstep.2.2 ht)

theorem signals_of_isSignal {s : Eval F W} (h : s.work.isSignal = true) : Signals c s := by
  obtain ⟨p, work, w⟩ := s
  cases work with
  | stmt x env muts =>
    cases x with
    | break_ => exact fun _ _ => ⟨_, _, _, rfl, rfl⟩
    | continue_ => exact fun _ _ => ⟨_, _, _, rfl, rfl⟩
    | _ => cases h
  | _ => cases h

variable (c) in
/-- The evaluation gets to a `break` or a `continue` without a loop or a value block between. -/
def GetsTo (s : Eval F W) : Prop := ∃ u, Follows c s u ∧ u.work.isSignal = true

theorem GetsTo.step {s t : Eval F W} (h : Calls c s t) (hs : s.work.isBlock = true) (ht : t.work.isBlock = true)
    (hto : GetsTo c t) : GetsTo c s := by
  obtain ⟨u, hfollows, hu⟩ := hto
  exact ⟨u, .head ⟨h, hs, ht⟩ hfollows, hu⟩

/-- A statement without a block and a loop end without a signal. -/
def Quiet (x : TW F W (Outcome F)) : Prop := Traced.Ensures (fun out => out.1.isSignal = false) x

omit [FloatModel F] in
theorem Quiet.ensures {x : TW F W (Outcome F)} {P : Prop} {w : W} (h : Quiet x) :
    Traced.EnsuresFrom w (fun out => out.1.isSignal = true → P) x := by
  intro out w' t hrun hsig
  rw [h w out w' t hrun] at hsig
  cases hsig

omit [FloatModel F] in
theorem keepLast_quiet (isLast : Bool) (last : Value F) (env : Env F) (muts : List String) :
    Quiet (keepLast (W := W) isLast last env muts) := .after fun _ => .pure rfl

omit [FloatModel F] in
theorem eachLoop_quiet {bind : Nat → Value F → Env F → Env F} {body : Env F → List String → TW F W (Outcome F)} :
    ∀ (vs : List (Value F)) (idx : Nat) (env : Env F) (muts : List String),
      Quiet (eachLoop c bind body idx vs env muts)
  | [], _, _, _ => .pure rfl
  | v :: vs, idx, env, muts => by
    unfold eachLoop
    split_ifs
    · exact .after fun _ => .fail
    · refine .after fun out => ?_
      split
      · exact .pure rfl
      · exact .pure rfl
      · exact eachLoop_quiet vs _ _ _

omit [FloatModel F] in
theorem eachStmt_quiet {bind : Nat → Value F → Env F → Env F} {body : Env F → List String → TW F W (Outcome F)}
    (last v : Value F) (env : Env F) (muts : List String) : Quiet (eachStmt c bind body last v env muts) := by
  refine .after fun _ => ?_
  split
  · refine .after fun _ => .after fun _ => ?_
    split_ifs
    · exact .after fun _ => .fail
    · exact eachLoop_quiet _ _ _ _
  · exact .fail

theorem whileLoop_quiet {cond : Env F → TW F W (Value F)} {body : Env F → List String → TW F W (Outcome F)} :
    ∀ (n : Nat) (env : Env F) (muts : List String), Quiet (whileLoop c cond body n env muts)
  | 0, _, _ => .after fun _ => .fail
  | n + 1, env, muts => by
    unfold whileLoop
    refine .after fun v => .after fun b => ?_
    split_ifs
    · refine .after fun out => ?_
      split
      · exact .pure rfl
      · exact .pure rfl
      · exact whileLoop_quiet n _ _
    · exact .pure rfl

omit [FloatModel F] in
theorem evalBlock_from {isLast : Bool} {last : Value F} {block : TW F W (Outcome F)} {Q : Outcome F → Prop} {w : W}
    (h : Traced.EnsuresFrom w Q block) : Traced.EnsuresFrom w Q (evalBlock isLast last block) := by
  refine .wrap_bind fun out w₁ t hrun => ?_
  have hout := h out w₁ t hrun
  split
  · exact .bind fun _ _ _ _ => .pure hout
  · exact .pure hout

mutual
theorem evalStmt_getsTo : ∀ (s : Stmt F) (isLast : Bool) (last : Value F) (env : Env F) (muts : List String) (w : W)
    (p : Nat), Traced.EnsuresFrom w (fun out => out.1.isSignal = true → GetsTo c ⟨p, .stmt s env muts, w⟩)
      (evalStmt c s isLast last env muts)
  | .break_, _, _, _, _, _, _ => .pure fun _ => ⟨_, .refl, rfl⟩
  | .continue_, _, _, _, _, _, _ => .pure fun _ => ⟨_, .refl, rfl⟩
  | .ifElseBlock cnd thn rest, isLast, last, env, muts, w, p => by
    rw [evalStmt]
    refine .bind fun v w₁ t hc => .lift_bind fun b hb => ?_
    cases b with
    | true =>
      rw [if_pos rfl]
      exact evalBlock_from fun out w₂ t₂ hrun hsig =>
        (evalStmts_getsTo thn .unit env muts w₁ _ out w₂ t₂ hrun hsig).step (.thenBody hc hb) rfl rfl
    | false =>
      rw [if_neg Bool.false_ne_true]
      exact fun out w₂ t₂ hrun hsig =>
        (evalElse_getsTo rest isLast last env muts w₁ _ out w₂ t₂ hrun hsig).step (.elseBody hc hb) rfl rfl
  | .ifThen cnd body, isLast, last, env, muts, w, p => by
    rw [evalStmt]
    refine .bind fun v w₁ t hc => .lift_bind fun b hb => ?_
    cases b with
    | true =>
      rw [if_pos rfl]
      exact evalBlock_from fun out w₂ t₂ hrun hsig =>
        (evalStmts_getsTo body .unit env muts w₁ _ out w₂ t₂ hrun hsig).step (.guarded hc hb) rfl rfl
    | false =>
      rw [if_neg Bool.false_ne_true]
      exact (keepLast_quiet isLast last env muts).ensures
  | .match_ s arms, isLast, last, env, muts, w, p => by
    rw [evalStmt]
    refine .bind fun sv w₁ t hs => .tell_bind ?_
    exact fun out w₂ t₂ hrun hsig =>
      (evalArms_getsTo arms sv isLast last env muts w₁ _ out w₂ t₂ hrun hsig).step (.arms hs) rfl rfl
  | .each _ _ _, _, last, _, _, _, _ => Quiet.ensures (.after fun v => eachStmt_quiet last v _ _)
  | .eachWithIndex _ _ _ _, _, last, _, _, _, _ =>
    Quiet.ensures (.after fun v => eachStmt_quiet last v _ _)
  | .while_ _ _, _, _, _, _, _, _ => Quiet.ensures (.after fun _ => whileLoop_quiet _ _ _)
  | .letBinding _ _ _, _, _, _, _, _, _ =>
    Quiet.ensures (.after fun _ => .after fun _ => .pure rfl)
  | .assign x e, isLast, last, env, muts, w, _ => by
    refine Quiet.ensures ?_
    unfold evalStmt
    split_ifs
    · exact .after fun _ => .after fun _ => .after fun _ => .pure rfl
    · exact .after fun _ => .fail
  | .return_ _, _, _, _, _, _, _ => Quiet.ensures (.after fun _ => .after fun _ => .pure rfl)
  | .exprStmt e, isLast, last, env, muts, w, _ => by
    refine Quiet.ensures ?_
    unfold evalStmt
    refine .after fun v => .after fun _ => ?_
    split_ifs <;> exact .pure rfl
  | .memorize _ _, _, _, _, _, _, _ =>
    Quiet.ensures (.after fun _ => .after fun _ => keepLast_quiet _ _ _ _)
  | .forget _ _, _, _, _, _, _, _ =>
    Quiet.ensures (.after fun _ => .after fun _ => keepLast_quiet _ _ _ _)
  | .relate _ _ _, _, _, _, _, _, _ =>
    Quiet.ensures (.after fun _ => .after fun _ => .after fun _ => keepLast_quiet _ _ _ _)

theorem evalStmts_getsTo : ∀ (ss : List (Stmt F)) (last : Value F) (env : Env F) (muts : List String) (w : W)
    (p : Nat), Traced.EnsuresFrom w (fun out => out.1.isSignal = true → GetsTo c ⟨p, .stmts ss last env muts, w⟩)
      (evalStmts c ss last env muts)
  | [], _, _, _, _, _ => .pure nofun
  | s :: rest, last, env, muts, w, p => by
    rw [evalStmts]
    refine .bind fun out w₁ t hs => ?_
    obtain ⟨sig, env', muts'⟩ := out
    have hfirst : sig.isSignal = true → GetsTo c ⟨p, .stmts (s :: rest) last env muts, w⟩ := fun hsig =>
      (evalStmt_getsTo s rest.isEmpty last env muts w p _ w₁ t hs hsig).step .first rfl rfl
    cases sig with
    | normal v =>
      exact fun out w₂ t₂ hrun hsig =>
        (evalStmts_getsTo rest v env' muts' w₁ _ out w₂ t₂ hrun hsig).step (.next hs) rfl rfl
    | ret v => exact .pure hfirst
    | brk => exact .pure hfirst
    | cont => exact .pure hfirst

theorem evalElse_getsTo : ∀ (rest : ElseChain F) (isLast : Bool) (last : Value F) (env : Env F) (muts : List String)
    (w : W) (p : Nat), Traced.EnsuresFrom w (fun out => out.1.isSignal = true → GetsTo c ⟨p, .chain rest env muts, w⟩)
      (evalElse c rest isLast last env muts)
  | .none, _, _, _, _, _, _ => (keepLast_quiet _ _ _ _).ensures
  | .else_ body, _, _, env, muts, w, p => evalBlock_from fun out w₂ t₂ hrun hsig =>
    (evalStmts_getsTo body .unit env muts w p out w₂ t₂ hrun hsig).step .else_ rfl rfl
  | .elseIf cnd body rest, isLast, last, env, muts, w, p => by
    rw [evalElse]
    refine .bind fun v w₁ t hc => .lift_bind fun b hb => ?_
    cases b with
    | true =>
      rw [if_pos rfl]
      exact evalBlock_from fun out w₂ t₂ hrun hsig =>
        (evalStmts_getsTo body .unit env muts w₁ _ out w₂ t₂ hrun hsig).step (.elseThen hc hb) rfl rfl
    | false =>
      rw [if_neg Bool.false_ne_true]
      exact fun out w₂ t₂ hrun hsig =>
        (evalElse_getsTo rest isLast last env muts w₁ _ out w₂ t₂ hrun hsig).step (.elseRest hc hb) rfl rfl

theorem evalArms_getsTo : ∀ (arms : MatchArms F) (sv : Value F) (isLast : Bool) (last : Value F) (env : Env F)
    (muts : List String) (w : W) (p : Nat),
    Traced.EnsuresFrom w (fun out => out.1.isSignal = true → GetsTo c ⟨p, .arms arms sv env muts, w⟩)
      (evalArms c arms sv isLast last env muts)
  | .none, _, _, _, _, _, _, _ => (keepLast_quiet _ _ _ _).ensures
  | .else_ body, _, _, _, env, muts, w, p => evalBlock_from fun out w₂ t₂ hrun hsig =>
    (evalStmts_getsTo body .unit env muts w p out w₂ t₂ hrun hsig).step .armElse rfl rfl
  | .lit test body rest, sv, isLast, last, env, muts, w, p => by
    rw [evalArms]
    split_ifs with htest
    · exact evalBlock_from fun out w₂ t₂ hrun hsig =>
        (evalStmts_getsTo body .unit env muts w p out w₂ t₂ hrun hsig).step (.armLit htest) rfl rfl
    · exact fun out w₂ t₂ hrun hsig =>
        (evalArms_getsTo rest sv isLast last env muts w _ out w₂ t₂ hrun hsig).step
          (.litRest (eq_false_of_ne_true htest)) rfl rfl
  | .compare op th body rest, sv, isLast, last, env, muts, w, p => by
    rw [evalArms]
    refine .wrap_bind fun tv w₁ t hth => ?_
    split_ifs with hcmp
    · exact evalBlock_from fun out w₂ t₂ hrun hsig =>
        (evalStmts_getsTo body .unit env muts w₁ _ out w₂ t₂ hrun hsig).step (.armCompare hth hcmp) rfl rfl
    · exact fun out w₂ t₂ hrun hsig =>
        (evalArms_getsTo rest sv isLast last env muts w₁ _ out w₂ t₂ hrun hsig).step
          (.compareRest hth (eq_false_of_ne_true hcmp)) rfl rfl
end

/-- A block ends with a signal if and only if it gets to a `break` or a `continue`. -/
theorem signals_iff {s : Eval F W} : Signals c s ↔ GetsTo c s := by
  constructor
  · intro h
    obtain ⟨p, work, w⟩ := s
    cases work with
    | stmt x env muts =>
      obtain ⟨out, w', t, hrun, hsig⟩ := h true .unit
      exact evalStmt_getsTo x true .unit env muts w p out w' t hrun hsig
    | stmts ss last env muts =>
      obtain ⟨out, w', t, hrun, hsig⟩ := h
      exact evalStmts_getsTo ss last env muts w p out w' t hrun hsig
    | chain rest env muts =>
      obtain ⟨out, w', t, hrun, hsig⟩ := h true .unit
      exact evalElse_getsTo rest true .unit env muts w p out w' t hrun hsig
    | arms arms sv env muts =>
      obtain ⟨out, w', t, hrun, hsig⟩ := h true .unit
      exact evalArms_getsTo arms sv true .unit env muts w p out w' t hrun hsig
    | _ => exact h.elim
  · rintro ⟨u, hfollows, hu⟩
    exact signals_follows hfollows (signals_of_isSignal hu)

/-! ## Where the error is raised -/

variable (c) in
/-- A block of the run from `r` whose value is wanted: `r` itself, or one that an expression starts. -/
def Boundary (r b : Eval F W) : Prop :=
  b.work.isBlock = true ∧ (b = r ∨ ∃ s, Reaches c r s ∧ s.work.isExpr = true ∧ Calls c s b)

variable (c) in
/-- A block whose value is wanted ends with a signal. -/
structure RaisedAt (r b : Eval F W) : Prop where
  boundary : Boundary c r b
  signals : Signals c b

theorem Boundary.reaches {r b : Eval F W} (h : Boundary c r b) : Reaches c r b := by
  obtain ⟨-, rfl | ⟨s, hreach, -, hcall⟩⟩ := h
  · exact .refl
  · exact hreach.tail hcall

/-- The run of `x` from `w` fails with the error of a signal that no loop took. -/
def Refuses {α : Type} (x : TW F W α) (w : W) : Prop :=
  ∃ w' t, x w = (.error "break/continue used outside of a loop", w', t)

namespace Refuses

variable {α β : Type} {x : TW F W α} {f : α → TW F W β} {a : α} {w w' : W} {t : List (Event F)}

omit [FloatModel F] in
theorem bind (h : x w = (.ok a, w', t)) (hf : Refuses (f a) w') : Refuses (x >>= f) w := by
  obtain ⟨w₂, t₂, hrun⟩ := hf
  exact ⟨w₂, t ++ t₂, by rw [Traced.bind_ok h, hrun]⟩

omit [FloatModel F] in
theorem lift {r : Except String α} (h : r = .ok a) (hf : Refuses (f a) w) : Refuses (Traced.lift r >>= f) w :=
  bind (by rw [h]; rfl) hf

omit [FloatModel F] in
theorem wrap {g : Event F → Event F} (h : x w = (.ok a, w', t)) (hf : Refuses (f a) w') :
    Refuses (Traced.wrap g x >>= f) w := by
  refine bind (t := t.map g) ?_ hf
  unfold Traced.wrap
  rw [h]

end Refuses

omit [FloatModel F] in
theorem armValue_refuses {block : TW F W (Outcome F)} {w : W} (h : Ends block w) : Refuses (armValue block) w := by
  obtain ⟨⟨sig, rest⟩, w', t, hrun, hsig⟩ := h
  unfold armValue
  refine .wrap hrun ?_
  cases sig with
  | normal v => cases hsig
  | ret v => cases hsig
  | brk => exact ⟨_, _, rfl⟩
  | cont => exact ⟨_, _, rfl⟩

/-- Of a block that ends with a signal and does not signal itself, one that it starts ends so too. -/
theorem Signals.next {s : Eval F W} (h : Signals c s) (hs : s.work.isSignal = false) :
    ∃ t, Enters c s t ∧ Signals c t := by
  obtain ⟨u, hfollows, hu⟩ := signals_iff.1 h
  rcases hfollows.cases_head with rfl | ⟨t, hstep, hrest⟩
  · rw [hs] at hu
    cases hu
  · exact ⟨t, hstep, signals_iff.2 ⟨u, hrest, hu⟩⟩

theorem evalElseValue_refuses : ∀ {rest : ElseChain F} {env : Env F} {w : W} {p : Nat},
    Signals c ⟨p, .chain rest env [], w⟩ → Refuses (evalElseValue c rest env) w
  | rest, env, w, p, h => by
    obtain ⟨t, ⟨hcall, -, ht⟩, hsig⟩ := h.next rfl
    cases hcall with
    | else_ => exact armValue_refuses hsig
    | elseCond => cases ht
    | elseThen hc hb =>
      rw [evalElseValue]
      refine .bind hc (.lift hb ?_)
      rw [if_pos rfl]
      exact armValue_refuses hsig
    | elseRest hc hb =>
      rw [evalElseValue]
      refine .bind hc (.lift hb ?_)
      rw [if_neg Bool.false_ne_true]
      exact evalElseValue_refuses hsig

theorem evalArmsValue_refuses : ∀ {arms : MatchArms F} {sv : Value F} {env : Env F} {w : W} {p : Nat},
    Signals c ⟨p, .arms arms sv env [], w⟩ → Refuses (evalArmsValue c arms sv env) w
  | arms, sv, env, w, p, h => by
    obtain ⟨t, ⟨hcall, -, ht⟩, hsig⟩ := h.next rfl
    cases hcall with
    | armElse => exact armValue_refuses hsig
    | threshold => cases ht
    | armLit htest =>
      rw [evalArmsValue, if_pos htest]
      exact armValue_refuses hsig
    | litRest htest =>
      rw [evalArmsValue, if_neg (by rw [htest]; exact Bool.false_ne_true)]
      exact evalArmsValue_refuses hsig
    | armCompare hth hcmp =>
      rw [evalArmsValue]
      refine .wrap hth ?_
      rw [if_pos hcmp]
      exact armValue_refuses hsig
    | compareRest hth hcmp =>
      rw [evalArmsValue]
      refine .wrap hth ?_
      rw [if_neg (by rw [hcmp]; exact Bool.false_ne_true)]
      exact evalArmsValue_refuses hsig

/-- An expression whose block ends with a signal fails. -/
theorem evalExpr_refuses {p : Nat} {e : Expr F} {env : Env F} {w : W} {b : Eval F W}
    (h : Calls c ⟨p, .expr e env, w⟩ b) (hblock : b.work.isBlock = true) (hsig : Signals c b) :
    Refuses (evalExpr c e env) w := by
  cases h with
  | blockThen hc hb =>
    rw [evalExpr]
    refine .bind hc (.lift hb ?_)
    rw [if_pos rfl]
    exact armValue_refuses hsig
  | blockElse hc hb =>
    rw [evalExpr]
    refine .bind hc (.lift hb ?_)
    rw [if_neg Bool.false_ne_true]
    exact evalElseValue_refuses hsig
  | valueArms hs =>
    rw [evalExpr]
    exact .bind hs (evalArmsValue_refuses hsig)
  | _ => cases hblock

/-- A body that ends with a signal fails. -/
theorem evalStatements_refuses {body : List (Stmt F)} {env : Env F} {w : W} (h : Signals c (bodyRun body env w)) :
    Refuses (evalStatements c body env) w := by
  obtain ⟨⟨sig, rest⟩, w', t, hrun, hsig⟩ := h
  unfold evalStatements
  refine .bind hrun ?_
  cases sig with
  | normal v => cases hsig
  | ret v => cases hsig
  | brk => exact ⟨_, _, rfl⟩
  | cont => exact ⟨_, _, rfl⟩

end Metalogos.Walk
