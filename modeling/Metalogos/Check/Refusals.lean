import Metalogos.Check.Marks

/-!
# Refusals of undefined variables

`Held` says which names an evaluation's environment may hold: those the body started with, those bound before it in
the text, and, inside a loop, those that the body of the loop binds anywhere, from an earlier iteration. It is kept by
every evaluation that a run starts (`kept_calls`), so a refused use fails when it is reached, as long as no loop
carries a name around to a place that was refused (`Carried`).
-/
namespace Metalogos.Check

open Metalogos.Lang Metalogos.Lib Metalogos.Walk Metalogos.Compile

variable {F W : Type}

/-! ## The names a statement leaves -/

/-- A name the environment or the set of mutable names has. -/
def HasName (env : Env F) (muts : List String) (x : String) : Prop := env x ≠ none ∨ x ∈ muts

def GainsAt (names : List String) (env : Env F) (muts : List String) (out : Outcome F) : Prop :=
  ∀ x, HasName out.2.1 out.2.2 x → HasName env muts x ∨ x ∈ names

section

variable {env env' : Env F} {muts muts' : List String} {names names' : List String} {out : Outcome F}

theorem GainsAt.refl (sig : ControlFlow F) : GainsAt names env muts (sig, env, muts) := fun _ h => .inl h

theorem GainsAt.mono (h : GainsAt names env muts out) (hsub : ∀ x ∈ names, x ∈ names') :
    GainsAt names' env muts out := fun x hx => (h x hx).imp_right (hsub x)

theorem GainsAt.trans {out' : Outcome F} (h : GainsAt names env muts out)
    (h' : GainsAt names out.2.1 out.2.2 out') : GainsAt names env muts out' := by
  intro x hx
  rcases h' x hx with hx | hx
  · exact h x hx
  · exact .inr hx

theorem hasName_set {x y : String} {v : Value F} (h : HasName (env.set x v) muts y) :
    y = x ∨ HasName env muts y := by
  unfold HasName Env.set at h
  split_ifs at h with hy
  · exact .inl hy
  · exact .inr h

end

variable {c : Interpreter F W}

section

variable {env : Env F} {muts : List String} {names : List String}

theorem keepLast_gains (isLast : Bool) (last : Value F) :
    Traced.Ensures (GainsAt names env muts) (keepLast (W := W) isLast last env muts) :=
  .after fun _ => .pure (.refl _)

theorem evalBlock_gains {isLast : Bool} {last : Value F} {block : TW F W (Outcome F)}
    (h : Traced.Ensures (GainsAt names env muts) block) :
    Traced.Ensures (GainsAt names env muts) (evalBlock isLast last block) := by
  refine .bind h.wrap fun out hout => ?_
  split
  · exact .after fun _ => .pure hout
  · exact .pure hout

theorem eachLoop_gains {bind : Nat → Value F → Env F → Env F} {body : Env F → List String → TW F W (Outcome F)}
    (hbind : ∀ i v env muts x, HasName (bind i v env) muts x → HasName env muts x ∨ x ∈ names)
    (hbody : ∀ env muts, Traced.Ensures (GainsAt names env muts) (body env muts)) :
    ∀ (vs : List (Value F)) (idx : Nat) (env : Env F) (muts : List String),
      Traced.Ensures (GainsAt names env muts) (eachLoop c bind body idx vs env muts)
  | [], _, _, _ => .pure (.refl _)
  | v :: vs, idx, env, muts => by
    unfold eachLoop
    split_ifs
    · exact .after fun _ => .fail
    · refine .bind (hbody _ _).wrap fun out hout => ?_
      have hout' : GainsAt names env muts out := by
        intro x hx
        rcases hout x hx with hx | hx
        · exact hbind _ _ _ _ x hx
        · exact .inr hx
      split
      · exact .pure hout'
      · exact .pure hout'
      · exact (eachLoop_gains hbind hbody vs _ _ _).mono fun _ h => hout'.trans h

theorem whileLoop_gains [FloatModel F] {cond : Env F → TW F W (Value F)} {body : Env F → List String → TW F W (Outcome F)}
    (hbody : ∀ env muts, Traced.Ensures (GainsAt names env muts) (body env muts)) :
    ∀ (n : Nat) (env : Env F) (muts : List String),
      Traced.Ensures (GainsAt names env muts) (whileLoop c cond body n env muts)
  | 0, _, _ => .after fun _ => .fail
  | n + 1, env, muts => by
    unfold whileLoop
    refine .after fun v => .after fun b => ?_
    split_ifs
    · refine .bind (hbody _ _).wrap fun out hout => ?_
      split
      · exact .pure hout
      · exact .pure hout
      · exact (whileLoop_gains hbody n _ _).mono fun _ h => hout.trans h
    · exact .pure (.refl _)

theorem eachStmt_gains {bind : Nat → Value F → Env F → Env F} {body : Env F → List String → TW F W (Outcome F)}
    (hbind : ∀ i v env muts x, HasName (bind i v env) muts x → HasName env muts x ∨ x ∈ names)
    (hbody : ∀ env muts, Traced.Ensures (GainsAt names env muts) (body env muts)) (last v : Value F) :
    Traced.Ensures (GainsAt names env muts) (eachStmt c bind body last v env muts) := by
  refine .after fun _ => ?_
  split
  · refine .after fun _ => .after fun _ => ?_
    split_ifs
    · exact .after fun _ => .fail
    · exact eachLoop_gains hbind hbody _ _ _ _
  · exact .fail

theorem hasName_bindItem {x : String} (hx : x ∈ names) :
    ∀ (i : Nat) (v : Value F) (env : Env F) muts y,
      HasName (bindItem x i v env) muts y → HasName env muts y ∨ y ∈ names := by
  intro i v env muts y hy
  rcases hasName_set hy with rfl | hy
  · exact .inr hx
  · exact .inl hy

theorem hasName_bindIndexItem [FloatModel F] {i x : String} (hi : i ∈ names) (hx : x ∈ names) :
    ∀ (k : Nat) (v : Value F) (env : Env F) muts y,
      HasName (bindIndexItem i x k v env) muts y → HasName env muts y ∨ y ∈ names := by
  intro k v env muts y hy
  rcases hasName_set hy with rfl | hy
  · exact .inr hx
  rcases hasName_set hy with rfl | hy
  · exact .inr hi
  · exact .inl hy

end

variable [FloatModel F]

mutual
/-- A statement leaves the names it found and those it binds. -/
theorem evalStmt_gains : ∀ (s : Stmt F) (isLast : Bool) (last : Value F) (env : Env F) (muts : List String),
    Traced.Ensures (GainsAt (letsStmt s ++ loopVarsStmt s) env muts) (evalStmt c s isLast last env muts)
  | .letBinding x e isMut, _, _, env, muts => by
    refine .after fun v => .after fun _ => .pure fun y hy => ?_
    rcases hasName_set hy with rfl | hy
    · simp [letsStmt]
    · cases isMut <;> simp [letsStmt, HasName] at hy ⊢ <;> tauto
  | .assign x e, _, last, env, muts => by
    unfold evalStmt
    split_ifs with hx
    · refine .after fun v => .after fun _ => .after fun _ => .pure fun y hy => ?_
      rcases hasName_set hy with rfl | hy
      · exact .inl (.inr hx)
      · exact .inl hy
    · exact .after fun _ => .fail
  | .each x it body, _, last, env, muts => by
    refine .after fun v => eachStmt_gains (hasName_bindItem (by simp [loopVarsStmt])) (fun env muts => ?_) last v
    exact (evalStmts_gains body .unit env muts).mono fun _ h =>
      h.mono fun y hy => by
        simp only [namesOf, letsStmt, loopVarsStmt, List.mem_append, List.mem_cons] at hy ⊢
        tauto
  | .eachWithIndex i x it body, _, last, env, muts => by
    refine .after fun v => eachStmt_gains
      (hasName_bindIndexItem (by simp [loopVarsStmt]) (by simp [loopVarsStmt])) (fun env muts => ?_) last v
    exact (evalStmts_gains body .unit env muts).mono fun _ h =>
      h.mono fun y hy => by
        simp only [namesOf, letsStmt, loopVarsStmt, List.mem_append, List.mem_cons] at hy ⊢
        tauto
  | .while_ cnd body, _, last, env, muts =>
    .after fun _ => whileLoop_gains (fun env muts => evalStmts_gains body .unit env muts) _ env muts
  | .ifElseBlock cnd thn rest, isLast, last, env, muts => by
    refine .after fun v => .after fun b => ?_
    split_ifs
    · exact evalBlock_gains ((evalStmts_gains thn .unit env muts).mono fun _ h => h.mono fun y hy => by
        simp only [namesOf, letsStmt, loopVarsStmt, List.mem_append] at hy ⊢
        tauto)
    · exact (evalElse_gains rest isLast last env muts).mono fun _ h => h.mono fun y hy => by
        simp only [letsStmt, loopVarsStmt, List.mem_append] at hy ⊢
        tauto
  | .ifThen cnd body, isLast, last, env, muts => by
    refine .after fun v => .after fun b => ?_
    split_ifs
    · exact evalBlock_gains (evalStmts_gains body .unit env muts)
    · exact keepLast_gains _ _
  | .return_ e, _, _, _, _ => .after fun _ => .after fun _ => .pure (.refl _)
  | .exprStmt e, _, _, _, _ => by
    refine .after fun v => .after fun _ => ?_
    split_ifs <;> exact .pure (.refl _)
  | .match_ s arms, isLast, last, env, muts =>
    .after fun sv => .after fun _ => evalArms_gains arms sv isLast last env muts
  | .break_, _, _, _, _ => .pure (.refl _)
  | .continue_, _, _, _, _ => .pure (.refl _)
  | .memorize _ _, _, _, _, _ => .after fun _ => .after fun _ => keepLast_gains _ _
  | .forget _ _, _, _, _, _ => .after fun _ => .after fun _ => keepLast_gains _ _
  | .relate _ _ _, _, _, _, _ => .after fun _ => .after fun _ => .after fun _ => keepLast_gains _ _

theorem evalStmts_gains : ∀ (ss : List (Stmt F)) (last : Value F) (env : Env F) (muts : List String),
    Traced.Ensures (GainsAt (namesOf ss) env muts) (evalStmts c ss last env muts)
  | [], _, _, _ => .pure (.refl _)
  | s :: rest, last, env, muts => by
    refine .bind (evalStmt_gains s rest.isEmpty last env muts) fun out hout => ?_
    have hfirst : GainsAt (namesOf (s :: rest)) env muts out := hout.mono fun y hy => by
      simp only [namesOf, letsStmts, loopVarsStmts, List.mem_append] at hy ⊢
      tauto
    split
    · refine (evalStmts_gains rest _ _ _).mono fun _ h => hfirst.trans (h.mono fun y hy => ?_)
      simp only [namesOf, letsStmts, loopVarsStmts, List.mem_append] at hy ⊢
      tauto
    · exact .pure hfirst

theorem evalElse_gains : ∀ (rest : ElseChain F) (isLast : Bool) (last : Value F) (env : Env F) (muts : List String),
    Traced.Ensures (GainsAt (letsElse rest ++ loopVarsElse rest) env muts) (evalElse c rest isLast last env muts)
  | .none, _, _, _, _ => keepLast_gains _ _
  | .else_ body, _, _, env, muts => evalBlock_gains (evalStmts_gains body .unit env muts)
  | .elseIf cnd body rest, isLast, last, env, muts => by
    refine .after fun v => .after fun b => ?_
    split_ifs
    · exact evalBlock_gains ((evalStmts_gains body .unit env muts).mono fun _ h => h.mono fun y hy => by
        simp only [namesOf, letsElse, loopVarsElse, List.mem_append] at hy ⊢
        tauto)
    · exact (evalElse_gains rest isLast last env muts).mono fun _ h => h.mono fun y hy => by
        simp only [letsElse, loopVarsElse, List.mem_append] at hy ⊢
        tauto

theorem evalArms_gains : ∀ (arms : MatchArms F) (sv : Value F) (isLast : Bool) (last : Value F) (env : Env F)
    (muts : List String),
    Traced.Ensures (GainsAt (letsArms arms ++ loopVarsArms arms) env muts) (evalArms c arms sv isLast last env muts)
  | .none, _, _, _, _, _ => keepLast_gains _ _
  | .else_ body, _, _, _, env, muts => evalBlock_gains (evalStmts_gains body .unit env muts)
  | .lit test body rest, sv, isLast, last, env, muts => by
    unfold evalArms
    split_ifs
    · exact evalBlock_gains ((evalStmts_gains body .unit env muts).mono fun _ h => h.mono fun y hy => by
        simp only [namesOf, letsArms, loopVarsArms, List.mem_append] at hy ⊢
        tauto)
    · exact (evalArms_gains rest sv isLast last env muts).mono fun _ h => h.mono fun y hy => by
        simp only [letsArms, loopVarsArms, List.mem_append] at hy ⊢
        tauto
  | .compare op th body rest, sv, isLast, last, env, muts => by
    refine .after fun tv => ?_
    split_ifs
    · exact evalBlock_gains ((evalStmts_gains body .unit env muts).mono fun _ h => h.mono fun y hy => by
        simp only [namesOf, letsArms, loopVarsArms, List.mem_append] at hy ⊢
        tauto)
    · exact (evalArms_gains rest sv isLast last env muts).mono fun _ h => h.mono fun y hy => by
        simp only [letsArms, loopVarsArms, List.mem_append] at hy ⊢
        tauto
end

/-! ## What an evaluation may hold -/

omit [FloatModel F] in
theorem bareIdentArg_reference {fn : String} (h : isNameReferenceBuiltin fn = true) (x : String) :
    bareIdentArg c fn (.ident x : Expr F) ≠ none := by
  simp only [isNameReferenceBuiltin, List.mem_cons, List.not_mem_nil, or_false, decide_eq_true_eq] at h
  unfold bareIdentArg
  dsimp only
  split_ifs
  all_goals first
    | exact Option.some_ne_none _
    | (split <;> exact Option.some_ne_none _)
    | tauto

def marksWork : Work F → Nat → List Mark
  | .expr e _, p => marksExpr e p
  | .exprs es _, p => marksExprs es p
  | .callArgs fn es _, p => marksArgs fn es p
  | .stmt s _ _, p => marksStmt s p
  | .stmts ss _ _ _, p => marksStmts ss p
  | .chain rest _ _, p => marksElse rest p
  | .arms arms _ _ _, p => marksArms arms p
  | .eachLoop _ body _ _ _ _, p => .loop p (p + sizeStmts body) (namesOf body) :: marksStmts body p
  | .whileLoop cnd body _ _ _, p =>
    .loop p (p + sizeExpr cnd + sizeStmts body) (namesOf body) ::
      (marksExpr cnd p ++ marksStmts body (p + sizeExpr cnd))

/-- The names an evaluation starts with; a loop over a list adds those of its items. -/
def Holds : Work F → String → Prop
  | .expr _ env, x => HasName env [] x
  | .exprs _ env, x => HasName env [] x
  | .callArgs _ _ env, x => HasName env [] x
  | .stmt _ env muts, x => HasName env muts x
  | .stmts _ _ env muts, x => HasName env muts x
  | .chain _ env muts, x => HasName env muts x
  | .arms _ _ env muts, x => HasName env muts x
  | .eachLoop bind _ _ _ env muts, x => HasName env muts x ∨ ∃ i v env', bind i v env' x ≠ none ∧ env' x = none
  | .whileLoop _ _ _ env muts, x => HasName env muts x

theorem calls_marks {s t : Eval F W} (h : Calls c s t) :
    marksWork t.work t.pos ⊆ marksWork s.work s.pos ∨
      (marksWork t.work t.pos).map Mark.skip ⊆ marksWork s.work s.pos := by
  cases h
  case firstArg p fn e es env w hb =>
    simp only [marksWork, marksArgs, firstMarks]
    split_ifs
    · split
      · exact absurd hb (bareIdentArg_reference ‹_› _)
      · exact .inr (by simp)
    · exact .inl (by simp)
  case eachIndex =>
    simp only [marksWork, marksStmt]
    exact .inl fun m hm => by grind
  all_goals
    left
    simp [marksWork, marksExpr, marksExprs, marksArgs, marksStmt, marksStmts, marksElse, marksArms]

/-! ## Where the names come from -/

section

omit [FloatModel F]

mutual
/-- Every name a statement may leave bound has its mark. -/
theorem marksStmt_binds : ∀ (s : Stmt F) (p : Nat) {x : String}, x ∈ letsStmt s ++ loopVarsStmt s →
    ∃ b, .bind b x false ∈ marksStmt s p
  | .letBinding y e _, p, x, h => by
    obtain rfl : x = y := by simpa [letsStmt, loopVarsStmt] using h
    exact ⟨p + 1 + sizeExpr e, by simp [marksStmt]⟩
  | .each y it body, p, x, h => by
    have h' : x = y ∨ x ∈ namesOf body := by
      simp only [letsStmt, loopVarsStmt, namesOf, List.mem_append, List.mem_cons] at h ⊢
      tauto
    rcases h' with rfl | h'
    · exact ⟨p + 1 + sizeExpr it, by simp [marksStmt]⟩
    · obtain ⟨b, hb⟩ := marksStmts_binds body (p + 1 + sizeExpr it) h'
      exact ⟨b, by simp [marksStmt, hb]⟩
  | .eachWithIndex i y it body, p, x, h => by
    have h' : x = i ∨ x = y ∨ x ∈ namesOf body := by
      simp only [letsStmt, loopVarsStmt, namesOf, List.mem_append, List.mem_cons] at h ⊢
      split_ifs at h <;> simp at h <;> tauto
    rcases h' with rfl | rfl | h'
    · exact ⟨p + 1 + sizeExpr it, by simp [marksStmt]⟩
    · exact ⟨p + 1 + sizeExpr it, by simp [marksStmt]⟩
    · obtain ⟨b, hb⟩ := marksStmts_binds body (p + 1 + sizeExpr it) h'
      exact ⟨b, by simp [marksStmt, hb]⟩
  | .while_ cnd body, p, x, h => by
    obtain ⟨b, hb⟩ := marksStmts_binds body (p + 1 + sizeExpr cnd) h
    exact ⟨b, by simp [marksStmt, hb]⟩
  | .ifElseBlock cnd body rest, p, x, h => by
    have h' : x ∈ namesOf body ∨ x ∈ letsElse rest ++ loopVarsElse rest := by
      simp only [letsStmt, loopVarsStmt, namesOf, List.mem_append] at h ⊢
      tauto
    rcases h' with h' | h'
    · obtain ⟨b, hb⟩ := marksStmts_binds body (p + 1 + sizeExpr cnd) h'
      exact ⟨b, by simp [marksStmt, hb]⟩
    · obtain ⟨b, hb⟩ := marksElse_binds rest (p + 1 + sizeExpr cnd + sizeStmts body) h'
      exact ⟨b, by simp [marksStmt, hb]⟩
  | .ifThen cnd body, p, x, h => by
    obtain ⟨b, hb⟩ := marksStmts_binds body (p + 1 + sizeExpr cnd) h
    exact ⟨b, by simp [marksStmt, hb]⟩
  | .match_ s arms, p, x, h => by
    obtain ⟨b, hb⟩ := marksArms_binds arms (p + 1 + sizeExpr s) h
    exact ⟨b, by simp [marksStmt, hb]⟩
  | .assign _ _, _, _, h => by simp [letsStmt, loopVarsStmt] at h
  | .return_ _, _, _, h => by simp [letsStmt, loopVarsStmt] at h
  | .exprStmt _, _, _, h => by simp [letsStmt, loopVarsStmt] at h
  | .break_, _, _, h => by simp [letsStmt, loopVarsStmt] at h
  | .continue_, _, _, h => by simp [letsStmt, loopVarsStmt] at h
  | .memorize _ _, _, _, h => by simp [letsStmt, loopVarsStmt] at h
  | .forget _ _, _, _, h => by simp [letsStmt, loopVarsStmt] at h
  | .relate _ _ _, _, _, h => by simp [letsStmt, loopVarsStmt] at h

theorem marksStmts_binds : ∀ (ss : List (Stmt F)) (p : Nat) {x : String}, x ∈ namesOf ss →
    ∃ b, .bind b x false ∈ marksStmts ss p
  | [], _, _, h => by simp [namesOf, letsStmts, loopVarsStmts] at h
  | s :: ss, p, x, h => by
    have h' : x ∈ letsStmt s ++ loopVarsStmt s ∨ x ∈ namesOf ss := by
      simp only [letsStmts, loopVarsStmts, namesOf, List.mem_append] at h ⊢
      tauto
    rcases h' with h' | h'
    · obtain ⟨b, hb⟩ := marksStmt_binds s p h'
      exact ⟨b, by simp [marksStmts, hb]⟩
    · obtain ⟨b, hb⟩ := marksStmts_binds ss (p + sizeStmt s) h'
      exact ⟨b, by simp [marksStmts, hb]⟩

theorem marksElse_binds : ∀ (rest : ElseChain F) (p : Nat) {x : String}, x ∈ letsElse rest ++ loopVarsElse rest →
    ∃ b, .bind b x false ∈ marksElse rest p
  | .none, _, _, h => by simp [letsElse, loopVarsElse] at h
  | .else_ body, p, _, h => marksStmts_binds body p h
  | .elseIf cnd body rest, p, x, h => by
    have h' : x ∈ namesOf body ∨ x ∈ letsElse rest ++ loopVarsElse rest := by
      simp only [letsElse, loopVarsElse, namesOf, List.mem_append] at h ⊢
      tauto
    rcases h' with h' | h'
    · obtain ⟨b, hb⟩ := marksStmts_binds body (p + sizeExpr cnd) h'
      exact ⟨b, by simp [marksElse, hb]⟩
    · obtain ⟨b, hb⟩ := marksElse_binds rest (p + sizeExpr cnd + sizeStmts body) h'
      exact ⟨b, by simp [marksElse, hb]⟩

theorem marksArms_binds : ∀ (arms : MatchArms F) (p : Nat) {x : String}, x ∈ letsArms arms ++ loopVarsArms arms →
    ∃ b, .bind b x false ∈ marksArms arms p
  | .none, _, _, h => by simp [letsArms, loopVarsArms] at h
  | .else_ body, p, _, h => marksStmts_binds body p h
  | .lit _ body rest, p, x, h => by
    have h' : x ∈ namesOf body ∨ x ∈ letsArms rest ++ loopVarsArms rest := by
      simp only [letsArms, loopVarsArms, namesOf, List.mem_append] at h ⊢
      tauto
    rcases h' with h' | h'
    · obtain ⟨b, hb⟩ := marksStmts_binds body p h'
      exact ⟨b, by simp [marksArms, hb]⟩
    · obtain ⟨b, hb⟩ := marksArms_binds rest (p + sizeStmts body) h'
      exact ⟨b, by simp [marksArms, hb]⟩
  | .compare _ th body rest, p, x, h => by
    have h' : x ∈ namesOf body ∨ x ∈ letsArms rest ++ loopVarsArms rest := by
      simp only [letsArms, loopVarsArms, namesOf, List.mem_append] at h ⊢
      tauto
    rcases h' with h' | h'
    · obtain ⟨b, hb⟩ := marksStmts_binds body (p + sizeExpr th) h'
      exact ⟨b, by simp [marksArms, hb]⟩
    · obtain ⟨b, hb⟩ := marksArms_binds rest (p + sizeExpr th + sizeStmts body) h'
      exact ⟨b, by simp [marksArms, hb]⟩
end

end

/-- Where a name of an evaluation of the text from `p` to `q` may come from, in a body with marks `ms` that starts
with the names `start`. -/
inductive Source (start : List String) (ms : List Mark) (p q : Nat) (x : String) : Prop where
  | start (h : x ∈ start)
  | before {b} (h : .bind b x false ∈ ms) (hb : b ≤ p)
  | iteration {lo hi names} (h : .loop lo hi names ∈ ms) (hlo : lo ≤ p) (hhi : q ≤ hi) (hx : x ∈ names)

theorem Source.mono {start : List String} {ms ms' : List Mark} {p q p' q' : Nat} {x : String}
    (h : Source start ms p q x) (hms : ms ⊆ ms') (hp : p ≤ p') (hq : q' ≤ q) : Source start ms' p' q' x := by
  cases h with
  | start h => exact .start h
  | before h hb => exact .before (hms h) (by omega)
  | iteration h hlo hhi hx => exact .iteration (hms h) (by omega) (by omega) hx

/-- A new name of an evaluation was bound before it, or by the body of the loop it is in. -/
theorem calls_holds {s t : Eval F W} (h : Calls c s t) {x : String} (hx : Holds t.work x) :
    Holds s.work x ∨ Source [] (marksWork s.work s.pos) t.pos t.stop x := by
  cases h
  case next p s ss last env muts w v env' muts' w' u hs =>
    rcases evalStmt_gains s _ _ _ _ _ _ _ _ hs x hx with hx | hx
    · exact .inl hx
    · obtain ⟨b, hb⟩ := marksStmt_binds s p hx
      exact .inr (.before (by simp [marksWork, marksStmts, hb]) ((marksStmt_within s p).bind hb).2)
  case each p y it body env muts w vs w' u hit hlim =>
    rcases hx with hx | ⟨i, v, env', hne, heq⟩
    · exact .inl hx
    · obtain rfl : x = y := by
        by_contra hxy
        exact hne (by simpa [bindItem, Env.set, hxy] using heq)
      exact .inr (.before (by simp [marksWork, marksStmt]) (Nat.le_refl (p + 1 + sizeExpr it)))
  case eachIndex p i y it body env muts w vs w' u hit hlim =>
    rcases hx with hx | ⟨k, v, env', hne, heq⟩
    · exact .inl hx
    · by_cases hxy : x = y
      · subst hxy
        exact .inr (.before (by simp [marksWork, marksStmt]) (Nat.le_refl (p + 1 + sizeExpr it)))
      · obtain rfl : x = i := by
          by_contra hxi
          exact hne (by simpa [bindIndexItem, Env.set, hxy, hxi] using heq)
        exact .inr (.before (by simp [marksWork, marksStmt]) (Nat.le_refl (p + 1 + sizeExpr it)))
  case iteration p bind body idx v vs env muts w hlim =>
    rcases hx with hx | hx
    · by_cases henv : env x = none
      · exact .inl (.inr ⟨idx, v, env, hx, henv⟩)
      · exact .inl (.inl (.inl henv))
    · exact .inl (.inl (.inr hx))
  case nextIteration p bind body idx v vs env muts w out w' u hlim hrun hgo hbrk =>
    rcases hx with hx | hx
    · rcases evalStmts_gains body _ _ _ _ _ _ _ hrun x hx with hx | hx
      · rcases hx with hx | hx
        · by_cases henv : env x = none
          · exact .inl (.inr ⟨idx, v, env, hx, henv⟩)
          · exact .inl (.inl (.inl henv))
        · exact .inl (.inl (.inr hx))
      · have hloop : .loop p (p + sizeStmts body) (namesOf body) ∈
            marksWork (.eachLoop bind body idx (v :: vs) env muts) p := by simp [marksWork]
        exact .inr (.iteration hloop (Nat.le_refl _) (Nat.le_refl _) hx)
    · exact .inl (.inr hx)
  case whileNext p cnd body n env muts w v w' u out w'' u' hc hb hrun hgo hbrk =>
    rcases evalStmts_gains body _ _ _ _ _ _ _ hrun x hx with hx | hx
    · exact .inl hx
    · have hloop : .loop p (p + sizeExpr cnd + sizeStmts body) (namesOf body) ∈
          marksWork (.whileLoop cnd body (n + 1) env muts) p := by simp [marksWork]
      exact .inr (.iteration hloop (Nat.le_refl _) (by simp only [Eval.stop, Work.size]; omega) hx)
  all_goals
    left
    simp only [Holds, HasName, List.not_mem_nil, or_false] at hx ⊢
    tauto

section

omit [FloatModel F]

variable {start : List String} {ms : List Mark}

/-- The invariant of a run: an evaluation stands in the text, with names that the text accounts for, or in a part of
the text that the walk skips. -/
def Kept (start : List String) (ms : List Mark) (s : Eval F W) : Prop :=
  (marksWork s.work s.pos ⊆ ms ∧ ∀ x, Holds s.work x → Source start ms s.pos s.stop x) ∨
    (marksWork s.work s.pos).map Mark.skip ⊆ ms

theorem skip_skip (ms : List Mark) : (ms.map Mark.skip).map Mark.skip = ms.map Mark.skip := by
  rw [List.map_map]
  congr 1
  funext m
  cases m <;> rfl

end

theorem kept_calls {start : List String} {ms : List Mark} {s t : Eval F W} (h : Calls c s t) (hs : Kept start ms s) :
    Kept start ms t := by
  obtain ⟨hpos, hstop⟩ := h.span
  rcases hs with ⟨hsub, hnames⟩ | hskip
  · rcases calls_marks h with ht | ht
    · refine .inl ⟨List.Subset.trans ht hsub, fun x hx => ?_⟩
      rcases calls_holds h hx with hx | hx
      · exact (hnames x hx).mono (List.Subset.refl ms) hpos hstop
      · cases hx with
        | start hx => cases hx
        | before hb hle => exact .before (hsub hb) hle
        | iteration hl hlo hhi hx => exact .iteration (hsub hl) hlo hhi hx
    · exact .inr (List.Subset.trans ht hsub)
  · rcases calls_marks h with ht | ht
    · exact .inr (List.Subset.trans (List.map_subset _ ht) hskip)
    · refine .inr (List.Subset.trans ?_ hskip)
      rw [← skip_skip]
      exact List.map_subset _ ht

/-! ## What is refused, and what is not -/

/-- A loop whose body binds a name that is refused in it. -/
def carried (ms : List Mark) (es : List SpannedError) : Bool :=
  ms.any fun
    | .loop lo hi names => es.any fun e => lo ≤ e.pos && e.pos < hi &&
        names.any fun x => e = undefinedRead e.pos x || e = undefinedTarget e.pos x
    | _ => false

theorem not_carried {ms : List Mark} {es : List SpannedError} (h : carried ms es = false) {lo hi p : Nat}
    {names : List String} {x : String} (hl : .loop lo hi names ∈ ms) (hlo : lo ≤ p) (hhi : p < hi) (hx : x ∈ names) :
    undefinedRead p x ∉ es ∧ undefinedTarget p x ∉ es := by
  simp only [carried, List.any_eq_false] at h
  have hloop := h _ hl
  simp only [List.any_eq_true, not_exists, not_and] at hloop
  constructor
  · intro he
    refine hloop _ he ?_
    simp only [Bool.and_eq_true, decide_eq_true_eq, List.any_eq_true, Bool.or_eq_true]
    exact ⟨⟨hlo, hhi⟩, x, hx, .inl rfl⟩
  · intro he
    refine hloop _ he ?_
    simp only [Bool.and_eq_true, decide_eq_true_eq, List.any_eq_true, Bool.or_eq_true]
    exact ⟨⟨hlo, hhi⟩, x, hx, .inr rfl⟩

/-- A refused use fails when a run reaches it. -/
def RefusedFails (c : Interpreter F W) (es : List SpannedError) (s : Eval F W) : Prop :=
  (∀ x env, s.work = .expr (.ident x) env → undefinedRead s.pos x ∈ es →
    (evalExpr c (.ident x) env s.world).1 = .error (codedError "UNDEFINED_VARIABLE" ("undefined variable: " ++ x))) ∧
  ∀ x e env muts, s.work = .stmt (.assign x e) env muts → undefinedTarget s.pos x ∈ es → ∀ isLast last,
    (evalStmt c (.assign x e) isLast last env muts s.world).1 = .error (immutabilityErrorText x)

/-- A name of the start, or bound before `p` in the text. -/
def BoundBefore (start : List String) (ms : List Mark) (p : Nat) (x : String) : Prop :=
  x ∈ start ∨ ∃ b skipped, .bind b x skipped ∈ ms ∧ b ≤ p

/-- Every read that is not refused is of a name bound before it. -/
def PassedBound (start : List String) (ms : List Mark) (es : List SpannedError) : Prop :=
  ∀ p x skipped, .read p x skipped ∈ ms → undefinedRead p x ∉ es → BoundBefore start ms p x

/-- Every read that the walk skips is of a name bound before it. -/
def SkippedBound (start : List String) (ms : List Mark) : Prop :=
  ∀ p x, .read p x true ∈ ms → BoundBefore start ms p x

section

variable {d : Declared} {body : List (Stmt F)} {σ : VarScope}

omit [FloatModel F] in
theorem passedBound_iff :
    PassedBound σ.bound (marksStmts body 0) (checkStmtsVars d body 0 σ).2 ↔
      SkippedBound σ.bound (marksStmts body 0) := by
  have hr := checkStmtsVars_reports d body 0 σ
  have hw := marksStmts_within body 0
  constructor
  · intro h p x hx
    refine h p x true hx fun he => ?_
    have hfree := ((hr.read p x).1 he).1
    cases hw.one hx hfree
  · intro h p x skipped hx hne
    cases skipped with
    | true => exact h p x hx
    | false =>
      by_contra hnb
      simp only [BoundBefore, not_or, not_exists, not_and] at hnb
      refine hne ((hr.read p x).2 ⟨hx, hnb.1, fun b hb => ?_⟩)
      have := hnb.2 b false hb
      omega

omit [FloatModel F] in
/-- A reached use of a name that the evaluation has is not refused. -/
theorem Kept.passes {s : Eval F W} (hs : Kept σ.bound (marksStmts body 0) s)
    (hc : carried (marksStmts body 0) (checkStmtsVars d body 0 σ).2 = false) :
    (∀ x env, s.work = .expr (.ident x) env → HasName env [] x →
      undefinedRead s.pos x ∉ (checkStmtsVars d body 0 σ).2) ∧
    ∀ x e env muts, s.work = .stmt (.assign x e) env muts → HasName env muts x →
      undefinedTarget s.pos x ∉ (checkStmtsVars d body 0 σ).2 := by
  have hr := checkStmtsVars_reports d body 0 σ
  have hw := marksStmts_within body 0
  obtain ⟨p, work, w⟩ := s
  constructor
  · rintro x env rfl hx he
    obtain ⟨hfree, hstart, hbinds⟩ := (hr.read p x).1 he
    rcases hs with ⟨-, hnames⟩ | hskip
    · cases hnames x hx with
      | start h => exact hstart h
      | before h hb =>
        have := hbinds _ h
        dsimp only at hb
        omega
      | iteration h hlo hhi hx =>
        refine (not_carried hc h hlo ?_ hx).1 he
        dsimp only [Eval.stop, Work.size, sizeExpr] at hhi ⊢
        omega
    · have hread : .read p x true ∈ marksStmts body 0 := hskip (by simp [marksWork, marksExpr, Mark.skip])
      cases hw.one hread hfree
  · rintro x e env muts rfl hx he
    obtain ⟨a, hfree, hstart, hbinds⟩ := (hr.assign p x).1 he
    rcases hs with ⟨-, hnames⟩ | hskip
    · cases hnames x hx with
      | start h => exact hstart h
      | before h hb =>
        have := hbinds _ h
        have := hw.assign hfree
        dsimp only at hb
        omega
      | iteration h hlo hhi hx =>
        refine (not_carried hc h hlo ?_ hx).2 he
        dsimp only [Eval.stop, Work.size, sizeStmt] at hhi ⊢
        omega
    · have hassign : .assign p (p + 1 + sizeExpr e) x true ∈ marksStmts body 0 :=
        hskip (by simp [marksWork, marksStmt, Mark.skip])
      cases hw.target hassign hfree

end

/-- With the entities as the only variables of the interpreter: no run gets past a refused use, unless a loop carries
the name around; and every read that is not refused is of a name bound before it if and only if those that the walk
skips are. -/
theorem refusals_true (c : Interpreter F W) (d : Declared) (body : List (Stmt F)) (params : List (String × String))
    (typeAlias : String → Option String) (entityNames : List String) (entityOpaque : String → Option String)
    (hglobals : ∀ x, c.globals x ≠ none → x ∈ entityNames) :
    (carried (marksStmts body 0) (checkPatternVariables d body params typeAlias entityNames entityOpaque) = false →
      ∀ env w s, (∀ x, env x ≠ none → x ∈ params.map (·.1)) → Reaches c (bodyRun body env w) s →
        RefusedFails c (checkPatternVariables d body params typeAlias entityNames entityOpaque) s) ∧
    (PassedBound (entityNames ++ params.map (·.1)) (marksStmts body 0)
        (checkPatternVariables d body params typeAlias entityNames entityOpaque) ↔
      SkippedBound (entityNames ++ params.map (·.1)) (marksStmts body 0)) := by
  refine ⟨fun hc env w s henv hreach => ?_,
    passedBound_iff (σ := startScope params typeAlias entityNames entityOpaque)⟩
  have hkept : Kept (entityNames ++ params.map (·.1)) (marksStmts body 0) s := by
    refine hreach.invariant (fun s t hst hs => kept_calls hst hs) (.inl ⟨List.Subset.refl _, fun x hx => ?_⟩)
    exact .start (List.mem_append_right _ (henv x (by simpa [Holds, bodyRun, HasName] using hx)))
  obtain ⟨hread, hassign⟩ := hkept.passes (σ := startScope params typeAlias entityNames entityOpaque) hc
  have hstart := (checkStmtsVars_reports d body 0 (startScope params typeAlias entityNames entityOpaque))
  constructor
  · intro x env' hwork he
    have hnone : env' x = none := by
      by_contra hx
      exact hread x env' hwork (.inl hx) he
    have hglobal : c.globals x = none := by
      by_contra hx
      exact ((hstart.read _ x).1 he).2.1 (List.mem_append_left _ (hglobals x hx))
    simp only [evalExpr, readVar, hnone, hglobal]
    rfl
  · intro x e env' muts hwork he isLast last
    have hmuts : x ∉ muts := fun hx => hassign x e env' muts hwork (.inr hx) he
    simp only [evalStmt, hmuts, if_false]
    rfl

namespace Sample

def nothingDeclared : Declared := ⟨[], fun _ => none, fun _ => none⟩

/-- From the second item on a name is read; of `y`, the one that the item before has bound. -/
def looped (name : String) : List (Stmt Int) :=
  [.letBinding "seen" (.boolLit false) true,
    .each "x" (.ident "xs")
      [.ifThen (.ident "seen") [.exprStmt (.ident name)],
        .letBinding "y" (.ident "x") false,
        .assign "seen" (.boolLit true)]]

def xsEnv : Env Int := fun x => if x = "xs" then some (.list [.float 1, .float 2]) else none

theorem xsEnv_names (x : String) (hx : xsEnv x ≠ none) : x ∈ [("xs", "List")].map Prod.fst := by
  by_contra hne
  have hxs : x ≠ "xs" := by simpa using hne
  exact hx (by simp [xsEnv, hxs])

theorem reaches_second (name : String) : ∃ env,
    Reaches noCallees (bodyRun (looped name) xsEnv ()) ⟨7, .expr (.ident name) env, ()⟩ ∧ env "y" = some (.float 1) := by
  refine ⟨_, .head (.next rfl) <| .head .first <| .head (.each rfl (by decide)) <|
    .head (.nextIteration (by decide) rfl nofun nofun) <| .head (.iteration (by decide)) <| .head .first <|
    .head (.guarded rfl rfl) <| .head .first <| .head .exprStmt .refl, rfl⟩

/-- The first argument of `render` is evaluated here, and not walked. -/
example : checkPatternVariables nothingDeclared
    [.exprStmt (.fnCall "render" [.binaryOp (.stringLit "Page") .add (.ident "y")] 1 : Expr Int)] [] (fun _ => none) []
    (fun _ => none) = [] := by decide

end Sample

/-- The read of `z` in the second round fails, where `y` is bound by the first. -/
theorem refusals_true_looped : ∃ env, env "y" = some (.float 1) ∧
    RefusedFails noCallees [undefinedRead 7 "z"] (⟨7, .expr (.ident "z") env, ()⟩ : Eval Int Unit) ∧
    (PassedBound ["xs"] (marksStmts (Sample.looped "z") 0) [undefinedRead 7 "z"] ↔
      SkippedBound ["xs"] (marksStmts (Sample.looped "z") 0)) := by
  obtain ⟨env, hreach, hy⟩ := Sample.reaches_second "z"
  have h := refusals_true noCallees Sample.nothingDeclared (Sample.looped "z") [("xs", "List")] (fun _ => none) []
    (fun _ => none) (fun x hx => absurd rfl hx)
  have hes : checkPatternVariables Sample.nothingDeclared (Sample.looped "z") [("xs", "List")] (fun _ => none) []
      (fun _ => none) = [undefinedRead 7 "z"] := by decide
  rw [hes] at h
  exact ⟨env, hy, h.1 (by decide) Sample.xsEnv () _ Sample.xsEnv_names hreach, h.2⟩

theorem refusals_false : ¬ ∀ (c : Interpreter Int Unit) (d : Declared) (body : List (Stmt Int))
    (params : List (String × String)) (typeAlias : String → Option String) (entityNames : List String)
    (entityOpaque : String → Option String), (∀ x, c.globals x ≠ none → x ∈ entityNames) →
    ∀ env w s, (∀ x, env x ≠ none → x ∈ params.map (·.1)) → Reaches c (bodyRun body env w) s →
      RefusedFails c (checkPatternVariables d body params typeAlias entityNames entityOpaque) s := by
  intro h
  obtain ⟨env, hreach, hy⟩ := Sample.reaches_second "y"
  have hrefused : undefinedRead 7 "y" ∈ checkPatternVariables Sample.nothingDeclared (Sample.looped "y")
      [("xs", "List")] (fun _ => none) [] (fun _ => none) := by decide
  have hfails := (h noCallees Sample.nothingDeclared (Sample.looped "y") [("xs", "List")] (fun _ => none) []
    (fun _ => none) (fun x hx => absurd rfl hx) Sample.xsEnv () _ Sample.xsEnv_names hreach).1 "y" env rfl hrefused
  have hok : (evalExpr noCallees (.ident "y") env ()).1 = .ok (.float 1) := by
    simp only [evalExpr, readVar, hy]
    rfl
  rw [hok] at hfails
  cases hfails

end Metalogos.Check
