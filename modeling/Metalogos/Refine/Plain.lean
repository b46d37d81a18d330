import Metalogos.Refine.Bodies

/-!
# Bodies without block expressions

In a body whose expressions hold no block `if`, no `match` in value position and no index access,
nothing is ever stored while operands wait and no value register is open. Most of what `Clean` asks
of a run is then true of every run; what is left is `Tame`: no refused assignment, no loop at its
limit or over 2^53 items, `!=` on comparable operands only, no response as a statement.

* `evalStmts_inBody`: what such a body can emit, by induction on it;
* `clean_of_tame`: tame events of such a body are clean;
* `plain_body_correct`: an explicit return, or an error, is the machine's.
-/
namespace Metalogos.Refine

open Metalogos.Lang Metalogos.Machine Metalogos.Compile Metalogos.Walk Metalogos.Lib

variable {F W : Type}

/-! ## Events of plain bodies -/

/-- An event of an expression without blocks or index access. -/
def InExpr : Event F → Prop
  | .read _ _ | .ne _ _ => True
  | .pend e => InExpr e
  | _ => False

/-- An event of statements over such expressions. -/
def InBody : Event F → Prop
  | .index _ _ | .arm _ => False
  | .pend e => InExpr e
  | .loop e | .blk _ e => InBody e
  | _ => True

theorem InExpr.inBody {e : Event F} (h : InExpr e) : InBody e := by
  cases e <;> first | exact h.elim | exact h

section

variable [FloatModel F] {c : Interpreter F W} {p : Policy F} {k : Nat}

open Traced (Emits)

omit [FloatModel F] in
theorem readVar_inExpr {env : Env F} {x : String} : Emits InExpr (readVar c env x) := by
  unfold readVar
  split
  · exact .bind (.tell trivial) fun _ => .pure
  · exact .fail

theorem applyBinop_inExpr {l r : Value F} {op : BinOp} :
    Emits InExpr (applyBinop l op r : TW F W (Value F)) := by
  unfold applyBinop
  split
  · exact .bind (.tell trivial) fun _ => .lift
  · exact .lift

omit [FloatModel F] in
theorem callResolved_inExpr {shown : String} {vs : List (Value F)} {callee : Callee} :
    Emits InExpr (callResolved c shown vs callee) := by
  unfold callResolved
  split
  · split
    · exact .fail
    · exact .host
  · exact .host

/-- A condition and the branch it picks. -/
theorem emits_cond {α : Type} {P : Event F → Prop} {x : TW F W (Value F)} {a b : TW F W α}
    (hx : Emits P x) (ha : Emits P a) (hb : Emits P b) :
    Emits P (do
      let v ← x
      let t ← Traced.lift v.asBool
      if t then a else b) :=
  hx.bind fun _ => .bind .lift fun t => by cases t <;> assumption

mutual
theorem evalExpr_inExpr (hb : p.block = false) (hi : p.index = false) : ∀ (e : Expr F) {k : Nat}
    {Γ : Scope} {env : Env F}, okExpr p k Γ e = true → Emits InExpr (evalExpr c e env)
  | .stringLit _, _, _, _, _ | .floatLit _, _, _, _, _ | .boolLit _, _, _, _, _ => by
    simp only [evalExpr]
    exact .pure
  | .ident x, _, _, _, _ => by
    simp only [evalExpr]
    exact readVar_inExpr
  | .fieldAccess e f, _, _, _, h => by
    simp only [okExpr] at h
    simp only [evalExpr]
    exact (evalExpr_inExpr hb hi e h).bind fun _ => .lift
  | .fnCall f args line, _, _, _, h => by
    simp only [okExpr, Bool.and_eq_true] at h
    simp only [evalExpr]
    refine .bind (evalCallArgs_inExpr hb hi args h.2) fun vs => ?_
    split
    · exact callResolved_inExpr
    · exact .fail
  | .qualifiedCall ns f args, _, _, _, h => by
    simp only [okExpr, Bool.and_eq_true] at h
    simp only [evalExpr]
    refine .bind (evalExprs_inExpr hb hi args h.2) fun vs => ?_
    split
    · exact callResolved_inExpr
    · exact .fail
  | .binaryOp l op r, _, _, _, h => by
    simp only [okExpr, Bool.and_eq_true] at h
    have hl {env : Env F} : Emits InExpr (evalExpr c l env) := evalExpr_inExpr hb hi l h.1
    have hr {env : Env F} : Emits InExpr (evalExpr c r env) := evalExpr_inExpr hb hi r h.2
    cases op with
    | and | or =>
      simp only [evalExpr]
      refine hl.bind fun a => ?_
      split
      · first | exact hr.bind fun _ => .pure | exact .pure
      · first | exact .pure | exact hr.bind fun _ => .pure
    | _ =>
      simp only [evalExpr]
      exact hl.bind fun a => .bind (.wrap hr) fun b => applyBinop_inExpr
  | .ifElse cnd t e, _, _, _, h => by
    simp only [okExpr, Bool.and_eq_true] at h
    simp only [evalExpr]
    exact emits_cond (evalExpr_inExpr hb hi cnd h.1.1) (evalExpr_inExpr hb hi t h.1.2)
      (evalExpr_inExpr hb hi e h.2)
  | .list items, _, _, _, h => by
    simp only [okExpr] at h
    simp only [evalExpr]
    exact (evalExprs_inExpr hb hi items h).bind fun _ => .pure
  | .indexAccess _ _, _, _, _, h => by simp [okExpr, hi] at h
  | .structLit keys values, _, _, _, h => by
    simp only [okExpr, Bool.and_eq_true] at h
    simp only [evalExpr]
    exact (evalExprs_inExpr hb hi values h.2).bind fun _ => .pure
  | .blockIfElse _ _ _, _, _, _, h => by simp [okExpr, hb] at h
  | .matchExpr _ _, _, _, _, h => by simp [okExpr] at h
  | .try_ e, 0, _, _, h => by simp [okExpr] at h
  | .try_ e, k + 1, _, _, h => by
    simp only [okExpr] at h
    simp only [evalExpr]
    exact .catching (evalExpr_inExpr hb hi e h)
  | .handleSource _, _, _, _, _ => by
    simp only [evalExpr]
    exact .host
  | .provBind _ e, _, _, _, h => by
    simp only [okExpr] at h
    simp only [evalExpr]
    exact .bind (.wrap (evalExpr_inExpr hb hi e h)) fun _ => .host

theorem evalExprs_inExpr (hb : p.block = false) (hi : p.index = false) : ∀ (es : List (Expr F))
    {k : Nat} {Γ : Scope} {env : Env F}, okExprs p k Γ es = true →
    Emits InExpr (evalExprs c es env)
  | [], _, _, _, _ => by
    simp only [evalExprs]
    exact .pure
  | e :: es, _, _, _, h => by
    simp only [okExprs, Bool.and_eq_true] at h
    simp only [evalExprs]
    refine .bind (evalExpr_inExpr hb hi e h.1) fun _ => ?_
    exact .bind (.wrap (evalExprs_inExpr hb hi es h.2)) fun _ => .pure

theorem evalCallArgs_inExpr (hb : p.block = false) (hi : p.index = false) {fn : String} :
    ∀ (es : List (Expr F)) {k : Nat} {Γ : Scope} {env : Env F}, okExprs p k Γ es = true →
    Emits InExpr (evalCallArgs c fn es env)
  | [], _, _, _, _ => by
    simp only [evalCallArgs]
    exact .pure
  | e :: es, _, _, _, h => by
    simp only [okExprs, Bool.and_eq_true] at h
    simp only [evalCallArgs]
    have hes (v : Value F) {env : Env F} : Emits InExpr (do
        let vs ← Traced.wrap .pend (evalExprs c es env)
        pure (v :: vs)) := .bind (.wrap (evalExprs_inExpr hb hi es h.2)) fun _ => .pure
    split
    · exact .bind .lift fun v => hes v
    · exact .bind (evalExpr_inExpr hb hi e h.1) fun v => hes v
end

/-! ### Statements -/

omit [FloatModel F] in
theorem keepLast_inBody {isLast : Bool} {last : Value F} {env : Env F} {muts : List String} :
    Emits InBody (keepLast isLast last env muts : TW F W (Outcome F)) :=
  .bind (.tell trivial) fun _ => .pure

omit [FloatModel F] in
theorem evalBlock_inBody {isLast : Bool} {last : Value F} {block : TW F W (Outcome F)}
    (h : Emits InBody block) : Emits InBody (evalBlock isLast last block) := by
  unfold evalBlock
  refine .bind (.wrap h) fun out => ?_
  split
  · exact .bind (.tell trivial) fun _ => .pure
  · exact .pure

theorem whileLoop_inBody {cond : Env F → TW F W (Value F)}
    {body : Env F → List String → TW F W (Outcome F)} (hc : ∀ env, Emits InBody (cond env))
    (hb : ∀ env muts, Emits InBody (body env muts)) :
    ∀ (n : Nat) (env : Env F) (muts : List String), Emits InBody (whileLoop c cond body n env muts)
  | 0, _, _ => by
    unfold whileLoop
    exact .bind (.tell trivial) fun _ => .fail
  | n + 1, env, muts => by
    unfold whileLoop
    refine emits_cond (hc env) (.bind (.wrap (hb env muts)) fun out => ?_) .pure
    split
    · exact .pure
    · exact .pure
    · exact whileLoop_inBody hc hb n _ _

omit [FloatModel F] in
theorem eachLoop_inBody {bind : Nat → Value F → Env F → Env F}
    {body : Env F → List String → TW F W (Outcome F)}
    (hb : ∀ env muts, Emits InBody (body env muts)) :
    ∀ (vs : List (Value F)) (i : Nat) (env : Env F) (muts : List String),
    Emits InBody (eachLoop c bind body i vs env muts)
  | [], _, _, _ => by
    unfold eachLoop
    exact .pure
  | v :: vs, i, env, muts => by
    unfold eachLoop
    split
    · exact .bind (.tell trivial) fun _ => .fail
    · refine .bind (.wrap (hb _ _)) fun out => ?_
      split
      · exact .pure
      · exact .pure
      · exact eachLoop_inBody hb vs _ _ _

omit [FloatModel F] in
theorem eachStmt_inBody {bind : Nat → Value F → Env F → Env F}
    {body : Env F → List String → TW F W (Outcome F)} {last it : Value F} {env : Env F}
    {muts : List String} (hb : ∀ env muts, Emits InBody (body env muts)) :
    Emits InBody (eachStmt c bind body last it env muts) := by
  unfold eachStmt
  refine .bind (.tell trivial) fun _ => ?_
  split
  · refine .bind (.tell trivial) fun _ => .bind (.tell trivial) fun _ => ?_
    split
    · exact .bind (.tell trivial) fun _ => .fail
    · exact eachLoop_inBody hb _ _ _ _
  · exact .fail

theorem evalExpr_inBody (hb : p.block = false) (hi : p.index = false) {e : Expr F} {k : Nat}
    {Γ : Scope} {env : Env F} (h : okExpr p k Γ e = true) : Emits InBody (evalExpr c e env) :=
  (evalExpr_inExpr hb hi e h).mono fun _ => InExpr.inBody

mutual
theorem evalStmt_inBody (hb : p.block = false) (hi : p.index = false) : ∀ (s : Stmt F) {k : Nat}
    {mode : Mode} {fresh isLast : Bool} {Γ : Scope} {last : Value F} {env : Env F}
    {muts : List String}, okStmt p k mode fresh Γ s = true →
    Emits InBody (evalStmt c s isLast last env muts)
  | .letBinding x e isMut, _, _, _, _, _, _, _, _, h => by
    have he {env : Env F} : Emits InBody (evalExpr c e env) := by
      cases e <;> simp [okStmt, hb] at h <;> exact evalExpr_inBody hb hi (by simpa [okStmt] using h.2)
    simp only [evalStmt]
    exact he.bind fun _ => .bind (.tell trivial) fun _ => .pure
  | .assign x e, _, _, _, _, _, _, _, _, h => by
    simp only [okStmt, Bool.and_eq_true] at h
    simp only [evalStmt]
    split
    · refine .bind (evalExpr_inBody hb hi h.2) fun _ => ?_
      exact .bind (.tell trivial) fun _ => .bind (.tell trivial) fun _ => .pure
    · exact .bind (.tell trivial) fun _ => .fail
  | .each x it body, _, _, _, _, _, _, _, _, h => by
    simp only [okStmt, Bool.and_eq_true] at h
    simp only [evalStmt]
    refine .bind (evalExpr_inBody hb hi h.1) fun _ => eachStmt_inBody fun _ _ => ?_
    exact evalStmts_inBody hb hi body h.2
  | .eachWithIndex i x it body, _, _, _, _, _, _, _, _, h => by
    simp only [okStmt, Bool.and_eq_true] at h
    simp only [evalStmt]
    refine .bind (evalExpr_inBody hb hi h.1.2) fun _ => eachStmt_inBody fun _ _ => ?_
    exact evalStmts_inBody hb hi body h.2
  | .while_ cnd body, _, _, _, _, _, _, _, _, h => by
    simp only [okStmt, Bool.and_eq_true] at h
    simp only [evalStmt]
    refine .bind (.tell trivial) fun _ => whileLoop_inBody (fun _ => evalExpr_inBody hb hi h.1) ?_ _ _ _
    exact fun _ _ => evalStmts_inBody hb hi body h.2
  | .ifElseBlock cnd body rest, _, _, _, _, _, _, _, _, h => by
    simp only [okStmt, Bool.and_eq_true] at h
    simp only [evalStmt]
    exact emits_cond (evalExpr_inBody hb hi h.1.1) (evalBlock_inBody (evalStmts_inBody hb hi body h.1.2))
      (evalElse_inBody hb hi rest h.2)
  | .ifThen cnd body, _, _, _, _, _, _, _, _, h => by
    simp only [okStmt, Bool.and_eq_true] at h
    simp only [evalStmt]
    exact emits_cond (evalExpr_inBody hb hi h.1) (evalBlock_inBody (evalStmts_inBody hb hi body h.2))
      keepLast_inBody
  | .return_ e, _, _, _, _, _, _, _, _, h => by
    simp only [okStmt, Bool.and_eq_true] at h
    simp only [evalStmt]
    exact .bind (evalExpr_inBody hb hi h.2) fun _ => .bind (.tell trivial) fun _ => .pure
  | .exprStmt e, _, _, _, _, _, _, _, _, h => by
    simp only [okStmt, Bool.and_eq_true] at h
    simp only [evalStmt]
    refine .bind (evalExpr_inBody hb hi h.2) fun v => .bind (.tell trivial) fun _ => ?_
    split <;> exact .pure
  | .match_ s arms, _, _, _, _, _, _, _, _, h => by
    simp only [okStmt, Bool.and_eq_true] at h
    simp only [evalStmt]
    refine .bind (evalExpr_inBody hb hi h.1) fun sv => .bind (.tell trivial) fun _ => ?_
    exact evalArms_inBody hb hi arms h.2
  | .break_, _, _, _, _, _, _, _, _, _ | .continue_, _, _, _, _, _, _, _, _, _ => by
    simp only [evalStmt]
    exact .pure
  | .memorize e _, _, _, _, _, _, _, _, _, h | .forget e _, _, _, _, _, _, _, _, _, h => by
    simp only [okStmt] at h
    simp only [evalStmt]
    exact .bind (evalExpr_inBody hb hi h) fun _ => .bind .update fun _ => keepLast_inBody
  | .relate a b _, _, _, _, _, _, _, _, _, h => by
    simp only [okStmt, Bool.and_eq_true] at h
    simp only [evalStmt]
    refine .bind (evalExpr_inBody hb hi h.1) fun _ => .bind (.wrap ?_) fun _ => ?_
    · exact evalExpr_inExpr hb hi b h.2
    · exact .bind .update fun _ => keepLast_inBody

theorem evalStmts_inBody (hb : p.block = false) (hi : p.index = false) : ∀ (ss : List (Stmt F))
    {k : Nat} {mode : Mode} {fresh : Bool} {Γ : Scope} {last : Value F} {env : Env F}
    {muts : List String}, okStmts p k mode fresh Γ ss = true →
    Emits InBody (evalStmts c ss last env muts)
  | [], _, _, _, _, _, _, _, _ => by
    simp only [evalStmts]
    exact .pure
  | s :: rest, _, _, _, _, _, _, _, h => by
    simp only [okStmts, Bool.and_eq_true] at h
    simp only [evalStmts]
    refine .bind (evalStmt_inBody hb hi s h.1) fun out => ?_
    split
    · exact evalStmts_inBody hb hi rest h.2
    · exact .pure

theorem evalElse_inBody (hb : p.block = false) (hi : p.index = false) : ∀ (rest : ElseChain F)
    {k : Nat} {mode : Mode} {fresh isLast : Bool} {Γ : Scope} {last : Value F} {env : Env F}
    {muts : List String}, okElse p k mode fresh Γ rest = true →
    Emits InBody (evalElse c rest isLast last env muts)
  | .none, _, _, _, _, _, _, _, _, _ => by
    simp only [evalElse]
    exact keepLast_inBody
  | .else_ body, _, _, _, _, _, _, _, _, h => by
    simp only [evalElse]
    exact evalBlock_inBody (evalStmts_inBody hb hi body h)
  | .elseIf cnd body rest, _, _, _, _, _, _, _, _, h => by
    simp only [okElse, Bool.and_eq_true] at h
    simp only [evalElse]
    exact emits_cond (evalExpr_inBody hb hi h.1.1) (evalBlock_inBody (evalStmts_inBody hb hi body h.1.2))
      (evalElse_inBody hb hi rest h.2)

theorem evalArms_inBody (hb : p.block = false) (hi : p.index = false) : ∀ (arms : MatchArms F)
    {k : Nat} {mode : Mode} {fresh isLast : Bool} {Γ : Scope} {sv last : Value F} {env : Env F}
    {muts : List String}, okArms p k mode fresh Γ arms = true →
    Emits InBody (evalArms c arms sv isLast last env muts)
  | .none, _, _, _, _, _, _, _, _, _, _ => by
    simp only [evalArms]
    exact keepLast_inBody
  | .else_ body, _, _, _, _, _, _, _, _, _, h => by
    simp only [evalArms]
    exact evalBlock_inBody (evalStmts_inBody hb hi body h)
  | .lit test body rest, _, _, _, _, _, _, _, _, _, h => by
    simp only [okArms, Bool.and_eq_true] at h
    simp only [evalArms]
    split
    · exact evalBlock_inBody (evalStmts_inBody hb hi body h.1)
    · exact evalArms_inBody hb hi rest h.2
  | .compare op th body rest, _, _, _, _, _, _, _, _, _, h => by
    simp only [okArms, Bool.and_eq_true] at h
    simp only [evalArms]
    refine .bind (.wrap (evalExpr_inExpr hb hi th h.1.1)) fun tv => ?_
    split
    · exact evalBlock_inBody (evalStmts_inBody hb hi body h.1.2)
    · exact evalArms_inBody hb hi rest h.2
end

end

/-! ## Tame runs -/

variable [FloatModel F]

/-- What is left to ask of a run of a plain body. -/
def Tame : Event F → Prop
  | .ne l r => comparable l r = true
  | .refused _ | .limit => False
  | .items n => n < 2 ^ 53
  | .stmt _ v _ => v.isHttpResponse = false
  | .pend e | .arm e | .loop e | .blk _ e => Tame e
  | _ => True

instance Tame.decidable : (e : Event F) → Decidable (Tame e)
  | .ne l r => inferInstanceAs (Decidable (comparable l r = true))
  | .items n => inferInstanceAs (Decidable (n < 2 ^ 53))
  | .stmt _ v _ => inferInstanceAs (Decidable (v.isHttpResponse = false))
  | .refused _ | .limit => .isFalse id
  | .pend e | .arm e | .loop e | .blk _ e => Tame.decidable e
  | .read _ _ | .index _ _ | .store | .scrut | .silent _ _ | .reset _ | .taken _ _ | .ret _ =>
    .isTrue trivial

theorem clean_of_inExpr {e : Event F} (hi : InExpr e) (ht : Tame e) : ∀ c, Clean c e := by
  induction e with
  | read x v => exact fun _ => trivial
  | ne l r => exact fun _ => ht
  | pend e ih => exact fun c => ih hi ht c.pend
  | _ => exact hi.elim

/-- Outside the arms nothing is asked of registers, and stores are free. -/
theorem clean_of_tame {e : Event F} (hi : InBody e) (ht : Tame e) : ∀ {c : Ctx},
    c.mode.isValue = false → c.inArm = false → c.st = true → c.precise = false → Clean c e := by
  induction e with
  | read x v => exact fun _ _ _ _ => trivial
  | ne l r => exact fun _ _ _ _ => ht
  | items n => exact fun _ _ _ _ => ht
  | store => exact fun _ _ hst _ => hst
  | scrut => exact fun _ _ hst _ => .inl hst
  | stmt last v isLast =>
    intro c _ _ _ hp
    have hv : v.isHttpResponse = false := ht
    exact ⟨by simp [hv], by simp [hp]⟩
  | silent last isLast => exact fun _ _ _ hp => by simp [Clean, hp]
  | reset last => exact fun hm _ _ _ => by simp [Clean, hm]
  | taken last v => exact fun hm _ _ _ => by simp [Clean, hm]
  | ret isLast => exact fun _ ha _ _ => by simp [Clean, ha]
  | pend e _ => exact fun {c} _ _ _ _ => clean_of_inExpr hi ht c.pend
  | loop e ih => exact fun _ ha hst hp => ih hi ht rfl ha hst hp
  | blk isLast e ih =>
    intro c hm ha hst hp
    refine ih hi ht ?_ ha hst hp
    cases hc : c.mode <;> simp_all [Ctx.blk, Mode.inner, Mode.isValue]
  | index b i => exact hi.elim
  | arm e _ => exact hi.elim
  | refused x => exact ht.elim
  | limit => exact ht.elim

/-! ## Plain bodies are compiled correctly -/

/-- An explicit return of the tree-walker, or its error, is what the body executor ends with: for
every plain body in scope, all arguments, every meaning of the callees, every tame run. -/
theorem plain_body_correct {S : Setup F W} {T : List String} {X : Fixed F} {d k : Nat}
    {params : List String} {body : List (Stmt F)} {code : List (Instr F)} {args : List (Value F)}
    {le : LabelEnv} {w w' : W} {r : Except String (Outcome F)} {t : List (Event F)}
    (regs : List (Value F))
    (hlab : ∀ c args w le, LabelsIn T le → LabelsIn T (S.callLabels c args w le))
    (hr : Runs S X.deeper d k) (hd : X.depth + 1 ≤ S.maxDepth)
    (hc : compilePatternBody S.tables params body = .ok code) (hn : params.Nodup)
    (hlen : args.length = params.length)
    (hok : okStmts (S.policy T false false false) k .top false (.ofParams params) body = true)
    (hl : LabelsIn T le)
    (hrun : evalStmts S.walk body .unit (bindParams params args) [] w = (r, w', t))
    (ht : ∀ e ∈ t, Tame e) :
    (∀ v env muts, r = .ok (.ret v, env, muts) → ∃ m n, m.vm.world = w' ∧ ∀ lim ≥ n,
      S.executeCode lim (d + 1) code (X.mach args regs le w) = (.ok v, m)) ∧
    ∀ e, r = .error e → ∃ m n, m.vm.world = w' ∧ ∀ lim ≥ n,
      S.executeCode lim (d + 1) code (X.mach args regs le w) = (.error e, m) := by
  have hclean : ∀ e ∈ t, Clean (Ctx.body false) e := by
    intro e he
    refine clean_of_tame ?_ (ht e he) rfl rfl rfl rfl
    have hin : Traced.Emits InBody (evalStmts S.walk body .unit (bindParams params args) []) :=
      evalStmts_inBody rfl rfl body hok
    exact hin w e (by rwa [hrun])
  have hA : Agrees S (S.policy T false false false) T := policy_agrees hr.linked.classes hlab
  obtain ⟨res, m, n, hp, hm, hx⟩ := body_runs hA hr hd hc hn hlen hok hl hrun hclean
  refine ⟨fun v env muts hv => ?_, fun e he => ?_⟩
  · subst hv
    obtain rfl : res = .ok v := hp
    exact ⟨m, n, hm, hx⟩
  · subst he
    obtain rfl : res = .error e := hp
    exact ⟨m, n, hm, hx⟩

namespace Sample

/-- Sums the items other than 2, then counts down to 0. -/
def sumBody : List (Stmt Int) :=
  [.letBinding "s" (.floatLit 0) true,
   .each "x" (.ident "xs")
    [.ifThen (.binaryOp (.ident "x") .eq (.floatLit 2)) [.continue_],
     .assign "s" (.binaryOp (.ident "s") .add (.ident "x"))],
   .while_ (.boolLit true)
    [.ifElseBlock (.binaryOp (.ident "s") .gt (.floatLit 0))
      [.assign "s" (.binaryOp (.ident "s") .sub (.floatLit 1))] (.else_ [.break_])],
   .return_ (.fnCall "id" [.ident "s"] 1)]

def sumArgs : List (Value Int) := [.list [.float 2, .float 1]]

end Sample

open Sample in
theorem plain_body_correct_sum : ∃ m n, ∀ lim ≥ n,
    setup.executeCode lim 512 (code sumBody ["xs"]) (idle.mach sumArgs [] (fun _ => none) []) =
      (.ok (.float 0), m) := by
  have hlab : ∀ c args w le, LabelsIn [] le → LabelsIn [] (setup.callLabels c args w le) :=
    fun _ _ _ _ hl => hl
  have hc : compilePatternBody setup.tables ["xs"] sumBody = .ok (code sumBody ["xs"]) := rfl
  have hrun : evalStmts setup.walk sumBody .unit (bindParams ["xs"] sumArgs) [] [] =
    ((run sumBody ["xs"] sumArgs).1, (run sumBody ["xs"] sumArgs).2.1,
      (run sumBody ["xs"] sumArgs).2.2) := rfl
  have hl : LabelsIn [] fun _ => none := fun _ _ => rfl
  have h := plain_body_correct [] (d := 511) (k := 0) hlab (runs (by omega) (by omega))
    (by decide) hc (by decide) rfl (by decide) hl hrun (by decide +kernel)
  obtain ⟨m, n, -, hx⟩ := h.1 _ _ _ rfl
  exact ⟨m, n, hx⟩

namespace Sample

/-- A secret reaches a sink. -/
def secretBody : List (Stmt Int) :=
  [.letBinding "s" (.fnCall "env" [.stringLit "K"] 1) false,
   .return_ (.fnCall "print" [.ident "s"] 2)]

/-- `!=` on operands of different types. -/
def neBody : List (Stmt Int) := [.return_ (.binaryOp (.list []) .ne (.floatLit 1))]

/-- A pattern called without its argument. -/
def arityBody : List (Stmt Int) := [.return_ (.fnCall "id" [] 1)]

end Sample

open Sample in
/-- Where the machine answers differently: its sink gate refuses a labelled argument, its text for
`!=` names `Eq`, and its text for a wrong argument count is its own. -/
theorem plain_body_diverges :
    (eval secretBody [] []).1 = .ok (.string "secret") ∧
    (exec secretBody [] []).1 =
      .error (sinkClearanceErr "print" "s" { conf := .private_ } 2 "PII_EGRESS_OUTPUT") ∧
    (eval neBody [] []).1 =
      .error "[TYPE_MISMATCH] type mismatch in binary operation: List Ne Float" ∧
    (exec neBody [] []).1 =
      .error "[TYPE_MISMATCH] type mismatch in binary operation: List Eq Float" ∧
    (eval arityBody [] []).1 = .error "pattern id expects 1 arguments, got 0" ∧
    (exec arityBody [] []).1 = .error "VM: pattern id expects 1 args, got 0" :=
  ⟨rfl, rfl, rfl, rfl, rfl, rfl⟩

end Metalogos.Refine
