import Metalogos.Check.Facts

/-!
# Reads of results of `try`

The closed walk is sound. What a statement leaves is covered by a flow that its walk ends with (`leavesStmt`): at its
end, at a `break` or at a `continue`. So every evaluation of a run stands at a flow that covers its environment and
from which the walk finds nothing (`Stands`), and a read of a value that is reached is of a result that is ok. The walk
as it is misses what the closed walk finds beyond it.
-/
namespace Metalogos.Check

open Metalogos.Lang Metalogos.Lib Metalogos.Walk

variable {F W : Type}

def Clear (found : List Finding) : Prop := ∀ f ∈ found, f.code ≠ .uncheckedResult

@[simp] theorem clear_nil : Clear [] := fun _ hf => absurd hf List.not_mem_nil

@[simp] theorem clear_append {a b : List Finding} : Clear (a ++ b) ↔ Clear a ∧ Clear b := by
  unfold Clear
  simp only [List.mem_append, or_imp, forall_and]

theorem clear_object {cs : UncheckedCallables} {φ : UncheckedFlow} {e : Expr F} {field : String}
    (h : Clear (walkExpr true cs (.fieldAccess e field) φ)) : Clear (walkExpr true cs e φ) := by
  cases e <;> first | exact clear_nil | simpa only [walkExpr] using h

variable [FloatModel F] (c : Interpreter F W)

/-! ## Where results of `try` come from -/

def FromTry (e : Expr F) : Prop := (∃ a, e = .try_ a) ∨ ∃ x, e = .ident x

/-- An evaluation that binds a result of `try` to a variable binds a `try` or a copy. -/
structure Plain (s : Eval F W) : Prop where
  let_ : ∀ x e m env muts, s.work = .stmt (.letBinding x e m) env muts → ∀ v w t,
    evalExpr c e env s.world = (.ok v, w, t) → IsTry v → FromTry e
  assign : ∀ x e env muts, s.work = .stmt (.assign x e) env muts → ∀ v w t,
    evalExpr c e env s.world = (.ok v, w, t) → IsTry v → FromTry e
  items : ∀ bind body i vs env muts, s.work = .eachLoop bind body i vs env muts → ∀ v ∈ vs, ¬ IsTry v

/-- No evaluation of the run binds one another way. -/
def Clean (s : Eval F W) : Prop := ∀ t, Reaches c s t → Plain c t

def NoGlobals : Prop := ∀ x v, c.globals x = some v → ¬ IsTry v

variable {c}

theorem Clean.step {s t : Eval F W} (h : Clean c s) (hcall : Calls c s t) : Clean c t :=
  fun u hu => h u (.head hcall hu)

theorem Clean.plain {s : Eval F W} (h : Clean c s) : Plain c s := h s .refl

/-- A failed result that is bound comes from a `try`, or from a variable that fails. -/
theorem fromTry_fails (hglobals : NoGlobals c) {e : Expr F} {env : Env F} {w w' : W} {t : List (Event F)} {v : Value F}
    (hrun : evalExpr c e env w = (.ok v, w', t)) (hfrom : IsTry v → FromTry e) (hv : Failed v) :
    (∃ a, e = .try_ a) ∨ ∃ x, e = .ident x ∧ Fails env x := by
  rcases hfrom hv.isTry with htry | ⟨x, rfl⟩
  · exact .inl htry
  · refine .inr ⟨x, rfl, v, ?_, hv⟩
    simp only [evalExpr, readVar] at hrun
    cases henv : env x with
    | some u =>
      rw [henv] at hrun
      rw [← Except.ok.inj (Prod.mk.inj hrun).1]
    | none =>
      rw [henv] at hrun
      cases hg : c.globals x with
      | none =>
        simp only [Option.orElse_none, hg] at hrun
        cases (Prod.mk.inj hrun).1
      | some u =>
        simp only [Option.orElse_none, hg] at hrun
        have huv : u = v := Except.ok.inj (Prod.mk.inj hrun).1
        exact absurd hv.isTry (huv ▸ hglobals x u hg)

/-! ## What a statement leaves -/

/-- What a block leaves, by its signal. -/
def Exits (normal : Env F → Prop) (breaks conts : List UncheckedFlow) (o : Outcome F) : Prop :=
  match o.1 with
  | .normal _ => normal o.2.1
  | .brk => ∃ ψ ∈ breaks, Covers ψ o.2.1
  | .cont => ∃ ψ ∈ conts, Covers ψ o.2.1
  | .ret _ => True

def Leaves (out : Walked) : Outcome F → Prop := Exits (Covers out.flow) out.breaks out.conts

/-- The same for the rest of an `if` or the arms of a `match`: when none of them runs, the environment is as it was. -/
def LeavesRest (out : ElseWalked) (env : Env F) : Outcome F → Prop :=
  Exits (fun env' => (∃ ψ ∈ out.ends, Covers ψ env') ∨ out.elseEnd = none ∧ env' = env) out.breaks out.conts

section

variable {x : TW F W (Outcome F)} {out : Outcome F} {rest : Value F → Env F → List String → TW F W (Outcome F)}

omit [FloatModel F] in
theorem ensures_rest (h : ∀ v env muts, Traced.Ensures (fun o : Outcome F => ∀ v, o.1 ≠ .normal v) (rest v env muts)) :
    Traced.Ensures (fun o : Outcome F => ∀ v, o.1 ≠ .normal v) (match out.1 with
      | .normal v => rest v out.2.1 out.2.2
      | _ => (pure out : TW F W (Outcome F))) := by
  split
  · exact h _ _ _
  · next hne => exact .pure hne

omit [FloatModel F] in
/-- The rest of a block does not run behind a signal. -/
theorem ensures_signal (hx : Traced.Ensures (fun o : Outcome F => ∀ v, o.1 ≠ .normal v) x) :
    Traced.Ensures (fun o : Outcome F => ∀ v, o.1 ≠ .normal v) (x >>= fun out => match out.1 with
      | .normal v => rest v out.2.1 out.2.2
      | _ => (pure out : TW F W (Outcome F))) := by
  refine .bind hx fun out hout => ?_
  split
  · next v hv => exact absurd hv (hout v)
  · exact .pure hout

end

/-- Behind a `return`, a `break` or a `continue` nothing of its block runs. -/
theorem branchExits_signal (body : List (Stmt F)) (h : branchExits body = true) : ∀ last env muts,
    Traced.Ensures (fun o : Outcome F => ∀ v, o.1 ≠ .normal v) (evalStmts c body last env muts) := by
  induction body with
  | nil => cases h
  | cons s ss ih =>
    intro last env muts
    rw [evalStmts]
    cases s with
    | return_ e =>
      exact ensures_signal (.after fun _ => .after fun _ => .pure fun _ hsame => by cases hsame)
    | break_ => exact ensures_signal (.pure fun _ hsame => by cases hsame)
    | continue_ => exact ensures_signal (.pure fun _ hsame => by cases hsame)
    | _ => exact .after fun out => ensures_rest (ih (by simpa [branchExits] using h))

/-! ## Loops and branches -/

section

omit [FloatModel F]

variable {φ : UncheckedFlow} {env : Env F} {o : Outcome F}

theorem Exits.mono {normal normal' : Env F → Prop} {breaks breaks' conts conts' : List UncheckedFlow}
    (h : Exits normal breaks conts o) (hnormal : ∀ v, o.1 = .normal v → normal o.2.1 → normal' o.2.1)
    (hbreaks : breaks ⊆ breaks') (hconts : conts ⊆ conts') : Exits normal' breaks' conts' o := by
  unfold Exits at h ⊢
  split at h
  · next v hv => exact hnormal v hv h
  · obtain ⟨ψ, hψ, hcov⟩ := h
    exact ⟨ψ, hbreaks hψ, hcov⟩
  · obtain ⟨ψ, hψ, hcov⟩ := h
    exact ⟨ψ, hconts hψ, hcov⟩
  · trivial

/-- A flow that the body of a loop keeps. -/
def Stable (out : Walked) (ψ : UncheckedFlow) : Prop := Below out.flow ψ ∧ ∀ χ ∈ out.conts, Below χ ψ

theorem walkLoop_closed (walk : UncheckedFlow → Walked) (n : Nat) (φ : UncheckedFlow) :
    walkLoop true walk n φ = loopFrom walk n φ := rfl

theorem loopFrom_stable {walk : UncheckedFlow → Walked} : ∀ (n : Nat) (φ : UncheckedFlow),
    Clear (loopFrom walk n φ).found → ∃ ψ, Below φ ψ ∧ Stable (walk ψ) ψ ∧
      loopFrom walk n φ = ⟨joinAll ψ (walk ψ).breaks, (walk ψ).found, [], []⟩
  | 0, _, h => absurd rfl (h _ (List.mem_singleton.2 rfl))
  | n + 1, φ, h => by
    unfold loopFrom at h ⊢
    dsimp only at h ⊢
    split_ifs at h ⊢ with hkept
    · have hbelow {χ : UncheckedFlow} (hχ : χ ∈ (walk φ).flow :: (walk φ).conts) : Below χ φ := by
        intro x hx
        exact mem_pending.1 (hkept x (mem_pending.2 (below_joinAll_of_mem hχ φ x hx)))
      exact ⟨φ, .refl φ, ⟨hbelow List.mem_cons_self, fun χ hχ => hbelow (List.mem_cons_of_mem _ hχ)⟩, rfl⟩
    · obtain ⟨ψ, hle, hstable, heq⟩ := loopFrom_stable n _ h
      exact ⟨ψ, (below_joinAll _ φ).trans hle, hstable, heq⟩

theorem found_of_loop {walk : UncheckedFlow → Walked} {n : Nat} {φ ψ : UncheckedFlow} {after : UncheckedFlow}
    (heq : loopFrom walk n φ = ⟨after, (walk ψ).found, [], []⟩) (h : Clear (loopFrom walk n φ).found) :
    Clear (walk ψ).found := by
  rw [heq] at h
  exact h

/-- A body that ends is one of the ends. -/
theorem mem_branchEnds {body : List (Stmt F)} {out : Walked}
    (hexits : branchExits body = true → ∀ v, o.1 ≠ .normal v) {v : Value F} (hv : o.1 = .normal v) :
    out.flow ∈ branchEnds body out := by
  have hgo : branchExits body = false := by
    by_contra hne
    exact hexits (by simpa using hne) v hv
  simp [branchEnds, hgo]

theorem leaves_then {facts : GuardFacts} {body : List (Stmt F)} {cond : List Finding} {out : Walked}
    {rest : ElseWalked} (h : Leaves out o) (hexits : branchExits body = true → ∀ v, o.1 ≠ .normal v) :
    Leaves (walkIf true facts body φ cond out rest) o := by
  refine Exits.mono h (fun v hv hcov => ?_) (List.subset_append_left _ _) (List.subset_append_left _ _)
  have hend : out.flow ∈ branchEnds body out ++ rest.ends := List.mem_append_left _ (mem_branchEnds hexits hv)
  exact hcov.mono (below_joinAll_of_mem hend _)

theorem leaves_rest {facts : GuardFacts} {body : List (Stmt F)} {cond : List Finding} {out : Walked}
    {rest : ElseWalked} (h : LeavesRest rest env o) (hcov : Covers φ env)
    (helse : Covers (applyFacts φ facts.tryElse facts.optElse) env) :
    Leaves (walkIf true facts body φ cond out rest) o := by
  refine Exits.mono h (fun v hv hend => ?_) (List.subset_append_right _ _) (List.subset_append_right _ _)
  rcases hend with ⟨χ, hχ, hend⟩ | ⟨hnone, henv⟩
  · exact hend.mono (below_joinAll_of_mem (List.mem_append_right _ hχ) _)
  · rw [henv]
    refine Covers.mono ?_ (below_joinAll _ _)
    unfold joinIf
    rw [hnone]
    dsimp only
    split_ifs
    · exact helse
    · exact hcov

theorem leavesRest_body {body : List (Stmt F)} {out : Walked} {chained : Bool} {elseEnd : Option UncheckedFlow}
    {ends breaks conts : List UncheckedFlow} {found : List Finding} (h : Leaves out o)
    (hexits : branchExits body = true → ∀ v, o.1 ≠ .normal v) :
    LeavesRest ⟨chained, elseEnd, branchEnds body out ++ ends, found, out.breaks ++ breaks, out.conts ++ conts⟩
      env o :=
  Exits.mono h (fun _ hv hcov => .inl ⟨out.flow, List.mem_append_left _ (mem_branchEnds hexits hv), hcov⟩)
    (List.subset_append_left _ _) (List.subset_append_left _ _)

theorem LeavesRest.after {rest : ElseWalked} (h : LeavesRest rest env o) {chained : Bool}
    {ends breaks conts : List UncheckedFlow} {found : List Finding} :
    LeavesRest ⟨chained, rest.elseEnd, ends ++ rest.ends, found, breaks ++ rest.breaks, conts ++ rest.conts⟩
      env o :=
  Exits.mono h (fun _ _ hend => hend.imp_left fun ⟨χ, hχ, hcov⟩ => ⟨χ, List.mem_append_right _ hχ, hcov⟩)
    (List.subset_append_right _ _) (List.subset_append_right _ _)

end

section

variable {φ ψ : UncheckedFlow} {out : Walked} {p : Nat} {body : List (Stmt F)}

omit [FloatModel F] in
/-- What the body of a loop leaves goes on with a stable flow. -/
theorem Leaves.next {o : Outcome F} (h : Leaves out o) (hstable : Stable out ψ) (hgo : ∀ r, o.1 ≠ .ret r)
    (hbrk : o.1 ≠ .brk) : Covers ψ o.2.1 := by
  unfold Leaves Exits at h
  split at h
  · exact h.mono hstable.1
  · next heq => exact absurd heq hbrk
  · obtain ⟨χ, hχ, hcov⟩ := h
    exact hcov.mono (hstable.2 χ hχ)
  · next v heq => exact absurd heq (hgo v)

/-- A run of a body from an environment that `ψ` covers. -/
def BodyLeaves (c : Interpreter F W) (body : List (Stmt F)) (ψ : UncheckedFlow) (out : Walked) : Prop :=
  ∀ p last env muts w, Clean c ⟨p, .stmts body last env muts, w⟩ → Covers ψ env →
    Traced.EnsuresFrom w (Leaves out) (evalStmts c body last env muts)

theorem eachLoop_leaves {bind : Nat → Value F → Env F → Env F} (hbody : BodyLeaves c body ψ out)
    (hstable : Stable out ψ) (hbind : ∀ i v env, ¬ IsTry v → Covers ψ env → Covers ψ (bind i v env)) :
    ∀ (vs : List (Value F)) (idx : Nat) (env : Env F) (muts : List String) (w : W),
      Clean c ⟨p, .eachLoop bind body idx vs env muts, w⟩ → Covers ψ env → Traced.EnsuresFrom w
        (Leaves ⟨joinAll ψ out.breaks, out.found, [], []⟩)
        (eachLoop c bind (fun env muts => evalStmts c body .unit env muts) idx vs env muts)
  | [], _, _, _, _, _, hcov => .pure (hcov.mono (below_joinAll _ ψ))
  | v :: vs, idx, env, muts, w, hclean, hcov => by
    unfold eachLoop
    split_ifs with hlim
    · exact .tell_bind .fail
    · have hv : ¬ IsTry v := hclean.plain.items _ _ _ _ _ _ rfl v List.mem_cons_self
      refine .wrap_bind fun o w₁ t hrun => ?_
      have ho := hbody p _ _ _ w (hclean.step (.iteration hlim)) (hbind idx v env hv hcov) o w₁ t hrun
      split
      · next heq =>
        refine .pure (?_ : Covers _ o.2.1)
        unfold Leaves Exits at ho
        rw [heq] at ho
        obtain ⟨χ, hχ, hχcov⟩ := ho
        exact hχcov.mono (below_joinAll_of_mem hχ ψ)
      · exact .pure trivial
      · next hbrk hret =>
        have hgo : ∀ r, o.1 ≠ .ret r := fun r hr => hret r hr
        exact eachLoop_leaves hbody hstable hbind vs _ _ _ _ (hclean.step (.nextIteration hlim hrun hgo hbrk))
          (ho.next hstable hgo hbrk)

theorem whileLoop_leaves {cnd : Expr F} (hbody : BodyLeaves c body ψ out) (hstable : Stable out ψ) :
    ∀ (n : Nat) (env : Env F) (muts : List String) (w : W), Clean c ⟨p, .whileLoop cnd body n env muts, w⟩ →
      Covers ψ env → Traced.EnsuresFrom w (Leaves ⟨joinAll ψ out.breaks, out.found, [], []⟩)
        (whileLoop c (fun env => evalExpr c cnd env) (fun env muts => evalStmts c body .unit env muts) n env muts)
  | 0, _, _, _, _, _ => .tell_bind .fail
  | n + 1, env, muts, w, hclean, hcov => by
    unfold whileLoop
    refine .bind fun v w₁ t hc => .lift_bind fun b hb => ?_
    cases b with
    | false => exact .pure (hcov.mono (below_joinAll _ ψ))
    | true =>
      refine .wrap_bind fun o w₂ t₂ hrun => ?_
      have ho := hbody _ _ _ _ w₁ (hclean.step (.whileBody hc hb)) hcov o w₂ t₂ hrun
      split
      · next heq =>
        refine .pure (?_ : Covers _ o.2.1)
        unfold Leaves Exits at ho
        rw [heq] at ho
        obtain ⟨χ, hχ, hχcov⟩ := ho
        exact hχcov.mono (below_joinAll_of_mem hχ ψ)
      · exact .pure trivial
      · next hbrk hret =>
        have hgo : ∀ r, o.1 ≠ .ret r := fun r hr => hret r hr
        exact whileLoop_leaves hbody hstable n _ _ _ (hclean.step (.whileNext hc hb hrun hgo hbrk))
          (ho.next hstable hgo hbrk)

end

section

variable {ψ : UncheckedFlow}

omit [FloatModel F] in
theorem bindItem_covers (x : String) :
    ∀ i (v : Value F) env, ¬ IsTry v → Covers ψ env → Covers ψ (bindItem x i v env) :=
  fun _ _ _ hv hcov => hcov.set fun hf => hv hf.isTry

theorem bindIndexItem_covers (i x : String) :
    ∀ k (v : Value F) env, ¬ IsTry v → Covers ψ env → Covers ψ (bindIndexItem i x k v env) := by
  intro k v env hv hcov
  have hindex : ¬ Failed (.float (FloatModel.ofNat k) : Value F) := by
    rintro ⟨e, he⟩
    cases he
  exact (hcov.set hindex).set fun hf => hv hf.isTry

theorem eachStmt_leaves {out : Walked} {body : List (Stmt F)} {p : Nat} {bind : Nat → Value F → Env F → Env F}
    (hbody : BodyLeaves c body ψ out) (hstable : Stable out ψ)
    (hbind : ∀ i v env, ¬ IsTry v → Covers ψ env → Covers ψ (bind i v env)) {last v : Value F} {env : Env F}
    {muts : List String} {w : W} (hcov : Covers ψ env)
    (hclean : ∀ vs, v = .list vs → ¬ (c.sandbox ∧ c.iterLimit < vs.length) →
      Clean c ⟨p, .eachLoop bind body 0 vs env muts, w⟩) :
    Traced.EnsuresFrom w (Leaves ⟨joinAll ψ out.breaks, out.found, [], []⟩)
      (eachStmt c bind (fun env muts => evalStmts c body .unit env muts) last v env muts) := by
  unfold eachStmt
  refine .tell_bind ?_
  split
  · next vs =>
    refine .tell_bind (.tell_bind ?_)
    split_ifs with hlim
    · exact .tell_bind .fail
    · exact eachLoop_leaves hbody hstable hbind vs 0 env muts w (hclean vs rfl hlim) hcov
  · exact .fail

end

/-! ## Guards and arms -/

section

variable {φ : UncheckedFlow} {env : Env F} {w w' : W} {t : List (Event F)} {v : Value F}

theorem guard_then (hnot : Negates c) {cnd : Expr F} (hcov : Covers φ env)
    (hrun : evalExpr c cnd env w = (.ok v, w', t)) (hb : v.asBool = .ok true) :
    Covers (applyFacts φ (guardFacts true cnd).tryThen (guardFacts true cnd).optThen) env :=
  hcov.applyFacts ((guardFacts_hold hnot cnd env w v w' t hrun).1 (isTruthy_of_asBool hb)) _

theorem guard_else (hnot : Negates c) {cnd : Expr F} (hcov : Covers φ env)
    (hrun : evalExpr c cnd env w = (.ok v, w', t)) (hb : v.asBool = .ok false) :
    Covers (applyFacts φ (guardFacts true cnd).tryElse (guardFacts true cnd).optElse) env :=
  hcov.applyFacts ((guardFacts_hold hnot cnd env w v w' t hrun).2 (isTruthy_of_asBool hb)) _

/-- A scrutinee that probes the `ok` of a variable is false when that fails. -/
def Probed (okProbe : Option String) (sv : Value F) (env : Env F) : Prop :=
  ∀ x, okProbe = some x → Fails env x → sv = .bool false

theorem probed_scrutinee {s : Expr F} (hrun : evalExpr c s env w = (.ok v, w', t)) :
    Probed (matchArmOkVar s) v env := by
  intro x hx hfails
  unfold matchArmOkVar at hx
  split at hx
  · cases hx
    exact ok_of_fails hfails hrun
  · cases hx

theorem covers_armFlow {okProbe : Option String} {test : LitTest} (hcov : Covers φ env)
    (hprobed : Probed okProbe v env) (htest : test.matchesValue v = true) : Covers (armFlow okProbe test φ) env := by
  unfold armFlow
  split
  · next x =>
    refine hcov.applyFacts (fun y hy hfails => ?_) _
    obtain rfl := List.mem_singleton.1 hy
    rw [hprobed y rfl hfails] at htest
    exact absurd (of_decide_eq_true htest : toString false = "true") (by decide)
  · exact hcov

omit [FloatModel F] in
theorem evalBlock_leaves {isLast : Bool} {last : Value F} {Q : Outcome F → Prop} {block : TW F W (Outcome F)}
    (h : Traced.EnsuresFrom w Q block) : Traced.EnsuresFrom w Q (evalBlock isLast last block) := by
  refine .wrap_bind fun o w₁ t hrun => ?_
  have ho := h o w₁ t hrun
  split
  · exact .tell_bind (.pure ho)
  · exact .pure ho

theorem exits_signal {body : List (Stmt F)} {last : Value F} {muts : List String} {o : Outcome F}
    (hrun : evalStmts c body last env muts w = (.ok o, w', t)) : branchExits body = true → ∀ v, o.1 ≠ .normal v :=
  fun h => branchExits_signal body h last env muts w o w' t hrun

end

/-! ## The statements -/

section

variable {cs : UncheckedCallables}

mutual
/-- What a statement leaves is covered by the flows of its walk. -/
theorem leavesStmt (hnot : Negates c) (hglobals : NoGlobals c) : ∀ (s : Stmt F) (p : Nat) (isLast : Bool)
    (last : Value F) (env : Env F) (muts : List String) (w : W) (φ : UncheckedFlow),
      Clean c ⟨p, .stmt s env muts, w⟩ → Covers φ env → Clear (walkStmt true cs s φ).found →
        Traced.EnsuresFrom w (Leaves (walkStmt true cs s φ)) (evalStmt c s isLast last env muts)
  | .letBinding x e m, p, isLast, last, env, muts, w, φ, hclean, hcov, _ => by
    rw [evalStmt]
    refine .bind fun v w₁ t hrun => .tell_bind (.pure ?_)
    exact hcov.bind fun hv =>
      fromTry_fails hglobals hrun (hclean.plain.let_ _ _ _ _ _ rfl v w₁ t hrun) hv
  | .assign x e, p, isLast, last, env, muts, w, φ, hclean, hcov, _ => by
    rw [evalStmt]
    split_ifs
    · refine .bind fun v w₁ t hrun => .tell_bind (.tell_bind (.pure ?_))
      exact hcov.bind fun hv =>
        fromTry_fails hglobals hrun (hclean.plain.assign _ _ _ _ rfl v w₁ t hrun) hv
    · exact .tell_bind .fail
  | .each x it body, p, isLast, last, env, muts, w, φ, hclean, hcov, hclear => by
    rw [walkStmt, clear_append] at hclear
    rw [walkLoop_closed] at hclear
    obtain ⟨ψ, hle, hstable, heq⟩ := loopFrom_stable _ φ hclear.2
    have hbody : BodyLeaves c body ψ (walkStmts true cs body ψ) := fun p last env muts w hc hψ =>
      leavesStmts hnot hglobals body p last env muts w ψ hc hψ (found_of_loop heq hclear.2)
    rw [evalStmt, walkStmt, walkLoop_closed, heq]
    refine .bind fun v w₁ t hit => eachStmt_leaves (p := p + 1 + sizeExpr it) hbody hstable (bindItem_covers x)
      (hcov.mono hle) ?_
    rintro vs rfl hlim
    exact hclean.step (.each hit hlim)
  | .eachWithIndex i x it body, p, isLast, last, env, muts, w, φ, hclean, hcov, hclear => by
    rw [walkStmt, clear_append] at hclear
    rw [walkLoop_closed] at hclear
    obtain ⟨ψ, hle, hstable, heq⟩ := loopFrom_stable _ φ hclear.2
    have hbody : BodyLeaves c body ψ (walkStmts true cs body ψ) := fun p last env muts w hc hψ =>
      leavesStmts hnot hglobals body p last env muts w ψ hc hψ (found_of_loop heq hclear.2)
    rw [evalStmt, walkStmt, walkLoop_closed, heq]
    refine .bind fun v w₁ t hit => eachStmt_leaves (p := p + 1 + sizeExpr it) hbody hstable
      (bindIndexItem_covers i x) (hcov.mono hle) ?_
    rintro vs rfl hlim
    exact hclean.step (.eachIndex hit hlim)
  | .while_ cnd body, p, isLast, last, env, muts, w, φ, hclean, hcov, hclear => by
    rw [walkStmt, walkLoop_closed] at hclear
    obtain ⟨ψ, hle, hstable, heq⟩ := loopFrom_stable _ φ hclear
    have hfound := found_of_loop heq hclear
    rw [clear_append] at hfound
    have hbody : BodyLeaves c body ψ (walkStmts true cs body ψ) := fun p last env muts w hc hψ =>
      leavesStmts hnot hglobals body p last env muts w ψ hc hψ hfound.2
    have hloop := whileLoop_leaves hbody hstable c.iterLimit env muts w (hclean.step .while_)
      (hcov.mono hle)
    rw [evalStmt, walkStmt, walkLoop_closed, heq]
    exact .tell_bind hloop
  | .ifThen cnd body, p, isLast, last, env, muts, w, φ, hclean, hcov, hclear => by
    have hbody : Clear (walkStmts true cs body (applyFacts φ (guardFacts true cnd).tryThen
        (guardFacts true cnd).optThen)).found := by
      simp only [walkStmt, walkIf, clear_append] at hclear
      exact hclear.1.2
    rw [evalStmt, walkStmt]
    refine .bind fun v w₁ t hc => .lift_bind fun b hb => ?_
    cases b with
    | true =>
      refine evalBlock_leaves fun o w₂ t₂ hrun => leaves_then ?_ (exits_signal hrun)
      exact leavesStmts hnot hglobals body _ _ _ _ _ _ (hclean.step (.guarded hc hb)) (guard_then hnot hcov hc hb)
        hbody o w₂ t₂ hrun
    | false => exact .tell_bind (.pure (leaves_rest (.inr ⟨rfl, rfl⟩) hcov (guard_else hnot hcov hc hb)))
  | .ifElseBlock cnd body rest, p, isLast, last, env, muts, w, φ, hclean, hcov, hclear => by
    obtain ⟨⟨-, hbody⟩, hrest⟩ : (Clear (walkExpr true cs cnd φ) ∧
        Clear (walkStmts true cs body (applyFacts φ (guardFacts true cnd).tryThen
          (guardFacts true cnd).optThen)).found) ∧
        Clear (walkElse true cs rest φ (applyFacts φ (guardFacts true cnd).tryElse
          (guardFacts true cnd).optElse)).found := by
      simpa only [walkStmt, walkIf, clear_append] using hclear
    rw [evalStmt, walkStmt]
    refine .bind fun v w₁ t hc => .lift_bind fun b hb => ?_
    cases b with
    | true =>
      refine evalBlock_leaves fun o w₂ t₂ hrun => leaves_then ?_ (exits_signal hrun)
      exact leavesStmts hnot hglobals body _ _ _ _ _ _ (hclean.step (.thenBody hc hb)) (guard_then hnot hcov hc hb)
        hbody o w₂ t₂ hrun
    | false =>
      intro o w₂ t₂ hrun
      have helse := guard_else hnot hcov hc hb
      have ho := leavesElse hnot hglobals rest _ _ _ _ _ _ _ _ (hclean.step (.elseBody hc hb)) hcov helse hrest
        o w₂ t₂ hrun
      exact leaves_rest ho hcov helse
  | .match_ s arms, p, isLast, last, env, muts, w, φ, hclean, hcov, hclear => by
    have harms : Clear (walkArms true cs arms (matchArmOkVar s) φ).found := by
      rw [walkStmt, clear_append] at hclear
      exact hclear.2
    rw [evalStmt, walkStmt]
    refine .bind fun sv w₁ t hs => .tell_bind fun o w₂ t₂ hrun => ?_
    have ho := leavesArms hnot hglobals arms _ sv _ _ _ _ _ _ _ (hclean.step (.arms hs)) hcov (probed_scrutinee hs)
      harms o w₂ t₂ hrun
    refine Exits.mono ho (fun v _ hend => ?_) (List.Subset.refl _) (List.Subset.refl _)
    rcases hend with ⟨χ, hχ, hend⟩ | ⟨-, henv⟩
    · exact hend.mono (below_joinAll_of_mem hχ φ)
    · rw [henv]
      exact hcov.mono (below_joinAll _ φ)
  | .return_ e, _, _, _, _, _, _, _, _, _, _ => by
    rw [evalStmt]
    exact .bind fun v w₁ t _ => .tell_bind (.pure trivial)
  | .exprStmt e, _, _, _, _, _, _, _, _, hcov, _ => by
    rw [evalStmt]
    refine .bind fun v w₁ t _ => .tell_bind ?_
    split_ifs
    · exact .pure trivial
    · exact .pure hcov
    · exact .pure hcov
  | .break_, _, _, _, _, _, _, φ, _, hcov, _ => by
    rw [evalStmt]
    exact .pure ⟨φ, List.mem_cons_self, hcov⟩
  | .continue_, _, _, _, _, _, _, φ, _, hcov, _ => by
    rw [evalStmt]
    exact .pure ⟨φ, List.mem_cons_self, hcov⟩
  | .memorize e _, _, _, _, _, _, _, _, _, hcov, _ => by
    rw [evalStmt]
    exact .bind fun v w₁ t _ => .bind fun _ _ _ _ => .tell_bind (.pure hcov)
  | .forget e _, _, _, _, _, _, _, _, _, hcov, _ => by
    rw [evalStmt]
    exact .bind fun v w₁ t _ => .bind fun _ _ _ _ => .tell_bind (.pure hcov)
  | .relate a b _, _, _, _, _, _, _, _, _, hcov, _ => by
    rw [evalStmt]
    exact .bind fun v w₁ t _ => .bind fun _ _ _ _ => .bind fun _ _ _ _ => .tell_bind (.pure hcov)

theorem leavesStmts (hnot : Negates c) (hglobals : NoGlobals c) : ∀ (ss : List (Stmt F)) (p : Nat) (last : Value F)
    (env : Env F) (muts : List String) (w : W) (φ : UncheckedFlow),
      Clean c ⟨p, .stmts ss last env muts, w⟩ → Covers φ env → Clear (walkStmts true cs ss φ).found →
        Traced.EnsuresFrom w (Leaves (walkStmts true cs ss φ)) (evalStmts c ss last env muts)
  | [], _, _, _, _, _, _, _, hcov, _ => .pure hcov
  | s :: ss, p, last, env, muts, w, φ, hclean, hcov, hclear => by
    rw [walkStmts, clear_append] at hclear
    rw [evalStmts, walkStmts]
    refine .bind fun o w₁ t hrun => ?_
    have ho := leavesStmt hnot hglobals s p _ last env muts w φ (hclean.step .first) hcov hclear.1 o w₁ t hrun
    split
    · next v hv =>
      intro o' w₂ t₂ hrun'
      have hflow : Covers (walkStmt true cs s φ).flow o.2.1 := by
        unfold Leaves Exits at ho
        rw [hv] at ho
        exact ho
      have hs : evalStmt c s ss.isEmpty last env muts w = (.ok (.normal v, o.2.1, o.2.2), w₁, t) := by
        rw [hrun, ← hv]
      have ho' := leavesStmts hnot hglobals ss _ v _ _ w₁ _ (hclean.step (.next hs)) hflow hclear.2 o' w₂ t₂ hrun'
      exact Exits.mono ho' (fun _ _ h => h) (List.subset_append_right _ _) (List.subset_append_right _ _)
    · next hne =>
      exact .pure (Exits.mono ho (fun v hv _ => absurd hv (hne v)) (List.subset_append_left _ _)
        (List.subset_append_left _ _))

theorem leavesElse (hnot : Negates c) (hglobals : NoGlobals c) : ∀ (rest : ElseChain F) (p : Nat) (isLast : Bool)
    (last : Value F) (env : Env F) (muts : List String) (w : W) (φ ψ : UncheckedFlow),
      Clean c ⟨p, .chain rest env muts, w⟩ → Covers φ env → Covers ψ env → Clear (walkElse true cs rest φ ψ).found →
        Traced.EnsuresFrom w (LeavesRest (walkElse true cs rest φ ψ) env) (evalElse c rest isLast last env muts)
  | .none, _, _, _, _, _, _, _, _, _, _, _, _ => .tell_bind (.pure (.inr ⟨rfl, rfl⟩))
  | .else_ body, p, isLast, last, env, muts, w, φ, ψ, hclean, _, hψ, hclear => by
    rw [evalElse]
    refine evalBlock_leaves fun o w₁ t hrun => ?_
    have ho := leavesStmts hnot hglobals body _ _ _ _ w ψ (hclean.step .else_) hψ hclear o w₁ t hrun
    have h : LeavesRest ⟨false, some (walkStmts true cs body ψ).flow,
        branchEnds body (walkStmts true cs body ψ) ++ [], (walkStmts true cs body ψ).found,
        (walkStmts true cs body ψ).breaks ++ [], (walkStmts true cs body ψ).conts ++ []⟩ env o :=
      leavesRest_body ho (exits_signal hrun)
    simpa only [walkElse, List.append_nil] using h
  | .elseIf cnd body rest, p, isLast, last, env, muts, w, φ, ψ, hclean, hφ, hψ, hclear => by
    simp only [walkElse, clear_append] at hclear
    rw [evalElse, walkElse]
    refine .bind fun v w₁ t hc => .lift_bind fun b hb => ?_
    cases b with
    | true =>
      refine evalBlock_leaves fun o w₂ t₂ hrun => leavesRest_body ?_ (exits_signal hrun)
      exact leavesStmts hnot hglobals body _ _ _ _ _ _ (hclean.step (.elseThen hc hb)) (guard_then hnot hφ hc hb)
        hclear.1.2 o w₂ t₂ hrun
    | false =>
      intro o w₂ t₂ hrun
      exact (leavesElse hnot hglobals rest _ _ _ _ _ _ φ ψ (hclean.step (.elseRest hc hb)) hφ hψ hclear.2
        o w₂ t₂ hrun).after

theorem leavesArms (hnot : Negates c) (hglobals : NoGlobals c) : ∀ (arms : MatchArms F) (p : Nat) (sv : Value F)
    (isLast : Bool) (last : Value F) (env : Env F) (muts : List String) (w : W) (okProbe : Option String)
    (φ : UncheckedFlow),
      Clean c ⟨p, .arms arms sv env muts, w⟩ → Covers φ env → Probed okProbe sv env →
        Clear (walkArms true cs arms okProbe φ).found →
          Traced.EnsuresFrom w (LeavesRest (walkArms true cs arms okProbe φ) env)
            (evalArms c arms sv isLast last env muts)
  | .none, _, _, _, _, _, _, _, _, _, _, _, _, _ => .tell_bind (.pure (.inr ⟨rfl, rfl⟩))
  | .else_ body, p, sv, isLast, last, env, muts, w, okProbe, φ, hclean, hφ, _, hclear => by
    rw [evalArms]
    refine evalBlock_leaves fun o w₁ t hrun => ?_
    have ho := leavesStmts hnot hglobals body _ _ _ _ w φ (hclean.step .armElse) hφ hclear o w₁ t hrun
    have h : LeavesRest ⟨false, some (walkStmts true cs body φ).flow,
        branchEnds body (walkStmts true cs body φ) ++ [], (walkStmts true cs body φ).found,
        (walkStmts true cs body φ).breaks ++ [], (walkStmts true cs body φ).conts ++ []⟩ env o :=
      leavesRest_body ho (exits_signal hrun)
    simpa only [walkArms, List.append_nil] using h
  | .lit test body rest, p, sv, isLast, last, env, muts, w, okProbe, φ, hclean, hφ, hprobed, hclear => by
    simp only [walkArms, clear_append] at hclear
    rw [evalArms, walkArms]
    split_ifs with htest
    · refine evalBlock_leaves fun o w₁ t hrun => leavesRest_body ?_ (exits_signal hrun)
      exact leavesStmts hnot hglobals body _ _ _ _ _ _ (hclean.step (.armLit htest)) (covers_armFlow hφ hprobed htest)
        hclear.1 o w₁ t hrun
    · intro o w₁ t hrun
      have hfalse : test.matchesValue sv = false := by simpa using htest
      exact (leavesArms hnot hglobals rest _ sv _ _ _ _ _ okProbe φ (hclean.step (.litRest hfalse)) hφ hprobed
        hclear.2 o w₁ t hrun).after
  | .compare op th body rest, p, sv, isLast, last, env, muts, w, okProbe, φ, hclean, hφ, hprobed, hclear => by
    simp only [walkArms, clear_append] at hclear
    rw [evalArms, walkArms]
    refine .wrap_bind fun tv w₁ t hth => ?_
    by_cases hcmp : compareValues sv op tv = true
    · rw [if_pos hcmp]
      refine evalBlock_leaves fun o w₂ t₂ hrun => leavesRest_body ?_ (exits_signal hrun)
      exact leavesStmts hnot hglobals body _ _ _ _ _ _ (hclean.step (.armCompare hth hcmp)) hφ hclear.1.2
        o w₂ t₂ hrun
    · rw [if_neg hcmp]
      intro o w₂ t₂ hrun
      have hfalse : compareValues sv op tv = false := by simpa using hcmp
      exact (leavesArms hnot hglobals rest _ sv _ _ _ _ _ okProbe φ (hclean.step (.compareRest hth hfalse)) hφ hprobed
        hclear.2 o w₂ t₂ hrun).after
end

end

/-! ## The evaluations of a run -/

/-- An evaluation stands at a flow that covers its environment and from which the walk finds nothing. -/
def Stands (cs : UncheckedCallables) : Work F → Prop
  | .expr e env => ∃ φ, Covers φ env ∧ Clear (walkExpr true cs e φ)
  | .exprs es env => ∃ φ, Covers φ env ∧ Clear (walkExprs true cs es φ)
  | .callArgs _ es env => ∃ φ, Covers φ env ∧ Clear (walkExprs true cs es φ)
  | .stmt s env _ => ∃ φ, Covers φ env ∧ Clear (walkStmt true cs s φ).found
  | .stmts ss _ env _ => ∃ φ, Covers φ env ∧ Clear (walkStmts true cs ss φ).found
  | .chain rest env _ => ∃ φ ψ, Covers φ env ∧ Covers ψ env ∧ Clear (walkElse true cs rest φ ψ).found
  | .arms arms sv env _ =>
    ∃ φ okProbe, Covers φ env ∧ Probed okProbe sv env ∧ Clear (walkArms true cs arms okProbe φ).found
  | .eachLoop bind body _ _ env _ =>
    ∃ ψ, Covers ψ env ∧ (∀ i v env, ¬ IsTry v → Covers ψ env → Covers ψ (bind i v env)) ∧
      Clear (walkStmts true cs body ψ).found ∧ Stable (walkStmts true cs body ψ) ψ
  | .whileLoop cnd body _ env _ =>
    ∃ ψ, Covers ψ env ∧ Clear (walkExpr true cs cnd ψ) ∧ Clear (walkStmts true cs body ψ).found ∧
      Stable (walkStmts true cs body ψ) ψ

section

variable {cs : UncheckedCallables} {φ : UncheckedFlow}

omit [FloatModel F] in
theorem clear_index {b i : Expr F} (h : Clear (walkExpr true cs (.indexAccess b i) φ)) :
    Clear (walkExpr true cs b φ) ∧ Clear (walkExpr true cs i φ) := by
  -- a key of a variable is looked at as a whole
  cases b with
  | ident x =>
    cases i with
    | stringLit key => exact ⟨clear_nil, clear_nil⟩
    | _ =>
      rw [← clear_append]
      simpa only [walkExpr] using h
  | _ =>
    rw [← clear_append]
    simpa only [walkExpr] using h

omit [FloatModel F] in
theorem clear_left {l r : Expr F} {op : BinOp} (h : Clear (walkExpr true cs (.binaryOp l op r) φ)) :
    Clear (walkExpr true cs l φ) := by
  cases op <;> simp only [walkExpr, clear_append] at h <;> first | exact h.1.1 | exact h.1

/-- The right operand of an `and` is walked with the facts of the left one, which is then true. -/
theorem stands_right (hnot : Negates c) {l r : Expr F} {op : BinOp} {env : Env F} {w w' : W} {t : List (Event F)}
    {a : Value F} (hcov : Covers φ env) (h : Clear (walkExpr true cs (.binaryOp l op r) φ))
    (hl : evalExpr c l env w = (.ok a, w', t)) (hr : rightRuns op a = true) :
    ∃ ψ, Covers ψ env ∧ Clear (walkExpr true cs r ψ) := by
  cases op with
  | and =>
    simp only [walkExpr, clear_append] at h
    exact ⟨_, hcov.applyFacts ((guardFacts_hold hnot l env w a w' t hl).1 hr) _, h.2⟩
  | _ =>
    simp only [walkExpr, clear_append] at h
    exact ⟨φ, hcov, h.1.2⟩

end

theorem stands_calls (cs : UncheckedCallables) (hnot : Negates c) (hglobals : NoGlobals c) {s t : Eval F W}
    (h : Calls c s t) (hclean : Clean c s) (hs : Stands cs s.work) : Stands cs t.work := by
  have hcall := h
  cases h
  case field =>
    obtain ⟨φ, hcov, hclear⟩ := hs
    exact ⟨φ, hcov, clear_object hclear⟩
  case left =>
    obtain ⟨φ, hcov, hclear⟩ := hs
    exact ⟨φ, hcov, clear_left hclear⟩
  case right hl hr =>
    obtain ⟨φ, hcov, hclear⟩ := hs
    exact stands_right hnot hcov hclear hl hr
  case base =>
    obtain ⟨φ, hcov, hclear⟩ := hs
    exact ⟨φ, hcov, (clear_index hclear).1⟩
  case index =>
    obtain ⟨φ, hcov, hclear⟩ := hs
    exact ⟨φ, hcov, (clear_index hclear).2⟩
  -- a branch starts with the facts of its condition
  case ifThen hc hb | blockThen hc hb | thenBody hc hb | guarded hc hb =>
    obtain ⟨φ, hcov, hclear⟩ := hs
    simp only [walkExpr, walkStmt, walkIf, clear_append] at hclear
    exact ⟨_, guard_then hnot hcov hc hb, hclear.1.2⟩
  case elseThen hc hb =>
    obtain ⟨φ, ψ, hcov, -, hclear⟩ := hs
    simp only [walkElse, clear_append] at hclear
    exact ⟨_, guard_then hnot hcov hc hb, hclear.1.2⟩
  case ifElse hc hb =>
    obtain ⟨φ, hcov, hclear⟩ := hs
    simp only [walkExpr, clear_append] at hclear
    exact ⟨_, guard_else hnot hcov hc hb, hclear.2⟩
  case blockElse hc hb | elseBody hc hb =>
    obtain ⟨φ, hcov, hclear⟩ := hs
    simp only [walkExpr, walkStmt, walkIf, clear_append] at hclear
    exact ⟨φ, _, hcov, guard_else hnot hcov hc hb, hclear.2⟩
  case else_ =>
    obtain ⟨φ, ψ, -, hcov, hclear⟩ := hs
    exact ⟨ψ, hcov, hclear⟩
  case elseCond =>
    obtain ⟨φ, ψ, hcov, -, hclear⟩ := hs
    simp only [walkElse, clear_append] at hclear
    exact ⟨φ, hcov, hclear.1.1⟩
  case elseRest =>
    obtain ⟨φ, ψ, hcov, helse, hclear⟩ := hs
    simp only [walkElse, clear_append] at hclear
    exact ⟨φ, ψ, hcov, helse, hclear.2⟩
  case valueArms hrun | arms hrun =>
    obtain ⟨φ, hcov, hclear⟩ := hs
    simp only [walkExpr, walkStmt, clear_append] at hclear
    exact ⟨φ, _, hcov, probed_scrutinee hrun, hclear.2⟩
  case armElse =>
    obtain ⟨φ, okProbe, hcov, -, hclear⟩ := hs
    exact ⟨φ, hcov, hclear⟩
  case armLit htest =>
    obtain ⟨φ, okProbe, hcov, hprobed, hclear⟩ := hs
    simp only [walkArms, clear_append] at hclear
    exact ⟨_, covers_armFlow hcov hprobed htest, hclear.1⟩
  case litRest | compareRest =>
    obtain ⟨φ, okProbe, hcov, hprobed, hclear⟩ := hs
    simp only [walkArms, clear_append] at hclear
    exact ⟨φ, okProbe, hcov, hprobed, hclear.2⟩
  case threshold =>
    obtain ⟨φ, okProbe, hcov, -, hclear⟩ := hs
    simp only [walkArms, if_true, clear_append] at hclear
    exact ⟨φ, hcov, hclear.1.1⟩
  case armCompare =>
    obtain ⟨φ, okProbe, hcov, -, hclear⟩ := hs
    simp only [walkArms, clear_append] at hclear
    exact ⟨φ, hcov, hclear.1.2⟩
  -- a loop starts with a flow that its body keeps
  case each =>
    obtain ⟨φ, hcov, hclear⟩ := hs
    rw [walkStmt, clear_append, walkLoop_closed] at hclear
    obtain ⟨ψ, hle, hstable, heq⟩ := loopFrom_stable _ φ hclear.2
    exact ⟨ψ, hcov.mono hle, bindItem_covers _, found_of_loop heq hclear.2, hstable⟩
  case eachIndex =>
    obtain ⟨φ, hcov, hclear⟩ := hs
    rw [walkStmt, clear_append, walkLoop_closed] at hclear
    obtain ⟨ψ, hle, hstable, heq⟩ := loopFrom_stable _ φ hclear.2
    exact ⟨ψ, hcov.mono hle, bindIndexItem_covers _ _, found_of_loop heq hclear.2, hstable⟩
  case while_ =>
    obtain ⟨φ, hcov, hclear⟩ := hs
    rw [walkStmt, walkLoop_closed] at hclear
    obtain ⟨ψ, hle, hstable, heq⟩ := loopFrom_stable _ φ hclear
    have hfound := found_of_loop heq hclear
    rw [clear_append] at hfound
    exact ⟨ψ, hcov.mono hle, hfound.1, hfound.2, hstable⟩
  case iteration =>
    obtain ⟨ψ, hcov, hbind, hclear, -⟩ := hs
    have hv := hclean.plain.items _ _ _ _ _ _ rfl _ List.mem_cons_self
    exact ⟨ψ, hbind _ _ _ hv hcov, hclear⟩
  case nextIteration hlim hrun hgo hbrk =>
    obtain ⟨ψ, hcov, hbind, hclear, hstable⟩ := hs
    have hv := hclean.plain.items _ _ _ _ _ _ rfl _ List.mem_cons_self
    have ho := leavesStmts hnot hglobals _ _ _ _ _ _ ψ (hclean.step (.iteration hlim)) (hbind _ _ _ hv hcov) hclear
      _ _ _ hrun
    exact ⟨ψ, ho.next hstable hgo hbrk, hbind, hclear, hstable⟩
  case whileCond =>
    obtain ⟨ψ, hcov, hcond, -, -⟩ := hs
    exact ⟨ψ, hcov, hcond⟩
  case whileBody =>
    obtain ⟨ψ, hcov, -, hclear, -⟩ := hs
    exact ⟨ψ, hcov, hclear⟩
  case whileNext hc hb hrun hgo hbrk =>
    obtain ⟨ψ, hcov, hcond, hclear, hstable⟩ := hs
    have ho := leavesStmts hnot hglobals _ _ _ _ _ _ ψ (hclean.step (.whileBody hc hb)) hcov hclear _ _ _ hrun
    exact ⟨ψ, ho.next hstable hgo hbrk, hcond, hclear, hstable⟩
  case next hrun =>
    obtain ⟨φ, hcov, hclear⟩ := hs
    rw [walkStmts, clear_append] at hclear
    exact ⟨_, leavesStmt hnot hglobals _ _ _ _ _ _ _ φ (hclean.step .first) hcov hclear.1 _ _ _ hrun, hclear.2⟩
  -- every other evaluation starts where the walk comes with the same flow
  all_goals
    obtain ⟨φ, hcov, hclear⟩ := hs
    simp only [walkExpr, walkExprs, walkStmt, walkStmts, walkIf, clear_append] at hclear
    exact ⟨φ, hcov, by simp only [hclear]⟩

/-! ## What the walk promises -/

/-- `x.value` and `x["value"]`. -/
def ReadsValue (x : String) (e : Expr F) : Prop :=
  e = .fieldAccess (.ident x) "value" ∨ e = .indexAccess (.ident x) (.stringLit "value")

/-- What a variable holds: `readVar`. -/
def held (c : Interpreter F W) (env : Env F) (x : String) : Option (Value F) := (env x).orElse fun _ => c.globals x

/-- A read of the value of a variable that holds a result of `try` is of one that is ok. -/
def ReadsOk (c : Interpreter F W) (s : Eval F W) : Prop :=
  ∀ x e env v, s.work = .expr e env → ReadsValue x e → held c env x = some v → IsTry v →
    v.getField "ok" = .ok (.bool true)

omit [FloatModel F] in
theorem Stands.readsOk {cs : UncheckedCallables} (hglobals : NoGlobals c) {s : Eval F W} (h : Stands cs s.work) :
    ReadsOk c s := by
  intro x e env v hwork hread hheld htry
  rw [hwork] at h
  obtain ⟨φ, hcov, hclear⟩ := h
  have hchecked : ¬ Unchecked φ x := by
    intro hun
    rcases hread with rfl | rfl
    · refine hclear (valueFinding x) ?_ rfl
      rw [walkExpr, fieldUse, if_pos ⟨rfl, hun⟩]
      exact List.mem_singleton.2 rfl
    · refine hclear (indexFinding x) ?_ rfl
      rw [walkExpr, keyUse, if_pos ⟨rfl, hun⟩]
      exact List.mem_singleton.2 rfl
  have henv : env x = some v := by
    cases henv : env x with
    | some u => simpa [held, henv] using hheld
    | none => exact absurd htry (hglobals x v (by simpa [held, henv] using hheld))
  obtain ⟨r, rfl⟩ := htry
  cases r with
  | error err => exact absurd (hcov x ⟨_, henv, err, rfl⟩) hchecked
  | ok a => rfl

/-- When the results of `try` reach variables by bindings of a `try` and by copies only: a body in which the walk
without its gaps finds nothing reads values of results that are ok. -/
theorem reads_ok (c : Interpreter F W) (cs : UncheckedCallables) (body : List (Stmt F)) (hnot : Negates c)
    (hglobals : NoGlobals c) (env : Env F) (w : W) (henv : ∀ x v, env x = some v → ¬ IsTry v)
    (hclean : Clean c (bodyRun body env w)) (hwalk : resultFindings true cs body = []) (s : Eval F W)
    (hs : Reaches c (bodyRun body env w) s) : ReadsOk c s := by
  have hclear : Clear (walkStmts true cs body .start).found := by
    intro f hf hcode
    have hmem : f ∈ resultFindings true cs body := by simp [resultFindings, hf, hcode]
    rw [hwalk] at hmem
    cases hmem
  have hkept : Stands cs s.work ∧ Clean c s := by
    refine hs.invariant (P := fun s => Stands cs s.work ∧ Clean c s)
      (fun s t hst ⟨hk, hc⟩ => ⟨stands_calls cs hnot hglobals hst hc hk, hc.step hst⟩) ⟨?_, hclean⟩
    refine ⟨.start, fun x hx => ?_, hclear⟩
    obtain ⟨v, hv, hfailed⟩ := hx
    exact absurd hfailed.isTry (henv x v hv)
  exact hkept.1.readsOk hglobals

namespace Sample

/-- `let r = try e`, then a read of `r.value` behind a guard. -/
def guarded (e guard : Expr Int) : List (Stmt Int) :=
  [.letBinding "r" (.try_ e) false, .ifThen guard [.return_ (.fieldAccess (.ident "r") "value")]]

/-- No statement inside, and no argument of a call. -/
def flat : Expr Int → Bool
  | .floatLit _ => true
  | .boolLit _ => true
  | .ident _ => true
  | .fieldAccess e _ => flat e
  | .fnCall _ args _ => args.isEmpty
  | .binaryOp l _ r => flat l && flat r
  | .try_ e => flat e
  | _ => false

/-- What a run of it starts. -/
def InGuarded (e guard : Expr Int) : Work Int → Prop
  | .expr e _ => flat e = true
  | .callArgs _ es _ => es = []
  | .stmts ss _ _ _ => ss <:+ guarded e guard ∨ ss <:+ [.return_ (.fieldAccess (.ident "r") "value")]
  | .stmt s _ _ => s ∈ guarded e guard ∨ s = .return_ (.fieldAccess (.ident "r") "value")
  | _ => False

theorem guarded_clean {e guard : Expr Int} (he : flat e = true) (hguard : flat guard = true) (env : Env Int) :
    Clean noCallees (bodyRun (guarded e guard) env ()) := by
  intro s hs
  have hin : InGuarded e guard s.work := by
    refine hs.invariant (P := fun s => InGuarded e guard s.work) (fun s t hst h => ?_) (.inl (List.suffix_refl _))
    -- most evaluations do not occur
    cases hst <;> first
      | exact False.elim h
      | simp_all [InGuarded, guarded, flat, List.suffix_cons_iff] <;> tauto
  obtain ⟨p, work, w⟩ := s
  constructor
  · rintro x e' m env muts rfl v w t - -
    simp [InGuarded, guarded] at hin
    exact .inl ⟨e, hin.2.1⟩
  · rintro x e' env muts rfl v w t - -
    simp [InGuarded, guarded] at hin
  · rintro bind body i vs env muts rfl v hv
    cases hin

def nothingReturned : UncheckedCallables := ⟨fun _ => none, fun _ => none, fun _ => none, fun _ => false⟩

def ok : Expr Int := .fieldAccess (.ident "r") "ok"

/-- The guard is true, and so is the `ok` of the result. -/
theorem reaches_checked : ∃ env, Reaches noCallees (bodyRun (guarded (.floatLit 1) ok) (fun _ => none) ())
    ⟨7, .expr (.fieldAccess (.ident "r") "value") env, ()⟩ ∧ env "r" = some (tryResult (.ok (.float 1))) :=
  ⟨_, .head (.next rfl) <| .head .first <| .head (.guarded rfl rfl) <| .head .first <| .head .return_ .refl, rfl⟩

/-- The second operand makes the guard true. -/
def either : Expr Int := .binaryOp ok .or (.boolLit true)

theorem reaches_failed : ∃ env e,
    Reaches noCallees (bodyRun (guarded (.fnCall "missing" [] 1) either) (fun _ => none) ())
      ⟨9, .expr (.fieldAccess (.ident "r") "value") env, ()⟩ ∧ env "r" = some (tryResult (.error e)) :=
  ⟨_, _, .head (.next rfl) <| .head .first <| .head (.guarded rfl rfl) <| .head .first <| .head .return_ .refl, rfl⟩

end Sample

theorem reads_ok_checked : ∃ env, env "r" = some (tryResult (.ok (.float 1))) ∧
    ReadsOk noCallees (⟨7, .expr (.fieldAccess (.ident "r") "value") env, ()⟩ : Eval Int Unit) := by
  obtain ⟨env, hreach, henv⟩ := Sample.reaches_checked
  exact ⟨env, henv, reads_ok noCallees Sample.nothingReturned _ nofun nofun (fun _ => none) () nofun
    (Sample.guarded_clean rfl rfl _) (by decide) _ hreach⟩

theorem reads_not_ok : ¬ ∀ (c : Interpreter Int Unit) (cs : UncheckedCallables) (body : List (Stmt Int)),
    Negates c → NoGlobals c → ∀ (env : Env Int) (w : Unit), (∀ x v, env x = some v → ¬ IsTry v) →
      Clean c (bodyRun body env w) → resultFindings false cs body = [] →
        ∀ s, Reaches c (bodyRun body env w) s → ReadsOk c s := by
  intro h
  obtain ⟨env, e, hreach, henv⟩ := Sample.reaches_failed
  have hok := h noCallees Sample.nothingReturned _ nofun nofun (fun _ => none) () nofun
    (Sample.guarded_clean rfl rfl _) (by decide) _ hreach
  have hread := hok "r" _ env _ rfl (.inl rfl) (by rw [held, henv]; rfl) ⟨_, rfl⟩
  cases hread

end Metalogos.Check
