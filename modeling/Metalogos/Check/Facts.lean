import Metalogos.Check.Results

/-!
# Facts about results of `try`

`Covers φ env`: whatever variable of `env` holds a failed result is unchecked in the flow `φ`. The flows are compared
by what they leave unchecked (`Below`), the joins of the closed walk are upper bounds, and the facts of a guard hold
when it comes out their way (`guardFacts_hold`).
-/
namespace Metalogos.Check

open Metalogos.Lang Metalogos.Lib Metalogos.Walk

variable {F W : Type}

def IsTry (v : Value F) : Prop := ∃ r, v = tryResult r

def Failed (v : Value F) : Prop := ∃ e, v = tryResult (.error e)

theorem Failed.isTry {v : Value F} (h : Failed v) : IsTry v := by
  obtain ⟨e, he⟩ := h
  exact ⟨.error e, he⟩

/-- A variable of the environment that holds a failed result. -/
def Fails (env : Env F) (x : String) : Prop := ∃ v, env x = some v ∧ Failed v

def Unchecked (φ : UncheckedFlow) (x : String) : Prop := φ.tryVars.get x = some false

def Covers (φ : UncheckedFlow) (env : Env F) : Prop := ∀ x, Fails env x → Unchecked φ x

/-! ## Flows -/

def Below (φ ψ : UncheckedFlow) : Prop := ∀ x, Unchecked φ x → Unchecked ψ x

section

variable {φ ψ χ : UncheckedFlow} {env : Env F}

theorem Below.refl (φ : UncheckedFlow) : Below φ φ := fun _ h => h

theorem Below.trans (h : Below φ ψ) (h' : Below ψ χ) : Below φ χ := fun x hx => h' x (h x hx)

theorem Covers.mono (h : Covers φ env) (hle : Below φ ψ) : Covers ψ env := fun x hx => hle x (h x hx)

theorem mem_pending {x : String} : x ∈ φ.pending ↔ Unchecked φ x := by
  unfold UncheckedFlow.pending Unchecked
  rw [Dict.mem_select]
  constructor
  · rintro ⟨b, hget, hb⟩
    cases b with
    | false => exact hget
    | true => cases hb
  · intro h
    exact ⟨false, h, rfl⟩

theorem get_foldl_set (ks : List String) (d : Dict String Bool) (x : String) :
    (ks.foldl (fun d n => d.set n false) d).get x = if x ∈ ks then some false else d.get x := by
  induction ks generalizing d with
  | nil => rfl
  | cons k ks ih =>
    rw [List.foldl_cons, ih, Dict.get_set]
    by_cases hk : x = k <;> simp [hk]

theorem get_foldl_modify {ks : List String} {x : String} (hx : x ∉ ks) (d : Dict String Bool) :
    (ks.foldl (fun d n => d.modify n fun _ => true) d).get x = d.get x := by
  induction ks generalizing d with
  | nil => rfl
  | cons k ks ih =>
    obtain ⟨hne, hks⟩ : x ≠ k ∧ x ∉ ks := by simpa using hx
    rw [List.foldl_cons, ih hks, Dict.get_modify, if_neg hne]

theorem below_join_left : Below φ (join φ ψ) := by
  intro x hx
  unfold Unchecked join
  rw [get_foldl_set]
  split_ifs
  · rfl
  · exact hx

theorem below_join_right : Below ψ (join φ ψ) := by
  intro x hx
  unfold Unchecked join
  rw [get_foldl_set, if_pos (mem_pending.2 hx)]

theorem below_joinAll (bs : List UncheckedFlow) (φ : UncheckedFlow) : Below φ (joinAll φ bs) := by
  unfold joinAll
  induction bs generalizing φ with
  | nil => exact .refl φ
  | cons b bs ih => exact below_join_left.trans (ih (join φ b))

theorem below_joinAll_of_mem {b : UncheckedFlow} {bs : List UncheckedFlow} (hb : b ∈ bs) (φ : UncheckedFlow) :
    Below b (joinAll φ bs) := by
  induction bs generalizing φ with
  | nil => cases hb
  | cons a bs ih =>
    rcases List.mem_cons.1 hb with hb | hb
    · subst hb
      exact below_join_right.trans (below_joinAll bs (join φ b))
    · exact ih hb (join φ a)

/-- What a guard shows of names that do not hold a failed result. -/
theorem Covers.applyFacts (h : Covers φ env) {names : List String} (hnames : ∀ x ∈ names, ¬ Fails env x)
    (optNames : List String) : Covers (applyFacts φ names optNames) env := by
  intro x hx
  have hmem : x ∉ names := fun hmem => hnames x hmem hx
  unfold Unchecked Check.applyFacts
  rw [get_foldl_modify hmem]
  exact h x hx

end

/-! ## Bindings -/

section

variable {φ : UncheckedFlow} {cs : UncheckedCallables} {name : String} {env : Env F}

theorem bindUnchecked_other (fix : Bool) (value : Expr F) {x : String} (hx : x ≠ name) :
    (bindUnchecked fix cs name value φ).tryVars.get x = φ.tryVars.get x := by
  unfold bindUnchecked
  dsimp only
  split
  · rw [Dict.get_set, if_neg hx, Dict.get_erase, if_neg hx]
  · split
    · rw [Dict.get_set, if_neg hx, Dict.get_erase, if_neg hx]
    · split <;> rw [Dict.get_erase, if_neg hx]
  · split_ifs <;> rw [Dict.get_erase, if_neg hx]
  · rw [Dict.get_erase, if_neg hx]

theorem bindUnchecked_try (fix : Bool) (e : Expr F) : Unchecked (bindUnchecked fix cs name (.try_ e) φ) name := by
  simp [Unchecked, bindUnchecked, Dict.get_set]

theorem bindUnchecked_copy {src : String} (h : Unchecked φ src) :
    Unchecked (bindUnchecked true cs name (.ident src : Expr F) φ) name := by
  unfold Unchecked at h
  simp [Unchecked, bindUnchecked, h, Dict.get_set]

/-- A binding of a value that is no failed result, or comes from a `try` or a copy. -/
theorem Covers.bind (h : Covers φ env) {value : Expr F} {v : Value F}
    (hv : Failed v → (∃ e, value = .try_ e) ∨ ∃ src, value = .ident src ∧ Fails env src) :
    Covers (bindUnchecked true cs name value φ) (env.set name v) := by
  rintro x ⟨u, hu, hfailed⟩
  by_cases hx : x = name
  · subst hx
    obtain rfl : v = u := by simpa [Env.set] using hu
    rcases hv hfailed with ⟨e, rfl⟩ | ⟨src, rfl, hsrc⟩
    · exact bindUnchecked_try true e
    · exact bindUnchecked_copy (h src hsrc)
  · have hu' : env x = some u := by simpa [Env.set, hx] using hu
    unfold Unchecked
    rw [bindUnchecked_other true value hx]
    exact h x ⟨u, hu', hfailed⟩

/-- An item or an index of a loop is no failed result. -/
theorem Covers.set (h : Covers φ env) {v : Value F} (hv : ¬ Failed v) : Covers φ (env.set name v) := by
  rintro x ⟨u, hu, hfailed⟩
  by_cases hx : x = name
  · subst hx
    obtain rfl : v = u := by simpa [Env.set] using hu
    exact absurd hfailed hv
  · exact h x ⟨u, by simpa [Env.set, hx] using hu, hfailed⟩

end

/-! ## Guards -/

variable [FloatModel F] {c : Interpreter F W}

theorem isTruthy_of_asBool {v : Value F} {b : Bool} (h : v.asBool = .ok b) : v.isTruthy = b := by
  cases v <;> simp_all [Value.asBool, Value.isTruthy]

/-- Whatever answers to the name `not` negates. -/
def Negates (c : Interpreter F W) : Prop :=
  ∀ callee, c.resolve "not" = some callee → ∀ a w v w', c.call callee [a] w = (.ok v, w') →
    v.isTruthy = !a.isTruthy

/-- What the facts of a guard say when it comes out as `v`. -/
def FactsHold (facts : GuardFacts) (env : Env F) (v : Value F) : Prop :=
  (v.isTruthy = true → ∀ x ∈ facts.tryThen, ¬ Fails env x) ∧
    (v.isTruthy = false → ∀ x ∈ facts.tryElse, ¬ Fails env x)

theorem FactsHold.none (env : Env F) (v : Value F) : FactsHold .none env v :=
  ⟨fun _ _ hx => absurd hx List.not_mem_nil, fun _ _ hx => absurd hx List.not_mem_nil⟩

section

variable {env : Env F} {w w' : W} {t : List (Event F)} {v : Value F}

/-- The `ok` of a failed result is false. -/
theorem ok_of_fails {x : String} (hx : Fails env x)
    (h : evalExpr c (.fieldAccess (.ident x) "ok") env w = (.ok v, w', t)) : v = .bool false := by
  obtain ⟨u, hu, e, rfl⟩ := hx
  have hrun : evalExpr c (.fieldAccess (.ident x) "ok") env w =
      (.ok (.bool false), w, [.read x (tryResult (.error e))]) := by
    simp only [evalExpr, readVar, hu]
    rfl
  rw [hrun] at h
  exact (Except.ok.inj (Prod.mk.inj h).1).symm

theorem factsHold_ok {x : String} (h : evalExpr c (.fieldAccess (.ident x) "ok") env w = (.ok v, w', t)) :
    FactsHold { GuardFacts.none with tryThen := [x] } env v := by
  refine ⟨fun hv y hy hf => ?_, fun _ _ hy => absurd hy List.not_mem_nil⟩
  obtain rfl := List.mem_singleton.1 hy
  rw [ok_of_fails hf h] at hv
  cases hv

theorem eqGuardFacts_hold {probe lit : Expr F} {eq : Bool} {facts : GuardFacts}
    (hfacts : eqGuardFacts probe lit eq = some facts) {a b : Value F} {w₂ w₂' : W} {t₂ : List (Event F)}
    (hprobe : evalExpr c probe env w = (.ok a, w', t)) (hlit : evalExpr c lit env w₂ = (.ok b, w₂', t₂))
    (hv : twBinop a (if eq then .eq else .ne) b = .ok v ∨ twBinop b (if eq then .eq else .ne) a = .ok v) :
    FactsHold facts env v := by
  unfold eqGuardFacts at hfacts
  split at hfacts
  · next object field value =>
    by_cases hfield : field = "ok"
    · subst hfield
      rw [if_pos rfl] at hfacts
      split at hfacts
      · next x =>
        have hb : b = .bool value := by
          simp only [evalExpr] at hlit
          exact (Except.ok.inj (Prod.mk.inj hlit).1).symm
        have hfalse (hx : Fails env x) : v = .bool (decide (eq ≠ value)) := by
          have ha := ok_of_fails hx hprobe
          subst ha hb
          revert hv
          cases eq <;> cases value <;> simp [twBinop, eq_comm]
        cases hfacts
        split_ifs with heq
        · refine ⟨fun htrue y hy hf => ?_, fun _ _ hy => absurd hy List.not_mem_nil⟩
          obtain rfl := List.mem_singleton.1 hy
          rw [hfalse hf, heq] at htrue
          simp [Value.isTruthy] at htrue
        · refine ⟨fun _ _ hy => absurd hy List.not_mem_nil, fun hfls y hy hf => ?_⟩
          obtain rfl := List.mem_singleton.1 hy
          rw [hfalse hf] at hfls
          simp only [Value.isTruthy, decide_eq_false_iff_not, not_not] at hfls
          exact heq hfls.symm
      · cases hfacts
    · rw [if_neg hfield] at hfacts
      cases hfacts
  · next name arg line value =>
    by_cases hunit : name = "type_of" ∧ value = "Unit"
    · rw [if_pos hunit] at hfacts
      split at hfacts
      · cases hfacts
        split_ifs <;> exact ⟨fun _ _ hy => absurd hy List.not_mem_nil, fun _ _ hy => absurd hy List.not_mem_nil⟩
      · cases hfacts
    · rw [if_neg hunit] at hfacts
      cases hfacts
  · cases hfacts

theorem comparisonFacts_hold {l r : Expr F} {eq : Bool} {a b : Value F} {w₁ w₂ w₂' : W} {t₁ t₂ : List (Event F)}
    (hl : evalExpr c l env w = (.ok a, w₁, t₁)) (hr : evalExpr c r env w₂ = (.ok b, w₂', t₂))
    (hv : twBinop a (if eq then .eq else .ne) b = .ok v) : FactsHold (comparisonFacts l r eq) env v := by
  unfold comparisonFacts
  cases hlr : eqGuardFacts l r eq with
  | some facts => exact eqGuardFacts_hold hlr hl hr (.inl hv)
  | none =>
    cases hrl : eqGuardFacts r l eq with
    | some facts => exact eqGuardFacts_hold hrl hr hl (.inr hv)
    | none => exact .none env v

theorem FactsHold.flip {facts : GuardFacts} {a : Value F} (h : FactsHold facts env a)
    (hv : v.isTruthy = !a.isTruthy) : FactsHold facts.flip env v := by
  unfold GuardFacts.flip
  split_ifs with hempty
  · obtain ⟨⟨⟨hthen, helse⟩, -⟩, -⟩ : ((facts.tryThen = [] ∧ facts.tryElse = []) ∧ facts.optThen = []) ∧
        facts.optElse = [] := by simpa [GuardFacts.isEmpty] using hempty
    refine ⟨fun _ x hx => ?_, fun _ x hx => ?_⟩
    · rw [hthen] at hx
      cases hx
    · rw [helse] at hx
      cases hx
  · refine ⟨fun htrue => h.2 ?_, fun hfalse => h.1 ?_⟩
    · simpa [hv] using htrue
    · simpa [hv] using hfalse

end

/-- `apply_binop` yields the operator's value. -/
theorem applyBinop_value {a b v : Value F} {op : BinOp} {w w' : W} {t : List (Event F)}
    (h : applyBinop a op b w = (.ok v, w', t)) : twBinop a op b = .ok v := by
  unfold applyBinop at h
  split_ifs at h
  · rcases Traced.bind_inv h with ⟨e, he, -⟩ | ⟨_, w₁, t₁, t₂, -, hlift, -⟩
    · cases he
    · exact (Prod.mk.inj hlift).1
  · exact (Prod.mk.inj h).1

/-- The operands and the value of a strict operator. -/
theorem strict_inv {l r : Expr F} {op : BinOp} {env : Env F} {v : Value F} {w w' : W} {t : List (Event F)}
    (h : (do
      let a ← evalExpr c l env
      let b ← .wrap .pend (evalExpr c r env)
      applyBinop a op b : TW F W (Value F)) w = (.ok v, w', t)) :
    ∃ a w₁ t₁ b w₂ t₂, evalExpr c l env w = (.ok a, w₁, t₁) ∧ evalExpr c r env w₁ = (.ok b, w₂, t₂) ∧
      twBinop a op b = .ok v := by
  rcases Traced.bind_inv h with ⟨e, he, -⟩ | ⟨a, w₁, t₁, _, ha, h, -⟩
  · cases he
  rcases Traced.bind_inv h with ⟨e, he, -⟩ | ⟨b, w₂, t₂, _, hb, h, -⟩
  · cases he
  obtain ⟨hr, hw⟩ := Prod.mk.inj hb
  exact ⟨a, w₁, t₁, b, w₂, _, ha, by rw [← hr, ← (Prod.mk.inj hw).1], applyBinop_value h⟩

omit [FloatModel F] in
/-- A call that returns has run its callee. -/
theorem callResolved_value {shown : String} {args : List (Value F)} {callee : Callee} {v : Value F} {w w' : W}
    {t : List (Event F)} (h : callResolved c shown args callee w = (.ok v, w', t)) :
    c.call callee args w = (.ok v, w') := by
  have hhost (h : Traced.host (ε := Event F) (c.call callee args) w = (.ok v, w', t)) :
      c.call callee args w = (.ok v, w') := by
    obtain ⟨hv, hw⟩ := Prod.mk.inj h
    exact Prod.ext hv (Prod.mk.inj hw).1
  cases callee with
  | builtin name => exact hhost h
  | learnable name => exact hhost h
  | pattern p =>
    unfold callResolved at h
    dsimp only at h
    split_ifs at h
    · cases (Prod.mk.inj h).1
    · exact hhost h

/-- A call of the name `not` on one argument. -/
theorem not_inv (hnot : Negates c) {arg : Expr F} {line : Nat} {env : Env F} {v : Value F} {w w' : W}
    {t : List (Event F)} (h : evalExpr c (.fnCall "not" [arg] line) env w = (.ok v, w', t)) :
    ∃ a w₁ t₁, evalExpr c arg env w = (.ok a, w₁, t₁) ∧ v.isTruthy = !a.isTruthy := by
  have hbare : bareIdentArg c "not" arg = none := by
    unfold bareIdentArg
    split
    · simp
    · rfl
  rw [evalExpr, evalCallArgs, hbare] at h
  rcases Traced.bind_inv h with ⟨e, he, -⟩ | ⟨vs, w₁, t₁, t₂, hargs, h, -⟩
  · cases he
  rcases Traced.bind_inv hargs with ⟨e, he, -⟩ | ⟨a, w₂, t₃, t₄, ha, hargs, -⟩
  · cases he
  obtain ⟨rfl, rfl⟩ : vs = [a] ∧ w₁ = w₂ := by
    obtain ⟨hvs, hw⟩ := Prod.mk.inj hargs
    exact ⟨(Except.ok.inj hvs).symm, (Prod.mk.inj hw).1.symm⟩
  refine ⟨a, w₁, t₃, ha, ?_⟩
  cases hres : c.resolve "not" with
  | none =>
    rw [hres] at h
    cases (Prod.mk.inj h).1
  | some callee =>
    rw [hres] at h
    exact hnot callee hres a w₁ v w' (callResolved_value h)

mutual
/-- The facts of a guard hold when it comes out. -/
theorem guardFacts_hold (hnot : Negates c) : ∀ (e : Expr F) (env : Env F) (w : W) (v : Value F) (w' : W)
    (t : List (Event F)), evalExpr c e env w = (.ok v, w', t) → FactsHold (guardFacts true e) env v
  | .fieldAccess object field, env, w, v, w', t, h => by
    unfold guardFacts
    split_ifs with hfield
    · subst hfield
      split
      · exact factsHold_ok h
      · exact .none env v
    · exact .none env v
  | .binaryOp l .and r, env, w, v, w', t, h => by
    rw [evalExpr] at h
    rcases Traced.bind_inv h with ⟨e, he, -⟩ | ⟨a, w₁, t₁, t₂, ha, h, -⟩
    · cases he
    have hfacts := guardFacts_hold hnot l env w a w₁ t₁ ha
    refine ⟨fun hv => hfacts.1 ?_, fun _ _ hx => absurd hx List.not_mem_nil⟩
    by_contra hfalse
    rw [if_neg hfalse] at h
    obtain rfl : Value.bool false = v := Except.ok.inj (Prod.mk.inj h).1
    cases hv
  | .binaryOp l .or r, env, w, v, w', t, h => by
    rw [evalExpr] at h
    rcases Traced.bind_inv h with ⟨e, he, -⟩ | ⟨a, w₁, t₁, t₂, ha, h, -⟩
    · cases he
    have hleft := guardFacts_hold hnot l env w a w₁ t₁ ha
    refine ⟨fun _ _ hx => absurd hx List.not_mem_nil, fun hv x hx => ?_⟩
    by_cases htruthy : a.isTruthy = true
    · rw [if_pos htruthy] at h
      obtain rfl : Value.bool true = v := Except.ok.inj (Prod.mk.inj h).1
      cases hv
    · rw [if_neg htruthy] at h
      rcases Traced.bind_inv h with ⟨e, he, -⟩ | ⟨b, w₂, t₃, t₄, hb, h, -⟩
      · cases he
      have hright := guardFacts_hold hnot r env w₁ b w₂ t₃ hb
      obtain rfl : Value.bool b.isTruthy = v := Except.ok.inj (Prod.mk.inj h).1
      rcases List.mem_append.1 hx with hx | hx
      · exact hleft.2 (by simpa using htruthy) x hx
      · exact hright.2 hv x hx
  | .binaryOp l .eq r, env, w, v, w', t, h => by
    rw [evalExpr] at h
    obtain ⟨a, w₁, t₁, b, w₂, t₂, hl, hr, hv⟩ := strict_inv h
    have hfacts : FactsHold (comparisonFacts l r true) env v := comparisonFacts_hold hl hr hv
    exact hfacts
    all_goals exact nofun
  | .binaryOp l .ne r, env, w, v, w', t, h => by
    rw [evalExpr] at h
    obtain ⟨a, w₁, t₁, b, w₂, t₂, hl, hr, hv⟩ := strict_inv h
    have hfacts : FactsHold (comparisonFacts l r false) env v := comparisonFacts_hold hl hr hv
    exact hfacts
    all_goals exact nofun
  | .fnCall name args line, env, w, v, w', t, h => by
    unfold guardFacts callFacts
    split_ifs with hname
    · subst hname
      exact argFacts_hold hnot args line env w v w' t h
    · exact .none env v
  | .binaryOp _ .add _, env, _, v, _, _, _ | .binaryOp _ .sub _, env, _, v, _, _, _
  | .binaryOp _ .mul _, env, _, v, _, _, _ | .binaryOp _ .div _, env, _, v, _, _, _
  | .binaryOp _ .gt _, env, _, v, _, _, _ | .binaryOp _ .lt _, env, _, v, _, _, _
  | .binaryOp _ .ge _, env, _, v, _, _, _ | .binaryOp _ .le _, env, _, v, _, _, _
  | .stringLit _, env, _, v, _, _, _ | .floatLit _, env, _, v, _, _, _ | .boolLit _, env, _, v, _, _, _
  | .ident _, env, _, v, _, _, _ | .qualifiedCall _ _ _, env, _, v, _, _, _ | .ifElse _ _ _, env, _, v, _, _, _
  | .list _, env, _, v, _, _, _ | .indexAccess _ _, env, _, v, _, _, _ | .structLit _ _, env, _, v, _, _, _
  | .blockIfElse _ _ _, env, _, v, _, _, _ | .matchExpr _ _, env, _, v, _, _, _ | .try_ _, env, _, v, _, _, _
  | .handleSource _, env, _, v, _, _, _ | .provBind _ _, env, _, v, _, _, _ => .none env v

theorem argFacts_hold (hnot : Negates c) : ∀ (args : List (Expr F)) (line : Nat) (env : Env F) (w : W) (v : Value F)
    (w' : W) (t : List (Event F)), evalExpr c (.fnCall "not" args line) env w = (.ok v, w', t) →
      FactsHold (argFacts true args).flip env v
  | [arg], line, env, w, v, w', t, h => by
    obtain ⟨a, w₁, t₁, ha, hv⟩ := not_inv hnot h
    exact (guardFacts_hold hnot arg env w a w₁ t₁ ha).flip hv
  | [], _, env, _, v, _, _, _ => .none env v
  | _ :: _ :: _, _, env, _, v, _, _, _ => .none env v
end

end Metalogos.Check
