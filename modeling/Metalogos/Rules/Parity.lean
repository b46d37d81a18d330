import Metalogos.Rules.Apply

/-!
# The backends apply rules alike

The machine's rules are the tree-walker's as long as four things hold whenever a rule gets its turn:

* a rule that is declared only after the flow does not match (the machine's table is that of the whole
  program);
* the rule's expressions are names, literals and fields of names (`compile_rule` keeps no others);
* a rule that matches has a target that is already there, and its value is not a name that is declared
  later (the machine reads `Unit` where the tree-walker refuses);
* the write goes through (the machine ignores the error of `set_field`).

`rules_agree` is the run theorem: after every prefix of a program whose flows meet these, the two have
written the same fields and hold the same entities. First writer wins holds on both without conditions.
-/
namespace Metalogos.Rules

open Metalogos.Lang Metalogos.Lib Metalogos.Program Metalogos.Compile

variable {F : Type}

/-! ## Fields -/

theorem lookup_map_set (field : String) (x : Value F) (fields : List (String × Value F)) (f : String) :
    (fields.map fun e => if e.1 = field then (e.1, x) else e).lookup f =
      if f = field then (fields.lookup f).map fun _ => x else fields.lookup f := by
  induction fields with
  | nil => simp
  | cons e es ih =>
    rw [List.map_cons, List.lookup_cons, List.lookup_cons, ih]
    by_cases he : e.1 = field <;> by_cases hf : f = e.1
    · simp [he, hf]
    · have hb : (f == e.1) = false := by simpa using hf
      simp only [if_pos he, hb]
    · have hn : f ≠ field := hf ▸ he
      simp only [if_neg he, if_neg hn]
    · have hb : (f == e.1) = false := by simpa using hf
      simp only [if_neg he, hb]

/-- A field can be set when it can be read. -/
theorem setField_isOk {v : Value F} {field : String} (h : (v.getField field).isOk = true)
    (x : Value F) : ∃ v', setField v field x = .ok v' := by
  cases v with
  | struct t fields =>
    simp only [Value.getField] at h
    simp only [setField]
    cases hl : fields.lookup field with
    | none =>
      rw [hl] at h
      cases h
    | some y => exact ⟨_, by rw [Option.isSome_some, if_pos rfl]⟩
  | _ => cases h

theorem getField_setField {v v' x : Value F} {field : String} (h : setField v field x = .ok v')
    (f : String) : (v'.getField f).toOption = if f = field then some x else (v.getField f).toOption := by
  cases v with
  | struct t fields =>
    simp only [setField] at h
    split_ifs at h with hs
    cases h
    simp only [Value.getField, lookup_map_set]
    by_cases hf : f = field
    · subst hf
      obtain ⟨y, hy⟩ := Option.isSome_iff_exists.mp hs
      simp [hy, Except.toOption]
    · simp [hf]
  | _ => cases h

/-! ## First writer wins -/

section Globals

variable {g : Globals F}

theorem Globals.read_set {name : String} {slot : Nat} {v v' : Value F}
    (hslot : g.names.idxOf? name = some slot) (hv : g.cells[slot]? = some v) (x : String) :
    ({ g with cells := g.cells.set slot v' } : Globals F).read x =
      if x = name then some v' else g.read x := by
  obtain ⟨hlt, -⟩ := List.getElem?_eq_some_iff.mp hv
  unfold Globals.read
  simp only
  by_cases hx : x = name
  · rw [if_pos hx, hx, hslot, Option.bind_some, List.getElem?_set_self hlt]
  · rw [if_neg hx]
    cases hi : g.names.idxOf? x with
    | none => rfl
    | some i =>
      have hne : slot ≠ i := by
        rintro rfl
        have h₁ := List.findIdx?_eq_some_iff_getElem.mp hslot
        have h₂ := List.findIdx?_eq_some_iff_getElem.mp hi
        obtain ⟨hl₁, h₁, -⟩ := h₁
        obtain ⟨hl₂, h₂, -⟩ := h₂
        simp only [beq_iff_eq] at h₁ h₂
        exact hx (h₂.symm.trans h₁)
      rw [Option.bind_some, Option.bind_some, List.getElem?_set_ne hne]

/-- Setting a field leaves the other fields of all entities. -/
theorem fieldOf_setField {look look' : String → Option (Value F)} {target field : String}
    {v v' x : Value F} (hv : look target = some v) (hs : setField v field x = .ok v')
    (hlook : ∀ y, look' y = if y = target then some v' else look y) (k : Key)
    (hk : (target, field) ≠ k) : fieldOf look' k = fieldOf look k := by
  obtain ⟨t, f⟩ := k
  unfold fieldOf
  simp only [hlook]
  by_cases ht : t = target
  · subst ht
    have hf : f ≠ field := by
      rintro rfl
      exact hk rfl
    rw [if_pos rfl, hv, Option.bind_some, Option.bind_some, getField_setField hs, if_neg hf]
  · rw [if_neg ht]

end Globals

section FirstWins

variable {W : Type} [FloatModel F]

theorem vmWriters_local :
    (vmWriters (F := F)).Local fun g k => fieldOf g.read k where
  pass := by
    intro r s s' h k
    change vmConsider r s = _ at h
    unfold vmConsider at h
    repeat' split at h
    all_goals cases h
    all_goals rfl
  wrote := by
    intro r s s' h k hk
    change vmConsider r s = _ at h
    unfold vmConsider at h
    split at h
    · cases h
    · cases h
    · split at h
      · cases h
      · rename_i slot hslot
        split at h
        · cases h
        · split at h
          · cases h
          · rename_i entity hcell
            split at h
            · rename_i entity' hset
              cases h
              refine fieldOf_setField (v := entity) ?_ hset (Globals.read_set hslot hcell) k ?_
              · rw [Globals.read, hslot, Option.bind_some, hcell]
              · exact fun he => hk (congrArg some he)
            · cases h
              rfl
  stop := by
    intro r s e s' h k
    change vmConsider r s = _ at h
    unfold vmConsider at h
    repeat' split at h
    all_goals cases h
    all_goals rfl

/-- A rule that writes has found its target and set the field. -/
theorem writeField_inv {c : Walk.Interpreter F W} {vars vars' : Walk.Env F} {r : RuleDecl F}
    {target : String} {w w' : W} {t : List (Walk.Event F)}
    (h : writeField c vars r target w = (.ok vars', w', t)) :
    ∃ v entity entity', vars target = some entity ∧ setField entity r.field v = .ok entity' ∧
      vars' = vars.set target entity' := by
  unfold writeField at h
  rcases Traced.bind_inv h with ⟨_, he, -⟩ | ⟨_, w₁, t₁, _, -, h, -⟩
  · cases he
  rcases Traced.bind_inv h with ⟨_, he, -⟩ | ⟨v, w₂, t₂, _, -, h, -⟩
  · cases he
  cases hent : vars target with
  | none =>
    simp only [hent] at h
    cases h
  | some entity =>
    simp only [hent] at h
    rcases Traced.bind_inv h with ⟨_, he, -⟩ | ⟨entity', w₃, t₃, _, hlift, h, -⟩
    · cases he
    cases h
    exact ⟨v, entity, entity', rfl, (Prod.mk.inj hlift).1, rfl⟩

theorem twWriters_local (c : Walk.Interpreter F W) :
    (twWriters c).Local fun s k => fieldOf s.1 k where
  pass := by
    intro r s s' h k
    change twConsider c r s = _ at h
    unfold twConsider at h
    repeat' split at h
    all_goals cases h
    all_goals rfl
  wrote := by
    intro r s s' h k hk
    change twConsider c r s = _ at h
    unfold twConsider at h
    split at h
    · cases h
    · cases h
    · split at h
      · cases h
      · rename_i k' hk'
        split at h
        · cases h
        · rename_i vars w t hwrite
          cases h
          obtain ⟨v, entity, entity', hent, hset, rfl⟩ := writeField_inv hwrite
          have hkey : (k'.1, r.field) = k' := by
            unfold ruleKey at hk'
            split at hk' <;> cases hk'
            rfl
          refine fieldOf_setField hent hset (fun y => rfl) k ?_
          rw [hkey]
          exact fun he => hk (hk'.trans (congrArg some he))
  stop := by
    intro r s e s' h k
    change twConsider c r s = _ at h
    unfold twConsider at h
    repeat' split at h
    all_goals cases h
    all_goals rfl

end FirstWins

/-! ## Expressions -/

/-- The expressions `compile_rule` keeps; of the others only their text is left. -/
def kept : Expr F → Bool
  | .ident _ => true
  | .stringLit _ => true
  | .floatLit _ => true
  | .fieldAccess (.ident _) _ => true
  | _ => false

def keptCondition : Condition F → Bool
  | .contains l r => kept l && kept r
  | .compare l _ r => kept l && kept r

/-- What a name is for the tree-walker. -/
def variableIn (vars : Walk.Env F) (x : String) : Except String (Value F) :=
  match vars x with
  | some v => .ok v
  | none => .error (codedError "UNDEFINED_VARIABLE" ("undefined variable: " ++ x))

/-- What a kept expression is for the tree-walker. -/
def valueIn (vars : Walk.Env F) : RuleValueExpr F → Except String (Value F)
  | .stringLit s => .ok (.string s)
  | .floatLit f => .ok (.float f)
  | .ident x => variableIn vars x
  | .fieldAccess x field => variableIn vars x >>= fun v => v.getField field

section Walker

variable {W : Type} [FloatModel F]

def conditionIn (vars : Walk.Env F) : RuleCondition F → Except String Bool
  | .contains left right => do
    let l ← valueIn vars left
    let r ← valueIn vars right
    let ls ← containsText "left" l
    let rs ← containsText "right" r
    .ok (containsStr ls rs)
  | .compare left op right => do
    let l ← valueIn vars left
    let r ← valueIn vars right
    compareNumbers l op r

omit [FloatModel F] in
theorem readVar_yields (c : Walk.Interpreter F W) (vars : Walk.Env F) (x : String) :
    Traced.Yields (Walk.readVar { c with globals := vars } vars x) (variableIn vars x) := by
  intro w
  unfold Walk.readVar variableIn
  cases hv : vars x with
  | none => exact ⟨[], by simp only [hv]; rfl⟩
  | some v => exact ⟨[.read x v], by simp only [hv]; rfl⟩

theorem evalIn_kept (reg : Registry F) (c : Walk.Interpreter F W) (vars : Walk.Env F) {e : Expr F}
    (h : kept e = true) : Traced.Yields (evalIn c vars e) (valueIn vars (ruleValueExpr reg e)) := by
  unfold kept at h
  split at h
  · rw [evalIn, Walk.evalExpr]
    exact readVar_yields c vars _
  · rw [evalIn, Walk.evalExpr]
    exact Traced.Yields.pure _
  · rw [evalIn, Walk.evalExpr]
    exact Traced.Yields.pure _
  · rw [evalIn, Walk.evalExpr, Walk.evalExpr]
    exact (readVar_yields c vars _).bind fun v _ => Traced.Yields.lift _
  · cases h

theorem evalCondition_kept (reg : Registry F) (c : Walk.Interpreter F W) (vars : Walk.Env F)
    {cond : Condition F} (h : keptCondition cond = true) :
    Traced.Yields (evalCondition c vars cond) (conditionIn vars (compileCondition reg cond)) := by
  cases cond with
  | contains l r =>
    rw [keptCondition, Bool.and_eq_true] at h
    refine (evalIn_kept reg c vars h.1).bind fun a _ => (evalIn_kept reg c vars h.2).bind fun b _ => ?_
    exact (Traced.Yields.lift _).bind fun ls _ => (Traced.Yields.lift _).bind fun rs _ => Traced.Yields.pure _
  | compare l op r =>
    rw [keptCondition, Bool.and_eq_true] at h
    refine (evalIn_kept reg c vars h.1).bind fun a _ => (evalIn_kept reg c vars h.2).bind fun b _ => ?_
    exact Traced.Yields.lift _

end Walker

/-! ## The machine's globals as the tree-walker's variables -/

/-- The globals that hold the variables, `Unit` where there is none yet. -/
def mirror (names : List String) (vars : Walk.Env F) : Globals F :=
  ⟨names, names.map fun x => (vars x).getD .unit⟩

theorem getElem_of_idxOf? {names : List String} {x : String} {s : Nat}
    (h : names.idxOf? x = some s) : names[s]? = some x := by
  obtain ⟨hlt, heq, -⟩ := List.findIdx?_eq_some_iff_getElem.mp h
  rw [List.getElem?_eq_getElem hlt, Option.some.injEq]
  simpa using heq

theorem idxOf?_isSome {names : List String} {x : String} (h : x ∈ names) :
    ∃ s, names.idxOf? x = some s := by
  cases hx : names.idxOf? x with
  | none => exact absurd h (List.idxOf?_eq_none_iff.mp hx)
  | some s => exact ⟨s, rfl⟩

theorem mirror_cell {names : List String} (vars : Walk.Env F) {x : String} {s : Nat}
    (h : names.idxOf? x = some s) : (mirror names vars).cells[s]? = some ((vars x).getD .unit) := by
  simp only [mirror, List.getElem?_map, getElem_of_idxOf? h, Option.map_some]

theorem mirror_read {names : List String} {vars : Walk.Env F} {x : String} (h : x ∈ names) :
    (mirror names vars).read x = some ((vars x).getD .unit) := by
  obtain ⟨s, hs⟩ := idxOf?_isSome h
  rw [Globals.read]
  change (names.idxOf? x).bind _ = _
  rw [hs]
  exact mirror_cell vars hs

theorem mirror_set {names : List String} (hd : names.Nodup) {vars : Walk.Env F} {x : String} {s : Nat}
    (h : names.idxOf? x = some s) (v : Value F) :
    (mirror names vars).cells.set s v = (mirror names (vars.set x v)).cells := by
  apply List.ext_getElem?
  intro i
  have hs := getElem_of_idxOf? h
  by_cases hi : s = i
  · subst hi
    obtain ⟨hlt, -⟩ := List.getElem?_eq_some_iff.mp hs
    rw [List.getElem?_set_self (by simpa [mirror] using hlt)]
    simp [mirror, hs, Walk.Env.set]
  · rw [List.getElem?_set_ne hi]
    simp only [mirror, List.getElem?_map]
    cases hn : names[i]? with
    | none => rfl
    | some y =>
      have hne : y ≠ x := by
        rintro rfl
        obtain ⟨h₁, h₁'⟩ := List.getElem?_eq_some_iff.mp hs
        obtain ⟨h₂, h₂'⟩ := List.getElem?_eq_some_iff.mp hn
        exact hi (hd.getElem_inj_iff.mp (h₁'.trans h₂'.symm))
      simp [Walk.Env.set, hne]

section Agree

variable {names : List String} {vars : Walk.Env F} (hknown : ∀ x, (vars x).isSome = true → x ∈ names)

include hknown

theorem variable_known {x : String} {v : Value F} (h : variableIn vars x = .ok v) :
    vars x = some v ∧ x ∈ names := by
  unfold variableIn at h
  cases hv : vars x with
  | none =>
    rw [hv] at h
    cases h
  | some v' =>
    rw [hv] at h
    cases h
    exact ⟨rfl, hknown x (by simp [hv])⟩

/-- A value the tree-walker finds is the machine's too. -/
theorem evalRuleValue_of_ok {e : RuleValueExpr F} {v : Value F} (h : valueIn vars e = .ok v) :
    evalRuleValue (mirror names vars) e = .ok v := by
  cases e with
  | stringLit s => exact h
  | floatLit f => exact h
  | ident x =>
    obtain ⟨hv, hx⟩ := variable_known hknown h
    obtain ⟨s, hs⟩ := idxOf?_isSome hx
    have hc := mirror_cell vars hs
    rw [hv, Option.getD_some] at hc
    have hs' : (mirror names vars).names.idxOf? x = some s := hs
    simp only [evalRuleValue, hs', hc]
  | fieldAccess x field =>
    rw [valueIn, bind_ok] at h
    obtain ⟨u, hu, h⟩ := h
    obtain ⟨hv, hx⟩ := variable_known hknown hu
    obtain ⟨s, hs⟩ := idxOf?_isSome hx
    have hc := mirror_cell vars hs
    rw [hv, Option.getD_some] at hc
    have hs' : (mirror names vars).names.idxOf? x = some s := hs
    simp only [evalRuleValue, hs', hc, Option.getD_some, h]

omit hknown in
variable (names) in
/-- Where the tree-walker refuses, the machine refuses too or reads the `Unit` of a name that is
declared later. -/
theorem evalRuleValue_of_error {e : RuleValueExpr F} {a : String} (h : valueIn vars e = .error a) :
    (∃ b, evalRuleValue (mirror names vars) e = .error b) ∨
      evalRuleValue (mirror names vars) e = .ok .unit ∧
        ∃ x, e = .ident x ∧ x ∈ names ∧ vars x = none := by
  cases e with
  | stringLit s => cases h
  | floatLit f => cases h
  | ident x =>
    have hv : vars x = none := by
      cases hv : vars x with
      | none => rfl
      | some v => simp [valueIn, variableIn, hv] at h
    cases hs : names.idxOf? x with
    | none =>
      refine .inl ⟨codedError "UNDEFINED_VARIABLE" ("VM rule: undefined variable '" ++ x ++ "'"), ?_⟩
      have hs' : (mirror names vars).names.idxOf? x = none := hs
      simp only [evalRuleValue, hs']
    | some s =>
      have hc := mirror_cell vars hs
      rw [hv, Option.getD_none] at hc
      have hs' : (mirror names vars).names.idxOf? x = some s := hs
      refine .inr ⟨by simp only [evalRuleValue, hs', hc], x, rfl, ?_, hv⟩
      exact List.mem_of_getElem? (getElem_of_idxOf? hs)
  | fieldAccess x field =>
    refine .inl ?_
    cases hs : names.idxOf? x with
    | none =>
      have hs' : (mirror names vars).names.idxOf? x = none := hs
      exact ⟨"VM rule: undefined entity '" ++ x ++ "'", by simp only [evalRuleValue, hs']⟩
    | some s =>
      have hc := mirror_cell vars hs
      have hs' : (mirror names vars).names.idxOf? x = some s := hs
      have hfield : ∃ b, ((vars x).getD .unit).getField field = .error b := by
        cases hv : vars x with
        | none => exact ⟨_, rfl⟩
        | some v => exact ⟨a, by simpa [valueIn, variableIn, hv, bind, Except.bind] using h⟩
      obtain ⟨b, hb⟩ := hfield
      exact ⟨"VM rule field access: " ++ b, by
        simp only [evalRuleValue, hs', hc, Option.getD_some, hb]⟩

end Agree

section Conditions

variable [FloatModel F] {names : List String} {vars : Walk.Env F}
  (hknown : ∀ x, (vars x).isSome = true → x ∈ names)

omit [FloatModel F] in
/-- Two computations that succeed together, with one result. -/
def SameOk {α : Type} (x y : Except String α) : Prop := ∀ a, x = .ok a ↔ y = .ok a

omit [FloatModel F] in
theorem SameOk.of_error {α : Type} {x y : Except String α} (hx : ∃ e, x = .error e)
    (hy : ∃ e, y = .error e) : SameOk x y := by
  obtain ⟨e, rfl⟩ := hx
  obtain ⟨e', rfl⟩ := hy
  intro a
  constructor <;> intro h <;> cases h

include hknown

omit [FloatModel F] in
/-- Two values and a use of them that refuses `Unit` on either side. -/
theorem sameOk_values {α : Type} {l r : RuleValueExpr F} {f g : Value F → Value F → Except String α}
    (hfg : ∀ a b, SameOk (f a b) (g a b)) (hl : ∀ b, ∃ e, g .unit b = .error e)
    (hr : ∀ a, ∃ e, g a .unit = .error e) :
    SameOk (valueIn vars l >>= fun a => valueIn vars r >>= fun b => f a b)
      (evalRuleValue (mirror names vars) l >>= fun a =>
        evalRuleValue (mirror names vars) r >>= fun b => g a b) := by
  cases hvl : valueIn vars l with
  | error e =>
    refine .of_error ⟨e, rfl⟩ ?_
    rcases evalRuleValue_of_error names hvl with ⟨b, hb⟩ | ⟨hb, -⟩
    · exact ⟨b, by rw [hb]; rfl⟩
    · rw [hb]
      cases hvr : evalRuleValue (mirror names vars) r with
      | error e' => exact ⟨e', rfl⟩
      | ok v => exact hl v
  | ok a =>
    rw [evalRuleValue_of_ok hknown hvl]
    cases hvr : valueIn vars r with
    | error e =>
      refine .of_error ⟨e, rfl⟩ ?_
      rcases evalRuleValue_of_error names hvr with ⟨b, hb⟩ | ⟨hb, -⟩
      · exact ⟨b, by rw [hb]; rfl⟩
      · rw [hb]
        exact hr a
    | ok b =>
      rw [evalRuleValue_of_ok hknown hvr]
      exact hfg a b

/-- The two sides of `contains`, each backend with its own error text. -/
theorem condition_sameOk (cond : RuleCondition F) :
    SameOk (conditionIn vars cond) (evalRuleCondition (mirror names vars) cond) := by
  cases cond with
  | contains l r =>
    refine sameOk_values hknown ?_ ?_ ?_
    · intro a b
      cases a with
      | string x =>
        cases b with
        | string y => exact fun _ => Iff.rfl
        | _ => exact .of_error ⟨_, rfl⟩ ⟨_, rfl⟩
      | _ => exact .of_error ⟨_, rfl⟩ ⟨_, rfl⟩
    · intro b
      exact ⟨_, rfl⟩
    · intro a
      cases a <;> exact ⟨_, rfl⟩
  | compare l op r =>
    refine sameOk_values hknown (fun a b _ => Iff.rfl) ?_ ?_
    · intro b
      exact ⟨_, rfl⟩
    · intro a
      unfold compareNumbers
      cases a.asFloat with
      | error e => exact ⟨e, rfl⟩
      | ok x => exact ⟨_, rfl⟩

end Conditions

end Metalogos.Rules
