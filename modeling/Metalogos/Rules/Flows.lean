import Metalogos.Rules.Parity

/-!
# Programs with rules and flows

`rules_agree`: a program is compiled whole and run declaration by declaration. As long as every rule that
gets its turn before a flow meets `turnOk`, the machine and the tree-walker have after each declaration
written the same fields, hold the same entities, and have both stopped or both not.
-/
namespace Metalogos.Rules

open Metalogos.Lang Metalogos.Lib Metalogos.Program Metalogos.Compile

variable {F W : Type} [FloatModel F]

/-! ## The condition -/

/-- The entity a rule writes. -/
def targetName (r : RuleDecl F) : String :=
  match r.target with
  | .ident name => name
  | _ => ""

/-- A matching rule can write: its target is there and has the field, its value is an expression
`compile_rule` keeps, and no name that is declared later. -/
def writeOk (reg : Registry F) (names : List String) (r : RuleDecl F) (vars : Walk.Env F) : Bool :=
  kept r.value &&
  (match r.value with
    | .ident x => (vars x).isSome || !names.contains x
    | _ => true) &&
  match vars (targetName r) with
  | none => false
  | some entity => (entity.getField r.field).isOk ||
      !(evalRuleValue (mirror names vars) (ruleValueExpr reg r.value)).isOk

/-- What a rule has to meet on its turn; the flag says whether it was declared before the flow. -/
def turnOk (reg : Registry F) (names : List String) (r : RuleDecl F × Bool) (s : Walk.Env F × W) :
    Bool :=
  match r.2, evalRuleCondition (mirror names s.1) (compileCondition reg r.1.condition) with
  | true, .ok true => keptCondition r.1.condition && writeOk reg names r.1 s.1
  | true, _ => keptCondition r.1.condition
  | false, .ok false => true
  | false, .ok true => !names.contains (targetName r.1)
  | false, .error _ => false

/-! ## One flow -/

/-- The tree-walker on the rules of the whole program: it does nothing with those it has not met. -/
def flaggedWriters (c : Walk.Interpreter F W) :
    Writers (RuleDecl F × Bool) Key (Walk.Env F × W) String where
  key r := ruleKey r.1
  consider r s := if r.2 then twConsider c r.1 s else .pass s

omit [FloatModel F] in
/-- The rules a flow has before it, and those after it. -/
def flagged (met later : List (RuleDecl F)) : List (RuleDecl F × Bool) :=
  met.map (·, true) ++ later.map (·, false)

/-- Every rule of the program that gets its turn before a flow meets the condition. -/
def flowOk (reg : Registry F) (c : Walk.Interpreter F W) (names : List String)
    (met later : List (RuleDecl F)) (s : Walk.Env F × W) : Bool :=
  (flaggedWriters c).turns (turnOk reg names) (byPriority (·.1.priority) (flagged met later)) (s, [])

omit [FloatModel F] in
/-- `compile_rule` on a rule whose target is a name. -/
def compiled (reg : Registry F) (r : RuleDecl F) : CompiledRule F where
  condition := compileCondition reg r.condition
  targetName := targetName r
  field := r.field
  value := ruleValueExpr reg r.value
  priority := r.priority

omit [FloatModel F] in
theorem compileRule_eq {reg : Registry F} {r : RuleDecl F} {k : CompiledRule F}
    (h : compileRule reg r = .ok k) : k = compiled reg r ∧ ∃ t, r.target = .ident t := by
  unfold compileRule at h
  split at h
  · rename_i name ht
    cases h
    refine ⟨?_, name, ht⟩
    simp [compiled, targetName, ht]
  · cases h

theorem twExecuteRules_flagged (c : Walk.Interpreter F W) (met later : List (RuleDecl F))
    (s : Walk.Env F × W) :
    twExecuteRules c met s =
      (flaggedWriters c).run (byPriority (·.1.priority) (flagged met later)) (s, []) := by
  have hdrop : ∀ r s, Prod.snd r = false → (flaggedWriters c).consider r s = .pass s := by
    intro r s hr
    simp [flaggedWriters, hr]
  rw [← Writers.run_filter _ Prod.snd hdrop, ← byPriority_filter]
  have hmet : (flagged met later).filter Prod.snd = met.map (·, true) := by
    rw [flagged, List.filter_append, List.filter_map, List.filter_map]
    simp [Function.comp_def]
  rw [hmet, ← byPriority_map (fun r => r.priority) (fun r => r.1.priority) (·, true) met
    (fun _ => rfl), Writers.run_map]
  rfl

omit [FloatModel F] in
theorem map_flagged (reg : Registry F) (met later : List (RuleDecl F)) :
    (byPriority (·.1.priority) (flagged met later)).map (fun r => compiled reg r.1) =
      byPriority (·.priority) ((met ++ later).map (compiled reg)) := by
  rw [byPriority_map (fun r => r.1.priority) (fun r => r.priority) (fun r => compiled reg r.1)
    (flagged met later) (fun _ => rfl)]
  simp [flagged, Function.comp_def]

/-- The machine holds what the tree-walker holds. -/
structure Mirrors (names : List String) (s : Walk.Env F × W) (g : Globals F) : Prop where
  cells : g = mirror names s.1
  known : ∀ x, (s.1 x).isSome = true → x ∈ names

omit [FloatModel F] in
/-- The only kept expression that is compiled to a name is that name. -/
theorem kept_ident {reg : Registry F} {e : Expr F} {x : String} (h : kept e = true)
    (hx : ruleValueExpr reg e = .ident x) : e = .ident x := by
  unfold kept at h
  split at h
  · rw [ruleValueExpr, RuleValueExpr.ident.injEq] at hx
    rw [hx]
  · cases hx
  · cases hx
  · cases hx
  · cases h

section Turn

variable {reg : Registry F} {c : Walk.Interpreter F W} {names : List String} {vars : Walk.Env F} {w : W}
  {r : RuleDecl F}

/-- A rule that may write: both refuse its value, or both write the same. -/
theorem write_agree (hknown : ∀ x, (vars x).isSome = true → x ∈ names)
    (ht : r.target = .ident (targetName r)) (hok : writeOk reg names r vars = true) :
    (∃ e b, Traced.Yields (writeField c vars r (targetName r)) (.error e) ∧
      evalRuleValue (mirror names vars) (ruleValueExpr reg r.value) = .error b) ∨
    ∃ v entity entity', vars (targetName r) = some entity ∧
      Traced.Yields (writeField c vars r (targetName r)) (.ok (vars.set (targetName r) entity')) ∧
      evalRuleValue (mirror names vars) (ruleValueExpr reg r.value) = .ok v ∧
      setField entity r.field v = .ok entity' := by
  rw [writeOk, Bool.and_eq_true, Bool.and_eq_true] at hok
  obtain ⟨⟨hkept, hident⟩, hent⟩ := hok
  cases hv : vars (targetName r) with
  | none => simp [hv] at hent
  | some entity =>
    have htarget : Traced.Yields (evalIn c vars r.target) (.ok entity) := by
      have := evalIn_kept reg c vars (e := r.target) (by rw [ht]; rfl)
      rwa [ht, ruleValueExpr, valueIn, variableIn, hv, ← ht] at this
    have hvalue := evalIn_kept reg c vars hkept
    cases hr : valueIn vars (ruleValueExpr reg r.value) with
    | error e =>
      have hrefuse : ∃ b, evalRuleValue (mirror names vars) (ruleValueExpr reg r.value) = .error b := by
        rcases evalRuleValue_of_error names hr with hb | ⟨-, x, hx, hxn, hnone⟩
        · exact hb
        · -- the other way out is a name of the program the tree-walker has no value for
          rw [kept_ident hkept hx] at hident
          simp [hnone, hxn] at hident
      obtain ⟨b, hb⟩ := hrefuse
      refine .inl ⟨e, b, ?_, hb⟩
      rw [hr] at hvalue
      exact htarget.bind (g := fun _ => .error e) fun _ _ =>
        hvalue.bind (g := fun _ => .error e) fun _ h => by cases h
    | ok v =>
      refine .inr ?_
      have hv' := evalRuleValue_of_ok hknown hr
      have hget : (entity.getField r.field).isOk = true := by
        simp only [hv, hv', Except.isOk, Except.toBool, Bool.not_true, Bool.or_false] at hent
        exact hent
      obtain ⟨entity', hset⟩ := setField_isOk hget v
      refine ⟨v, entity, entity', rfl, ?_, hv', hset⟩
      rw [hr] at hvalue
      refine htarget.bind (g := fun _ => .ok _) fun _ _ => hvalue.bind (g := fun _ => .ok _) ?_
      intro u hu
      cases hu
      simp only [hv]
      have hlift : Traced.Yields (Traced.lift (setField entity r.field v) : Walk.TW F W (Value F))
          (.ok entity') := by
        rw [hset]
        exact Traced.Yields.lift _
      exact hlift.bind (g := fun e => .ok (vars.set (targetName r) e)) fun a _ =>
        Traced.Yields.pure _

/-- One rule on its turn. -/
theorem turn_agree (hd : names.Nodup) {b : Bool} (ht : r.target = .ident (targetName r))
    {g : Globals F} (hok : turnOk reg names (r, b) (vars, w) = true)
    (hrel : Mirrors names (vars, w) g) :
    Writers.Verdict.Agree (Mirrors names) ((flaggedWriters c).consider (r, b) (vars, w))
      (vmWriters.consider (compiled reg r) g) := by
  obtain ⟨rfl, hknown⟩ := hrel
  replace hknown : ∀ x, (vars x).isSome = true → x ∈ names := hknown
  have hsame := condition_sameOk hknown (compileCondition reg r.condition)
  change Writers.Verdict.Agree _ (if b then twConsider c r (vars, w) else .pass (vars, w))
    (vmConsider (compiled reg r) (mirror names vars))
  have hkey : ruleKey r = some (targetName r, r.field) := by rw [ruleKey, ht]
  cases hcond : evalRuleCondition (mirror names vars) (compileCondition reg r.condition) with
  | error e =>
    cases b with
    | false => simp [turnOk, hcond] at hok
    | true =>
      simp only [turnOk, hcond] at hok
      obtain ⟨t, htw⟩ := evalCondition_kept reg c vars hok w
      cases hin : conditionIn vars (compileCondition reg r.condition) with
      | ok m =>
        rw [(hsame m).mp hin] at hcond
        cases hcond
      | error e' =>
        rw [hin] at htw
        simp only [if_true, twConsider, htw, vmConsider, compiled, hcond]
        exact .stop ⟨rfl, hknown⟩
  | ok met =>
    have hin := (hsame met).mpr hcond
    cases b with
    | false =>
      cases met with
      | false =>
        simp only [Bool.false_eq_true, if_false, vmConsider, compiled, hcond]
        exact .pass ⟨rfl, hknown⟩
      | true =>
        -- a later rule that matches finds no global
        have hnot : targetName r ∉ names := by simpa [turnOk, hcond] using hok
        have hidx : (mirror names vars).names.idxOf? (targetName r) = none :=
          List.idxOf?_eq_none_iff.mpr hnot
        simp only [Bool.false_eq_true, if_false, vmConsider, compiled, hcond, hidx]
        exact .pass ⟨rfl, hknown⟩
    | true =>
      have hkept : keptCondition r.condition = true := by
        cases met <;> simp_all [turnOk]
      obtain ⟨t, htw⟩ := evalCondition_kept reg c vars hkept w
      rw [hin] at htw
      cases met with
      | false =>
        simp only [if_true, twConsider, htw, vmConsider, compiled, hcond]
        exact .pass ⟨rfl, hknown⟩
      | true =>
        have hwrite : writeOk reg names r vars = true := by
          simpa [turnOk, hcond, hkept] using hok
        have htarget : ∃ entity, vars (targetName r) = some entity := by
          cases hv : vars (targetName r) with
          | none => simp [writeOk, hv] at hwrite
          | some entity => exact ⟨entity, rfl⟩
        obtain ⟨entity₀, hent₀⟩ := htarget
        have hmem := hknown (targetName r) (by simp [hent₀])
        obtain ⟨slot, hslot⟩ := idxOf?_isSome hmem
        have hslot' : (mirror names vars).names.idxOf? (targetName r) = some slot := hslot
        have hcell := mirror_cell vars hslot
        rcases write_agree (c := c) hknown ht hwrite with
          ⟨e, b, htw', hb⟩ | ⟨v, entity, entity', hent, htw', hv, hset⟩
        · obtain ⟨t', htw'⟩ := htw' w
          simp only [if_true, twConsider, htw, hkey, htw', vmConsider, compiled, hcond, hslot', hb]
          exact .stop ⟨rfl, hknown⟩
        · obtain ⟨t', htw'⟩ := htw' w
          rw [hent, Option.getD_some] at hcell
          simp only [if_true, twConsider, htw, hkey, htw', vmConsider, compiled, hcond, hslot', hv,
            hcell, hset]
          refine .wrote ⟨?_, ?_⟩
          · rw [mirror_set hd hslot]
            rfl
          · intro x hx
            by_cases hxt : x = targetName r
            · rw [hxt]
              exact hmem
            · exact hknown x (by simpa [Walk.Env.set, hxt] using hx)

end Turn

/-- The rules before one flow. -/
theorem flow_agree {reg : Registry F} {c : Walk.Interpreter F W} {names : List String}
    (hd : names.Nodup) {met later : List (RuleDecl F)}
    (htargets : ∀ r ∈ met ++ later, r.target = .ident (targetName r)) {s : Walk.Env F × W}
    {g : Globals F} (hrel : Mirrors names s g) (hok : flowOk reg c names met later s = true) :
    Writers.EndsAlike (Mirrors names) (twExecuteRules c met s)
      (vmExecuteRules ((met ++ later).map (compiled reg)) g) := by
  rw [twExecuteRules_flagged c met later, vmExecuteRules, byPriority_idem, ← map_flagged]
  refine Writers.run_simulates _ _ s g [] ?_ hrel hok
  intro r hr
  have hmem : r.1 ∈ met ++ later := by
    have hr' : r ∈ flagged met later := (List.perm_insertionSort _ _).subset hr
    simp only [flagged, List.mem_append, List.mem_map] at hr' ⊢
    rcases hr' with ⟨x, hx, rfl⟩ | ⟨x, hx, rfl⟩
    · exact .inl hx
    · exact .inr hx
  have ht := htargets r.1 hmem
  refine ⟨?_, fun s s' hturn hrel => turn_agree hd ht hturn hrel⟩
  change some _ = ruleKey r.1
  rw [ruleKey, ht]
  rfl

/-! ## The tables of a program -/

section Tables

omit [FloatModel F]

def rulesOf (decls : List (Decl F)) : List (RuleDecl F) :=
  decls.filterMap fun
    | .rule r => some r
    | _ => none

/-- What pass 1 has made of the declarations: their rules compiled in order, and a slot for each
entity. -/
structure Passed (reg : Registry F) (cmp : Compiler F) (decls : List (Decl F)) (names : List String) :
    Prop where
  rules : cmp.rules = (rulesOf decls).map (compiled reg)
  targets : ∀ r ∈ rulesOf decls, r.target = .ident (targetName r)
  globals : cmp.globals.Tracks names
  nodup : names.Nodup
  entities : ∀ d ∈ decls, ∀ x, entityName d = some x → x ∈ names

variable {reg : Registry F} {cmp cmp' : Compiler F} {decls : List (Decl F)} {names : List String}

theorem rulesOf_concat (decls : List (Decl F)) (d : Decl F) :
    rulesOf (decls ++ [d]) = rulesOf decls ++ rulesOf [d] := List.filterMap_append

/-- A declaration that is no rule and no entity. -/
theorem Passed.other (h : Passed reg cmp decls names) {d : Decl F} (hrule : rulesOf [d] = [])
    (hent : entityName d = none) (hr : cmp'.rules = cmp.rules) (hg : cmp'.globals = cmp.globals) :
    Passed reg cmp' (decls ++ [d]) names where
  rules := by rw [rulesOf_concat, hrule, List.append_nil, hr, h.rules]
  targets := by
    rw [rulesOf_concat, hrule, List.append_nil]
    exact h.targets
  globals := hg ▸ h.globals
  nodup := h.nodup
  entities := by
    intro d' hd' x hx
    rcases List.mem_append.mp hd' with hd' | hd'
    · exact h.entities d' hd' x hx
    · rw [List.mem_singleton.mp hd', hent] at hx
      cases hx

/-- An entity gets a slot unless it has one. -/
theorem Passed.entity (h : Passed reg cmp decls names) {d : Decl F} {name : String}
    (hrule : rulesOf [d] = []) (hent : entityName d = some name)
    (hcmp : cmp' = { cmp with globals := ensureGlobal cmp.globals name }) :
    ∃ names', Passed reg cmp' (decls ++ [d]) names' := by
  have hrules : cmp'.rules = (rulesOf (decls ++ [d])).map (compiled reg) := by
    rw [rulesOf_concat, hrule, List.append_nil, hcmp, h.rules]
  have htargets : ∀ r ∈ rulesOf (decls ++ [d]), r.target = .ident (targetName r) := by
    rw [rulesOf_concat, hrule, List.append_nil]
    exact h.targets
  have hlast := h.globals.last name
  have hents : ∀ ns : List String, (∀ x ∈ names, x ∈ ns) → name ∈ ns →
      ∀ d' ∈ decls ++ [d], ∀ x, entityName d' = some x → x ∈ ns := by
    intro ns hsub hname d' hd' x hx
    rcases List.mem_append.mp hd' with hd' | hd'
    · exact hsub x (h.entities d' hd' x hx)
    · rw [List.mem_singleton.mp hd', hent, Option.some.injEq] at hx
      exact hx ▸ hname
  by_cases hmem : name ∈ names
  · have hsome : (cmp.globals.lookup name).isSome = true := by
      rw [hlast]
      cases hl : lastIdx name names with
      | none => exact absurd hmem ((lastIdx_eq_none_iff _ _).mp hl)
      | some i => rfl
    refine ⟨names, hrules, htargets, ?_, h.nodup, hents names (fun _ h => h) hmem⟩
    rw [hcmp]
    simpa [ensureGlobal, hsome] using h.globals
  · have hnone : (cmp.globals.lookup name).isSome = false := by
      rw [hlast, (lastIdx_eq_none_iff _ _).mpr hmem]
      rfl
    refine ⟨names ++ [name], hrules, htargets, ?_, ?_, hents _ (fun x hx => by simp [hx]) (by simp)⟩
    · rw [hcmp]
      simpa [ensureGlobal, hnone] using h.globals.declare name
    · exact List.nodup_append'.mpr ⟨h.nodup, List.nodup_singleton _, by simpa using hmem⟩

theorem Passed.step (h : Passed reg cmp decls names) {d : Decl F}
    (hstep : pass1Step reg cmp d = .ok cmp') : ∃ names', Passed reg cmp' (decls ++ [d]) names' := by
  cases d with
  | entityRecord name typeName inits =>
    cases hstep
    exact h.entity rfl rfl rfl
  | entitySimple name value =>
    cases hstep
    exact h.entity rfl rfl rfl
  | fluid name variants =>
    cases hstep
    exact h.entity rfl rfl rfl
  | rule r =>
    rw [pass1Step, bind_ok] at hstep
    obtain ⟨k, hk, hstep⟩ := hstep
    cases hstep
    obtain ⟨rfl, t, ht⟩ := compileRule_eq hk
    have hone : rulesOf [(.rule r : Decl F)] = [r] := rfl
    refine ⟨names, ?_, ?_, h.globals, h.nodup, ?_⟩
    · rw [rulesOf_concat, hone, List.map_append, h.rules]
      rfl
    · rw [rulesOf_concat, hone]
      refine List.forall_mem_append.mpr ⟨h.targets, List.forall_mem_singleton.mpr ?_⟩
      rw [targetName, ht]
    · intro d' hd' x hx
      rcases List.mem_append.mp hd' with hd' | hd'
      · exact h.entities d' hd' x hx
      · rw [List.mem_singleton.mp hd'] at hx
        cases hx
  | _ =>
    cases hstep
    exact ⟨names, h.other rfl rfl rfl rfl⟩

theorem Passed.fold (rest : List (Decl F)) {cmp : Compiler F} {decls : List (Decl F)} {names : List String}
    (h : Passed reg cmp decls names) (hp : pass1 reg cmp rest = .ok cmp') :
    ∃ names', Passed reg cmp' (decls ++ rest) names' := by
  refine foldlM_relates (R := fun rest cmp cmp' => ∀ decls names, Passed reg cmp decls names →
    ∃ names', Passed reg cmp' (decls ++ rest) names') (fun _ decls names h => ⟨names, by simpa using h⟩)
    (fun hstep hrest decls names h => ?_) rest hp decls names h
  obtain ⟨names₁, h₁⟩ := h.step hstep
  obtain ⟨names', h'⟩ := hrest _ _ h₁
  exact ⟨names', by simpa using h'⟩

theorem passed_of_pass1 (hp : pass1 reg (.withSession {}) decls = .ok cmp) :
    Passed reg cmp decls (cmp.globals.names "") := by
  have hnil : Passed reg (.withSession {}) ([] : List (Decl F)) [] := {
    rules := rfl
    targets := by intro r hr; cases hr
    globals := SlotTable.tracks_empty
    nodup := List.nodup_nil
    entities := by intro d hd; cases hd }
  obtain ⟨names, h⟩ := hnil.fold decls hp
  rw [h.globals.names_of_nodup h.nodup]
  simpa using h

end Tables

/-! ## Runs -/

/-- The condition on the flows of a run: `all` are the rules of the whole program, and those the
tree-walker has not met yet are declared later. -/
def flowsOk (reg : Registry F) (c : Walk.Interpreter F W) (val : Values F) (names : List String)
    (all : List (RuleDecl F)) : List (Decl F × Nat) → TwTop F W → Bool
  | [], _ => true
  | d :: ds, s =>
    (match d.1 with
      | .flow _ => flowOk reg c names s.rules (all.drop s.rules.length) (s.vars, s.world)
      | _ => true) &&
    match twDecl c val s d with
    | (.ok (), s') => flowsOk reg c val names all ds s'
    | (.error _, _) => true

/-- The two backends between two declarations. -/
structure Alike (names : List String) (s : TwTop F W) (v : VmTop F) : Prop where
  mirrors : Mirrors names (s.vars, s.world) v.globals
  written : s.written = v.written

section Runs

variable {reg : Registry F} {c : Walk.Interpreter F W} {val : Values F} {names : List String}
  {cmp : Compiler F} {program : List (Decl F)}

omit [FloatModel F] in
theorem alike_set (h : Passed reg cmp program names) {s : TwTop F W} {v : VmTop F}
    (ha : Alike names s v) {name : String} (hname : name ∈ names) (x : Value F) :
    Alike names { s with vars := s.vars.set name x }
      { v with globals := { v.globals with
          cells := v.globals.cells.set ((cmp.globals.lookup name).getD 0) x } } := by
  obtain ⟨slot, hslot⟩ := idxOf?_isSome hname
  have hlook : cmp.globals.lookup name = some slot := by
    rw [h.globals.last, lastIdx_eq_idxOf?_of_nodup _ _ h.nodup, hslot]
  refine ⟨⟨?_, ?_⟩, ha.written⟩
  · rw [ha.mirrors.cells, hlook, Option.getD_some, mirror_set h.nodup hslot]
    rfl
  · intro y hy
    by_cases hyn : y = name
    · exact hyn ▸ hname
    · exact ha.mirrors.known y (by simpa [Walk.Env.set, hyn] using hy)

/-- Running an empty table of rules is running none. -/
theorem vmDecl_flow (cmp : Compiler F) (val : Values F) (v : VmTop F) (f : FlowDecl F) (i : Nat) :
    vmDecl cmp val v (.flow f, i) =
      let out := vmExecuteRules cmp.rules v.globals
      match out.1 with
      | .error e => (.error e, ⟨out.2.1, v.written ++ out.2.2⟩)
      | .ok () => ((val i).map fun _ => (), ⟨out.2.1, v.written ++ out.2.2⟩) := by
  rw [vmDecl]
  cases hempty : cmp.rules with
  | nil => simp [vmExecuteRules, byPriority, Writers.run]
  | cons k ks => rfl

variable (val) in
/-- One declaration. -/
theorem decl_agree (h : Passed reg cmp program names) {d : Decl F} {i : Nat} {later : List (RuleDecl F)}
    {s : TwTop F W} {v : VmTop F} (hd : d ∈ program)
    (hall : s.rules ++ rulesOf [d] ++ later = rulesOf program)
    (hok : ∀ f, d = .flow f → flowOk reg c names s.rules later (s.vars, s.world) = true)
    (ha : Alike names s v) :
    (twDecl c val s (d, i)).1.isOk = (vmDecl cmp val v (d, i)).1.isOk ∧
      Alike names (twDecl c val s (d, i)).2 (vmDecl cmp val v (d, i)).2 ∧
      (twDecl c val s (d, i)).2.rules = s.rules ++ rulesOf [d] := by
  have hent := h.entities d hd
  -- a declaration that evaluates something and stores it under a name, if it has one
  have hplain : (∀ r, d ≠ .rule r) → (∀ f, d ≠ .flow f) →
      (twDecl c val s (d, i)).1.isOk = (vmDecl cmp val v (d, i)).1.isOk ∧
      Alike names (twDecl c val s (d, i)).2 (vmDecl cmp val v (d, i)).2 ∧
      (twDecl c val s (d, i)).2.rules = s.rules ++ rulesOf [d] := by
    intro hr hf
    have hnone : rulesOf [d] = [] := by
      cases d with
      | rule r => exact absurd rfl (hr r)
      | _ => rfl
    rw [twDecl.eq_3 _ _ _ _ _ (fun r => hr r) (fun f => hf f),
      vmDecl.eq_3 _ _ _ _ _ (fun r => hr r) (fun f => hf f), hnone, List.append_nil]
    cases val i with
    | error e => exact ⟨rfl, ha, rfl⟩
    | ok x =>
      cases hn : entityName d with
      | none => exact ⟨rfl, ha, rfl⟩
      | some name => exact ⟨rfl, alike_set h ha (hent name hn) x, rfl⟩
  cases d with
  | rule r => exact ⟨rfl, ⟨ha.mirrors, ha.written⟩, rfl⟩
  | flow f =>
    have hrules : cmp.rules = (s.rules ++ later).map (compiled reg) := by
      rw [h.rules, ← hall]
      simp [rulesOf]
    have htargets : ∀ r ∈ s.rules ++ later, r.target = .ident (targetName r) := by
      intro r hr
      refine h.targets r ?_
      rw [← hall]
      simpa [rulesOf] using hr
    have hends := flow_agree h.nodup htargets ha.mirrors (hok f rfl)
    have hrulesOf : s.rules ++ rulesOf [(.flow f : Decl F)] = s.rules := by simp [rulesOf]
    rw [← hrules] at hends
    rw [vmDecl_flow, twDecl]
    obtain ⟨hstatus, hstore, hwritten⟩ := hends
    generalize vmExecuteRules cmp.rules v.globals = y at *
    generalize twExecuteRules c s.rules (s.vars, s.world) = x at *
    obtain ⟨xs, xst, xw⟩ := x
    obtain ⟨ys, yst, yw⟩ := y
    simp only at hstatus hstore hwritten
    have halike : Alike names { s with vars := xst.1, world := xst.2, written := s.written ++ xw }
        { globals := yst, written := v.written ++ yw } :=
      ⟨hstore, by simp only [ha.written, hwritten]⟩
    cases xs with
    | error e =>
      cases ys with
      | error e' => exact ⟨rfl, halike, hrulesOf.symm⟩
      | ok u => cases hstatus
    | ok u =>
      cases ys with
      | error e' => cases hstatus
      | ok u' => exact ⟨rfl, halike, hrulesOf.symm⟩
  | _ => exact hplain (by intro r hr; cases hr) (by intro f hf; cases hf)

/-- A run of declarations. -/
theorem run_agree (h : Passed reg cmp program names) (later : List (RuleDecl F)) :
    ∀ (ds : List (Decl F × Nat)) {s : TwTop F W} {v : VmTop F}, (∀ d ∈ ds, d.1 ∈ program) →
      s.rules ++ rulesOf (ds.map Prod.fst) ++ later = rulesOf program →
      flowsOk reg c val names (rulesOf program) ds s = true → Alike names s v →
      (runDecls (twDecl c val) ds s).1.isOk = (runDecls (vmDecl cmp val) ds v).1.isOk ∧
        Alike names (runDecls (twDecl c val) ds s).2 (runDecls (vmDecl cmp val) ds v).2 := by
  intro ds
  induction ds with
  | nil =>
    intro s v _ _ _ ha
    exact ⟨rfl, ha⟩
  | cons d ds ih =>
    intro s v hmem hall hok ha
    obtain ⟨d, i⟩ := d
    rw [List.forall_mem_cons] at hmem
    rw [flowsOk, Bool.and_eq_true] at hok
    have hsplit : rulesOf (((d, i) :: ds).map Prod.fst) = rulesOf [d] ++ rulesOf (ds.map Prod.fst) := by
      rw [List.map_cons, ← List.singleton_append]
      exact List.filterMap_append
    have hall' : s.rules ++ rulesOf [d] ++ (rulesOf (ds.map Prod.fst) ++ later) = rulesOf program := by
      rw [← hall, hsplit]
      simp only [List.append_assoc]
    obtain ⟨hstatus, halike, hrules⟩ := decl_agree val h (c := c) (i := i) hmem.1 hall' (by
      rintro f rfl
      have hlater : (rulesOf program).drop s.rules.length = rulesOf (ds.map Prod.fst) ++ later := by
        rw [← hall']
        simp [rulesOf]
      have := hok.1
      rwa [hlater] at this) ha
    rw [runDecls, runDecls]
    replace hok := hok.2
    generalize twDecl c val s (d, i) = x at *
    generalize vmDecl cmp val v (d, i) = y at *
    obtain ⟨xs, s'⟩ := x
    obtain ⟨ys, v'⟩ := y
    cases xs with
    | error e =>
      cases ys with
      | error e' => exact ⟨rfl, halike⟩
      | ok u => cases hstatus
    | ok u =>
      cases ys with
      | error e' => cases hstatus
      | ok u' =>
        refine ih hmem.2 ?_ hok halike
        simp only at hrules
        rw [hrules, ← hall']
        simp only [List.append_assoc]

end Runs

/-! ## The result -/

/-- The two backends after some declarations: both have stopped or neither, the flows wrote the same
fields, and every global holds what the variable holds, `Unit` before its declaration. -/
structure Agree (names : List String) (tw : Except String Unit × TwTop F W)
    (vm : Except String Unit × VmTop F) : Prop where
  status : tw.1.isOk = vm.1.isOk
  written : tw.2.written = vm.2.written
  declared : ∀ x, (tw.2.vars x).isSome = true → x ∈ names
  entities : ∀ x ∈ names, vm.2.globals.read x = some ((tw.2.vars x).getD .unit)

/-- The condition on a run of the first declarations of a program. -/
def runOk (reg : Registry F) (c : Walk.Interpreter F W) (val : Values F) (names : List String)
    (program done : List (Decl F)) (w : W) : Bool :=
  flowsOk reg c val names (rulesOf program) done.zipIdx
    { vars := fun _ => none, world := w, rules := [], written := [] }

/-- **Rules are applied alike.** A program is compiled whole; `done` is what has been run of it. When
every rule that got its turn met the condition, the backends agree; and on both, whatever the rules and
the state, the first rule in priority order that writes a field wins. -/
theorem rules_agree (reg : Registry F) (c : Walk.Interpreter F W) (val : Values F) (w : W)
    (done rest : List (Decl F)) (cmp : Compiler F)
    (hp : pass1 reg (.withSession {}) (done ++ rest) = .ok cmp)
    (hok : runOk reg c val (cmp.globals.names "") (done ++ rest) done w = true) :
    Agree (cmp.globals.names "") (twRun c val done w) (vmRun cmp val done) ∧
      (∀ rules s, (twWriters c).FirstWins (fun s k => fieldOf s.1 k)
        (byPriority (·.priority) rules) s) ∧
      ∀ rules g, (vmWriters (F := F)).FirstWins (fun g k => fieldOf g.read k)
        (byPriority (·.priority) rules) g := by
  have hpassed := passed_of_pass1 hp
  have hlen : cmp.globals.next = (cmp.globals.names "").length := by simp
  have hinit : Alike (cmp.globals.names "") (W := W)
      { vars := fun _ => none, world := w, rules := [], written := [] } (vmInit cmp) := by
    refine ⟨⟨?_, fun x hx => by cases hx⟩, rfl⟩
    rw [vmInit, mirror, hlen]
    simp [List.map_const']
  have hmem : ∀ d ∈ done.zipIdx, d.1 ∈ done ++ rest := by
    intro d hd
    exact List.mem_append_left _ (List.fst_mem_of_mem_zipIdx hd)
  have hall : [] ++ rulesOf (done.zipIdx.map Prod.fst) ++ rulesOf rest = rulesOf (done ++ rest) := by
    rw [List.zipIdx_map_fst, List.nil_append]
    exact List.filterMap_append.symm
  obtain ⟨hstatus, halike⟩ := run_agree hpassed (rulesOf rest) done.zipIdx hmem hall hok hinit
  refine ⟨⟨hstatus, halike.written, halike.mirrors.known, ?_⟩,
    fun rules s => Writers.firstWins (twWriters_local c) _ s,
    fun rules g => Writers.firstWins vmWriters_local _ g⟩
  intro x hx
  change (runDecls (vmDecl cmp val) done.zipIdx (vmInit cmp)).2.globals.read x = _
  rw [halike.mirrors.cells]
  exact mirror_read hx

/-! ## Programs that run -/

namespace Sample

def reg : Registry Int :=
  ⟨fun _ => none, fun _ => none, ⟨fun _ => false, fun _ => false, fun _ => false⟩, fun _ => "BinaryOp"⟩

/-- No callees. -/
def walker : Walk.Interpreter Int Unit where
  call _ _ w := (.error "no callee", w)
  resolve _ := none
  resolveQualified _ _ := .error "no callee"
  arity _ := 0
  globals _ := none
  reflexNames _ := none
  memorize _ _ w := w
  forget _ _ w := w
  relate _ _ _ w := w
  sandbox := false
  iterLimit := 10

def rule (threshold : Int) (value : Expr Int) (priority : Int) : Decl Int :=
  .rule ⟨.compare (.fieldAccess (.ident "e") "n") .gt (.floatLit threshold), .ident "e", "level", value,
    priority⟩

def flow : Decl Int := .flow ⟨"f", .stringLit "", [], []⟩

/-- `e` is a record, everything else evaluates to nothing. -/
def val : Values Int
  | 0 => .ok (.struct "E" [("n", .float 5), ("level", .string "none")])
  | _ => .ok .unit

def entity : Decl Int := .entitySimple "e" (.stringLit "")

/-- Two rules for one field, the second of higher priority, then a flow. -/
def ranked : List (Decl Int) :=
  [entity, rule 1 (.stringLit "low") 0, rule 3 (.stringLit "high") 2, flow]

/-- A rule whose value is a sum. -/
def computed : List (Decl Int) :=
  [entity, rule 1 (.binaryOp (.floatLit 1) .add (.floatLit 1)) 0, flow]

/-- A rule that is declared after the flow. -/
def late : List (Decl Int) := [entity, flow, rule 1 (.stringLit "low") 0]

/-- A rule for a field the entity does not have. -/
def missing : List (Decl Int) :=
  [entity, .rule ⟨.compare (.fieldAccess (.ident "e") "n") .gt (.floatLit 1), .ident "e", "size",
    .stringLit "low", 0⟩, flow]

/-- The compiler after pass 1. -/
def passed (program : List (Decl Int)) : Compiler Int :=
  match pass1 reg (.withSession {}) program with
  | .ok cmp => cmp
  | .error _ => .withSession {}

end Sample

/-- The rule of higher priority writes, the other one is passed over. -/
theorem rules_agree_ranked :
    (twRun Sample.walker Sample.val Sample.ranked ()).2.written = [("e", "level")] ∧
      Agree ((Sample.passed Sample.ranked).globals.names "")
        (twRun Sample.walker Sample.val Sample.ranked ())
        (vmRun (Sample.passed Sample.ranked) Sample.val Sample.ranked) :=
  ⟨by decide +kernel, (rules_agree Sample.reg Sample.walker Sample.val () Sample.ranked []
    (Sample.passed Sample.ranked) rfl (by decide +kernel)).1⟩

/-- **Counterexample**: a value that is computed, a rule after the flow and a field that is not there.
Each time one backend writes the field and the other does not. -/
theorem rules_disagree :
    List.Forall (fun program => ¬ Agree ((Sample.passed program).globals.names "")
      (twRun Sample.walker Sample.val program ())
      (vmRun (Sample.passed program) Sample.val program))
      [Sample.computed, Sample.late, Sample.missing] := by
  have hwritten : ∀ program ∈ [Sample.computed, Sample.late, Sample.missing],
      (twRun Sample.walker Sample.val program ()).2.written ≠
        (vmRun (Sample.passed program) Sample.val program).2.written := by
    decide +kernel
  rw [List.forall_iff_forall_mem]
  intro program hprogram hagree
  exact hwritten program hprogram hagree.written

end Metalogos.Rules
