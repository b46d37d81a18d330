import Metalogos.Refine.Steps

/-!
# Calls and `try`

The compiler picks a callee by name when it reaches a call (`Tables.callee`), the tree-walker when
it evaluates one. `Agrees` is the contract between a policy and the two backends: calls that pass
it are resolved alike and with the right number of arguments, sink checks that pass it are never
refused. Under it a call instruction does what the tree-walker's call does (`call_sim`).

`TryEval` runs its code one level deeper; `try_sim` turns a simulation of the inner expression into
one of the whole.
-/
namespace Metalogos.Refine

open Metalogos.Lang Metalogos.Machine Metalogos.Compile Metalogos.Walk Metalogos.Lib

variable {F W α : Type} [FloatModel F]

/-! ## Where an expression ends -/

/-- The values of `a` are on top of the frame. -/
def Pushed (T : List String) (X : Fixed F) (P : Nat → Prop) (st : Bool)
    (frame regs : List (Value F)) (pc : Nat) (vals : α → List (Value F)) (a : α) (w : W)
    (o : Place F W) : Prop :=
  ∃ frame' le, o = .inl (pc, X.mach (frame' ++ vals a) regs le w) ∧ Ext P st frame frame' ∧
    LabelsIn T le

def Fails (T : List String) (X : Fixed F) (P : Nat → Prop) (st : Bool) (frame : List (Value F))
    (e : String) (w : W) (o : Place F W) : Prop :=
  ∃ m, o = .inr (.error e, m) ∧ Failed X P st frame T w m

omit [FloatModel F] in
theorem Fails.cut {T : List String} {X : Fixed F} {P P' : Nat → Prop} {st st' : Bool}
    {frame frame' vs : List (Value F)} {e : String} {w : W} {o : Place F W}
    (he : Ext P st frame frame') (hp : ∀ s, P s → P' s) (hst : st = false → st' = false)
    (h : Fails T X P' st' (frame' ++ vs) e w o) : Fails T X P st frame e w o := by
  obtain ⟨m, rfl, hf⟩ := h
  exact ⟨m, rfl, .cut he hf hp hst⟩

omit [FloatModel F] in
theorem Fails.mono {T : List String} {X : Fixed F} {P P' : Nat → Prop} {st : Bool}
    {frame frame' : List (Value F)} {e : String} {w : W} {o : Place F W}
    (he : Ext P st frame frame') (hp : ∀ s, P s → P' s)
    (h : Fails T X P' st frame' e w o) : Fails T X P st frame e w o := by
  have h' : Fails T X P' st (frame' ++ []) e w o := by simpa using h
  exact h'.cut he hp id

/-! ## Callees -/

/-- The callee the compiler picks for a call by name. -/
def calleeOf (t : Tables) (f : String) : Option Callee :=
  if (t.builtinIdx f).isSome then some (.builtin f)
  else if (t.patternIdx f).isSome then some (.pattern f)
  else if (t.learnableIdx f).isSome then some (.learnable f)
  else none

def qualifiedCalleeOf (t : Tables) (ns fn : String) : Option Callee :=
  if (t.builtinIdx (ns ++ "." ++ fn)).isSome then some (.builtin (ns ++ "." ++ fn))
  else if t.isTool ns then
    if (t.builtinIdx fn).isSome then some (.builtin fn)
    else if (t.patternIdx (ns ++ "." ++ fn)).isSome then some (.pattern (ns ++ "." ++ fn))
    else none
  else if (t.patternIdx fn).isSome then some (.pattern fn)
  else if (t.builtinIdx fn).isSome then some (.builtin fn)
  else none

/-- The instruction that calls `c` with `n` arguments. -/
def IsCall (t : Tables) (n : Nat) (i : Instr F) : Callee → Prop
  | .builtin g => ∃ idx, t.builtinIdx g = some idx ∧ i = .callBuiltin idx n
  | .pattern g => ∃ idx, t.patternIdx g = some idx ∧ i = .callPattern idx n
  | .learnable g => ∃ idx, t.learnableIdx g = some idx ∧ i = .llmCall idx n

omit [FloatModel F] in
theorem compileCall_ok {t : Tables} {f : String} {n : Nat} {i : Instr F}
    (h : compileCall t f n = .ok i) : ∃ c, calleeOf t f = some c ∧ IsCall t n i c := by
  unfold compileCall at h
  split at h
  · rename_i idx hb
    exact ⟨.builtin f, by simp [calleeOf, hb], idx, hb, (Except.ok.inj h).symm⟩
  · rename_i hb
    split at h
    · rename_i idx hp
      exact ⟨.pattern f, by simp [calleeOf, hb, hp], idx, hp, (Except.ok.inj h).symm⟩
    · rename_i hp
      split at h
      · rename_i idx hl
        exact ⟨.learnable f, by simp [calleeOf, hb, hp, hl], idx, hl, (Except.ok.inj h).symm⟩
      · split at h <;> simp at h

omit [FloatModel F] in
theorem compileQualified_ok {t : Tables} {ns fn : String} {n : Nat} {i : Instr F}
    (h : compileQualified t ns fn n = .ok i) :
    ∃ c, qualifiedCalleeOf t ns fn = some c ∧ IsCall t n i c := by
  simp only [compileQualified] at h
  split at h
  · rename_i idx hb
    exact ⟨.builtin (ns ++ "." ++ fn), by simp [qualifiedCalleeOf, hb], idx, hb,
      (Except.ok.inj h).symm⟩
  · rename_i hq
    split_ifs at h with ht
    · split at h
      · rename_i idx hb
        exact ⟨.builtin fn, by simp [qualifiedCalleeOf, hq, ht, hb], idx, hb, (Except.ok.inj h).symm⟩
      · rename_i hb
        split at h
        · rename_i idx hp
          exact ⟨.pattern (ns ++ "." ++ fn), by simp [qualifiedCalleeOf, hq, ht, hb, hp], idx, hp,
            (Except.ok.inj h).symm⟩
        · simp at h
    · split at h
      · rename_i idx hp
        exact ⟨.pattern fn, by simp [qualifiedCalleeOf, hq, ht, hp], idx, hp, (Except.ok.inj h).symm⟩
      · rename_i hp
        split at h
        · rename_i idx hb
          exact ⟨.builtin fn, by simp [qualifiedCalleeOf, hq, ht, hp, hb], idx, hb,
            (Except.ok.inj h).symm⟩
        · simp at h

/-- What a policy promises about the calls, sinks and sources it lets through; `T` are the names
that may carry a label. -/
structure Agrees (S : Setup F W) (p : Policy F) (T : List String) : Prop where
  call {f : String} {args : List (Expr F)} : p.call f args = true →
    S.walk.resolve f = calleeOf S.tables f ∧ (∀ a ∈ args.head?, bareIdentArg S.walk f a = none) ∧
    (calleeOf S.tables f = some (.pattern f) → args.length = S.walk.arity f)
  qualified {ns fn : String} {args : List (Expr F)} {c : Callee} : p.qualified ns fn args = true →
    qualifiedCalleeOf S.tables ns fn = some c →
    S.walk.resolveQualified ns fn = .ok c ∧ ∀ g, c = .pattern g → args.length = S.walk.arity g
  sink {e : Expr F} {cs : CState} {skip : Nat} {data : SinkCheckData} {le : LabelEnv} :
    p.sink e = true → .sinkCheck data ∈ armedSinkChecks S.tables cs skip e → LabelsIn T le →
    sinkRefuses data.fnName (labelOf S.names.classes le data.arg) = false
  source {x : String} {e : Expr F} : p.source x e = true →
    (labelJoin S.tables x e : List (Instr F)) ≠ [] → x ∈ T
  labels {c : Callee} {args : List (Value F)} {w : W} {le : LabelEnv} : LabelsIn T le →
    LabelsIn T (S.callLabels c args w le)

section

variable {S : Setup F W} {p : Policy F} {T : List String} {X : Fixed F} {P : Nat → Prop}
  {d pc : Nat} {code : List (Instr F)} {Ok : Event F → Prop} {st : Bool}
  {frame frame' regs vs : List (Value F)} {le : LabelEnv} {w : W}

/-- A builtin or LLM call whose operands are on the stack. -/
theorem interpCall_sim {i : Instr F} {c : Callee} (hA : Agrees S p T) (hi : code[pc]? = some i)
    (hstep : ∀ lim, S.step lim d i pc (X.mach (frame' ++ vs) regs le w) =
      S.interpCall c vs (pc + 1) (X.mach frame' regs le w))
    (he : Ext P st frame frame') (hl : LabelsIn T le) :
    Simulates (S.machine d code) Ok (Traced.host (S.walk.call c vs)) w
      (.inl (pc, X.mach (frame' ++ vs) regs le w))
      (Pushed T X P st frame regs (pc + 1) fun v => [v]) (Fails T X P st frame) := by
  apply Simulates.host
  have hl' : LabelsIn T (S.callLabels c vs w le) := hA.labels hl
  rcases hc : S.walk.call c vs w with ⟨r, w'⟩
  cases r with
  | ok v =>
    refine ⟨_, gets_next hi ⟨0, fun lim _ => ?_⟩, frame', _, rfl, he, hl'⟩
    rw [hstep, Setup.interpCall]
    simp only [Fixed.mach_world, hc]
    exact congrArg _ Fixed.mach_push
  | error e =>
    refine ⟨.inr (.error e, X.mach frame' regs (S.callLabels c vs w le) w'),
      gets_err hi ⟨0, fun lim _ => ?_⟩, _, rfl, .here he hl'⟩
    rw [hstep, Setup.interpCall]
    simp only [Fixed.mach_world, hc]
    rfl

/-- A pattern call with the right number of operands on the stack. -/
theorem step_callPattern {idx lim : Nat} {q : CompiledPattern F} (hq : S.program.patterns[idx]? = some q)
    (hn : vs.length = q.paramCount) :
    S.step lim d (.callPattern idx vs.length) pc (X.mach (frame' ++ vs) regs le w) =
      match S.walk.call (.pattern q.name) vs w with
      | (.ok v, w') =>
        .next (pc + 1) ((S.after (.pattern q.name) vs w' (X.mach frame' regs le w)).push v)
      | (.error e, w') => .err e (S.after (.pattern q.name) vs w' { X.mach frame' regs le w with
          stack := X.low ++ frame' ++ vs,
          callStack := X.callStack ++ [⟨pc + 1, (X.low ++ frame').length⟩] }) := by
  rcases hw : S.walk.call (.pattern q.name) vs w with ⟨e | v, w'⟩ <;>
    simp only [Setup.step, step, Setup.interpCalls, Setup.interpPattern, hq, hn, ne_eq, not_true,
      if_false, popArgs_mach hn, Fixed.mach_world, Fixed.mach_stack, Fixed.mach_callStack, hw]

/-- A call instruction does what the tree-walker's call does. -/
theorem call_sim {i : Instr F} {c : Callee} {shown : String} (hA : Agrees S p T)
    (hL : Linked S X.globals) (hi : code[pc]? = some i) (hc : IsCall S.tables vs.length i c)
    (har : ∀ g, c = .pattern g → vs.length = S.walk.arity g) (he : Ext P st frame frame')
    (hl : LabelsIn T le) :
    Simulates (S.machine d code) Ok (callResolved S.walk shown vs c) w
      (.inl (pc, X.mach (frame' ++ vs) regs le w))
      (Pushed T X P st frame regs (pc + 1) fun v => [v]) (Fails T X P st frame) := by
  cases c with
  | builtin g =>
    obtain ⟨idx, hb, rfl⟩ := hc
    refine interpCall_sim hA hi (fun lim => ?_) he hl
    simp [Setup.step, step, hL.builtin hb, popArgs_mach, Setup.interpCalls]
  | learnable g =>
    obtain ⟨idx, hb, rfl⟩ := hc
    refine interpCall_sim hA hi (fun lim => ?_) he hl
    simp [Setup.step, step, hL.learnable hb, popArgs_mach, Setup.interpCalls]
  | pattern g =>
    obtain ⟨idx, hb, rfl⟩ := hc
    obtain ⟨q, hq, rfl, hcount⟩ := hL.pattern hb
    have hn : vs.length = S.walk.arity q.name := har q.name rfl
    have hcount' : vs.length = q.paramCount := hn.trans hcount.symm
    simp only [callResolved, hn, ne_eq, not_true, if_false]
    apply Simulates.host
    have hl' : LabelsIn T (S.callLabels (.pattern q.name) vs w le) := hA.labels hl
    rcases hcall : S.walk.call (.pattern q.name) vs w with ⟨r, w'⟩
    cases r with
    | ok v =>
      refine ⟨_, gets_next hi ⟨0, fun lim _ => ?_⟩, frame', _, rfl, he, hl'⟩
      rw [step_callPattern hq hcount', hcall]
      exact congrArg _ Fixed.mach_push
    | error e =>
      have hg := gets_err (d := d) (m := X.mach (frame' ++ vs) regs le w) hi
        ⟨0, fun lim _ => (step_callPattern hq hcount').trans (by rw [hcall])⟩
      exact ⟨_, hg, _, rfl, rfl, hl', rfl, rfl, rfl, List.prefix_append _ _, frame', he,
        List.prefix_append _ _⟩

end

/-! ## `try` -/

/-- The fixed part one level deeper: `TryEval` runs on the same frame. -/
def Fixed.deeper (X : Fixed F) : Fixed F := { X with depth := X.depth + 1 }

/-- The machine `TryEval` goes on with: `m` is the one before it, `r` what its code ended with. -/
def afterTry (m : Mach F W) (r : Res F W) : Mach F W :=
  match r.1 with
  | .ok v => (m.leave r.2).push (tryResult (.ok v))
  | .error e => { m.leave r.2 with
      stack := r.2.stack.take m.stack.length ++ [tryResult (.error e)],
      callStack := r.2.callStack.take m.callStack.length }

section

variable {S : Setup F W} {T : List String} {X : Fixed F} {P : Nat → Prop} {d pc : Nat}
  {code inner : List (Instr F)} {Ok : Event F → Prop} {st : Bool} {frame regs : List (Value F)}
  {le : LabelEnv} {w : W}

/-- A run of the inner code that halts is one step of the outer machine. -/
theorem gets_tryEval {r : Res F W} (hd : X.depth + 1 ≤ S.maxDepth)
    (hi : code[pc]? = some (.tryEval inner))
    (hr : (S.machine d inner).Gets (.inl (0, X.deeper.mach frame [] le w)) (.inr r)) :
    (S.machine (d + 1) code).Gets (.inl (pc, X.mach frame regs le w))
      (.inl (pc + 1, afterTry (X.mach frame regs le w) r)) := by
  have hr' : Halts (S.machine d inner).next (S.machine d inner).fin
    (0, (X.mach frame regs le w).enter) r := hr
  obtain ⟨k, hk⟩ := executeCode_of_halts (m := X.mach frame regs le w) hd hr'
  refine gets_next hi ⟨k, fun lim hl => ?_⟩
  have hrun : S.executeCode lim (d + 1) inner (X.mach frame regs le w) =
      (r.1, (X.mach frame regs le w).leave r.2) := hk lim hl
  simp only [Setup.step, step, Setup.interpCalls, runTry, hrun]
  rcases r with ⟨_ | _, m⟩ <;> rfl

omit [FloatModel F] in
/-- The machine `TryEval` goes on with after a caught error. -/
theorem Failed.caught {m : Mach F W} {e : String} {w' : W}
    (h : Failed X.deeper P st frame T w' m) :
    ∃ frame' le', afterTry (X.mach frame regs le w) (.error e, m) =
        X.mach (frame' ++ [tryResult (.error e)]) regs le' w' ∧
      Ext P st frame frame' ∧ LabelsIn T le' := by
  obtain ⟨fr, hx, hpre⟩ := h.cells
  have hle : frame.length ≤ fr.length := hx.le
  refine ⟨fr.take frame.length, m.vm.labelEnv, ?_, ?_, h.labels⟩
  · have hstack : m.stack.take (X.low ++ frame).length = X.low ++ fr.take frame.length := by
      obtain ⟨rest, hrest⟩ := hpre
      change X.low ++ fr ++ rest = m.stack at hrest
      rw [← hrest, List.length_append, List.append_assoc, List.take_length_add_append,
        List.take_append_of_le_length hle]
    have hcalls : m.callStack.take X.callStack.length = X.callStack := by
      obtain ⟨rest, hrest⟩ := h.calls
      change X.callStack ++ rest = m.callStack at hrest
      rw [← hrest, List.take_left']
      rfl
    have hdep : m.vm.callDepth - 1 = X.depth := by
      rw [h.depth]
      rfl
    have hglob : m.vm.globals = X.globals := h.globals
    have hdeny : m.vm.denyEvent = X.denyEvent := h.deny
    simp only [afterTry, Mach.leave, Fixed.mach, hstack, hcalls, hdep, h.world, hglob, hdeny,
      List.append_assoc]
  · have hx' : Ext P st (frame ++ []) fr := by simpa using hx
    exact (Ext.refl frame).cut hx' id

/-- `try`: both ends of the inner evaluation are values of the outer one. -/
theorem try_sim {x : TW F W (Value F)} (hd : X.depth + 1 ≤ S.maxDepth)
    (hi : code[pc]? = some (.tryEval inner))
    (hx : Simulates (S.machine d inner) Ok x w (.inl (0, X.deeper.mach frame [] le w))
      (Pushed T X.deeper P st frame [] inner.length fun v => [v]) (Fails T X.deeper P st frame)) :
    Simulates (S.machine (d + 1) code) Ok (Traced.catching tryResult x) w
      (.inl (pc, X.mach frame regs le w)) (Pushed T X P st frame regs (pc + 1) fun v => [v])
      (Fails T X P st frame) := by
  intro r w' t hr ht
  obtain ⟨rfl, rfl, rfl⟩ : Except.ok (tryResult (x w).1) = r ∧ (x w).2.1 = w' ∧ (x w).2.2 = t := by
    have hc : (Except.ok (tryResult (x w).1), (x w).2.1, (x w).2.2) = (r, w', t) := hr
    exact ⟨congrArg Prod.fst hc, congrArg (fun p => p.2.1) hc, congrArg (fun p => p.2.2) hc⟩
  obtain ⟨o', hg, hp⟩ := hx _ _ _ rfl ht
  cases hxr : (x w).1 with
  | ok v =>
    rw [hxr] at hp
    obtain ⟨frame', le', rfl, he, hl⟩ := hp
    have hend := hg.trans (gets_end (Nat.le_refl inner.length))
    refine ⟨_, gets_tryEval hd hi hend, frame', le', ?_, he, hl⟩
    refine congrArg (fun m => Sum.inl (pc + 1, m)) ?_
    change (X.mach frame' regs le' (x w).2.1).push (tryResult (.ok v)) = _
    exact Fixed.mach_push
  | error e =>
    rw [hxr] at hp
    obtain ⟨m, rfl, hf⟩ := hp
    obtain ⟨frame', le', hm, he, hl⟩ := hf.caught
    exact ⟨_, gets_tryEval hd hi hg, frame', le', congrArg (fun m => Sum.inl (pc + 1, m)) hm, he, hl⟩

end

end Metalogos.Refine
