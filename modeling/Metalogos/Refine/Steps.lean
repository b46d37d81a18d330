import Metalogos.Refine.Relate

/-!
# Single steps

One lemma per instruction the compiler emits, on a machine with a given frame: what the step does
when its operands are there. The call instructions run the interpretation both backends share;
`TryEval` runs its code one level deeper, which is the only step that needs the budget.
-/
namespace Metalogos.Refine

open Metalogos.Lang Metalogos.Machine Metalogos.Compile Metalogos.Walk Metalogos.Lib

variable {F W : Type} [FloatModel F]

attribute [local simp] step

/-! ## Operands -/

section

variable {X : Fixed F} {frame regs vs : List (Value F)} {le : LabelEnv} {w : W} {v : Value F}
  {what : String} {n : Nat}

omit [FloatModel F]

@[simp] theorem pop?_low (low : List (Value F)) : pop? (low ++ (frame ++ [v])) = some (v, low ++ frame) := by
  rw [← List.append_assoc, pop?_append]

@[simp] theorem popLoud_mach {k : Value F → Mach F W → StepOut F W} :
    popLoud what (X.mach (frame ++ [v]) regs le w) k = k v (X.mach frame regs le w) := by
  simp [popLoud]

@[simp] theorem popSoft_mach {k : Value F → Mach F W → StepOut F W} :
    popSoft (X.mach (frame ++ [v]) regs le w) k = k v (X.mach frame regs le w) := by
  simp [popSoft]

theorem popArgs_mach {k : List (Value F) → Mach F W → StepOut F W} (h : vs.length = n) :
    popArgs what n (X.mach (frame ++ vs) regs le w) k = k vs (X.mach frame regs le w) := by
  subst h
  simp only [popArgs, Fixed.mach_stack, ← List.append_assoc, popN?_append, Fixed.mach_withStack]

end

/-! ## Stores -/

section

variable {frame : List (Value F)} {s : Nat} {v : Value F}

omit [FloatModel F]

theorem writeAt_append (low : List (Value F)) :
    writeAt (low ++ frame) (low.length + s) v = low ++ writeAt frame s v := by
  have h : low.length + s + 1 - (low ++ frame).length = s + 1 - frame.length := by
    simp only [List.length_append]
    omega
  simp only [writeAt, h, List.append_assoc]
  rw [List.set_append_right _ _ (by omega)]
  simp

theorem length_writeAt : (writeAt frame s v).length = max frame.length (s + 1) := by
  simp only [writeAt, List.length_set, List.length_append, List.length_replicate]
  omega

theorem writeAt_self : (writeAt frame s v)[s]? = some v := by
  simp only [writeAt, List.getElem?_set_self']
  have : s < (frame ++ List.replicate (s + 1 - frame.length) Value.unit).length := by
    simp only [List.length_append, List.length_replicate]
    omega
  simp [List.getElem?_eq_getElem this]

theorem writeAt_ne {s' : Nat} (hne : s' ≠ s) (hs : s' < frame.length) :
    (writeAt frame s v)[s']? = frame[s']? := by
  simp only [writeAt]
  rw [List.getElem?_set_ne (Ne.symm hne), List.getElem?_append_left hs]

theorem ext_writeAt {P : Nat → Prop} {st : Bool} (hst : st = true) (hp : ¬ P s) :
    Ext P st frame (writeAt frame s v) where
  le := by
    rw [length_writeAt]
    omega
  cells {s'} hs' hlt := writeAt_ne (fun e => hp (e ▸ hs')) hlt
  same hf := by simp [hst] at hf

end

/-! ## Steps -/

/-- A place the machine can be at. -/
abbrev Place (F W : Type) := Cfg F W ⊕ Res F W

section

variable {S : Setup F W} {d : Nat} {code : List (Instr F)} {pc : Nat} {i : Instr F} {m m' : Mach F W}

/-- One step under instruction factor `lim`. -/
def Setup.step (S : Setup F W) (lim d : Nat) : Instr F → Nat → Mach F W → StepOut F W :=
  Machine.step S.names S.host.toHostOps (S.interpCalls (S.executeCode lim d))

theorem gets_next {pc' : Nat} (h : code[pc]? = some i)
    (hs : ∃ k, ∀ lim ≥ k, S.step lim d i pc m = .next pc' m') :
    (S.machine d code).Gets (.inl (pc, m)) (.inl (pc', m')) := by
  obtain ⟨k, hk⟩ := hs
  exact Reaches.single ⟨k, fun lim hl => nextCfg_of_step h (hk lim hl)⟩

theorem gets_err {e : String} (h : code[pc]? = some i)
    (hs : ∃ k, ∀ lim ≥ k, S.step lim d i pc m = .err e m') :
    (S.machine d code).Gets (.inl (pc, m)) (.inr (.error e, m')) := by
  obtain ⟨k, hk⟩ := hs
  exact Halts.now ⟨k, fun lim hl => finCfg_of_err h (hk lim hl)⟩

theorem gets_ret {v : Value F} (h : code[pc]? = some i)
    (hs : ∃ k, ∀ lim ≥ k, S.step lim d i pc m = .ret v m') :
    (S.machine d code).Gets (.inl (pc, m)) (.inr (.ok v, m')) := by
  obtain ⟨k, hk⟩ := hs
  exact Halts.now ⟨k, fun lim hl => finCfg_of_ret h (hk lim hl)⟩

/-- The end of the code: the result is popped. -/
theorem gets_end {X : Fixed F} {frame regs : List (Value F)} {le : LabelEnv} {w : W} {v : Value F}
    (h : code.length ≤ pc) :
    (S.machine d code).Gets (.inl (pc, X.mach (frame ++ [v]) regs le w))
      (.inr (.ok v, X.mach frame regs le w)) := by
  refine Halts.now ⟨0, fun lim _ => ?_⟩
  have hn : code[pc]? = none := List.getElem?_eq_none_iff.2 h
  simp [Setup.machine, bodyFin, finCfg, hn, epilogue]

end

section

variable {S : Setup F W} {d : Nat} {code : List (Instr F)} {X : Fixed F} {pc slot target : Nat}
  {frame regs rs : List (Value F)} {le : LabelEnv} {w : W} {v l r : Value F} {e : String}

theorem gets_const (h : code[pc]? = some (.const v)) :
    (S.machine d code).Gets (.inl (pc, X.mach frame regs le w))
      (.inl (pc + 1, X.mach (frame ++ [v]) regs le w)) :=
  gets_next h ⟨0, fun _ _ => by simp [Setup.step, step]⟩

theorem gets_loadLocal (h : code[pc]? = some (.loadLocal slot)) (hv : frame[slot]? = some v) :
    (S.machine d code).Gets (.inl (pc, X.mach frame regs le w))
      (.inl (pc + 1, X.mach (frame ++ [v]) regs le w)) := by
  refine gets_next h ⟨0, fun _ _ => ?_⟩
  have hs : (X.low ++ frame)[X.low.length + slot]? = some v := by
    rw [List.getElem?_append_right (by omega), Nat.add_sub_cancel_left, hv]
  simp [Setup.step, step, hs]

theorem gets_storeLocal (h : code[pc]? = some (.storeLocal slot)) :
    (S.machine d code).Gets (.inl (pc, X.mach (frame ++ [v]) regs le w))
      (.inl (pc + 1, X.mach (writeAt frame slot v) regs le w)) :=
  gets_next h ⟨0, fun _ _ => by simp [Setup.step, step, writeAt_append]⟩

theorem gets_storeAssignLocal {x : String} (h : code[pc]? = some (.storeAssignLocal slot x true)) :
    (S.machine d code).Gets (.inl (pc, X.mach (frame ++ [v]) regs le w))
      (.inl (pc + 1, X.mach (writeAt frame slot v) regs le w)) :=
  gets_next h ⟨0, fun _ _ => by simp [Setup.step, step, writeAt_append]⟩

theorem gets_loadGlobal (h : code[pc]? = some (.loadGlobal slot)) (hv : X.globals[slot]? = some v) :
    (S.machine d code).Gets (.inl (pc, X.mach frame regs le w))
      (.inl (pc + 1, X.mach (frame ++ [v]) regs le w)) :=
  gets_next h ⟨0, fun _ _ => by simp [Setup.step, step, hv]⟩

theorem gets_loadGlobalByName {x : String} (h : code[pc]? = some (.loadGlobalByName x))
    (hv : lookupGlobalByName S.names X.globals x = .ok v) :
    (S.machine d code).Gets (.inl (pc, X.mach frame regs le w))
      (.inl (pc + 1, X.mach (frame ++ [v]) regs le w)) :=
  gets_next h ⟨0, fun _ _ => by simp [Setup.step, step, hv, pushResult]⟩

theorem gets_loadGlobalByName_err {x : String} (h : code[pc]? = some (.loadGlobalByName x))
    (hv : lookupGlobalByName S.names X.globals x = .error e) :
    (S.machine d code).Gets (.inl (pc, X.mach frame regs le w))
      (.inr (.error e, X.mach frame regs le w)) :=
  gets_err h ⟨0, fun _ _ => by simp [Setup.step, step, hv, pushResult]⟩

/-- The strict operators: the tree-walker's result or its text. -/
theorem step_compileOp {lim : Nat} {op : BinOp} (hop : op ≠ .and ∧ op ≠ .or)
    (hne : op = .ne → comparable l r = true) :
    S.step lim d (compileOp op) pc (X.mach (frame ++ [l] ++ [r]) regs le w) =
      pushResult (twBinop l op r) (pc + 1) (X.mach frame regs le w) := by
  cases op with
  | and => simp at hop
  | or => simp at hop
  | add | sub | mul | div =>
    simp [-List.append_assoc, Setup.step, step, compileOp, ArithOp.toBinOp, vmArith_eq]
  | ne => simp [-List.append_assoc, Setup.step, step, compileOp, vmNe_eq (hne rfl)]
  | gt | lt | ge | le | eq =>
    simp [-List.append_assoc, Setup.step, step, compileOp, evalCmp_eq, CompareOp.toBinOp]

theorem gets_jump (h : code[pc]? = some (.jump target)) {m : Mach F W} :
    (S.machine d code).Gets (.inl (pc, m)) (.inl (target, m)) :=
  gets_next h ⟨0, fun _ _ => by simp [Setup.step, step]⟩

theorem gets_jumpIfNot (h : code[pc]? = some (.jumpIfNot target)) :
    (S.machine d code).Gets (.inl (pc, X.mach (frame ++ [v]) regs le w))
      (.inl (if v.isTruthy then pc + 1 else target, X.mach frame regs le w)) :=
  gets_next h ⟨0, fun _ _ => by simp [Setup.step, step]⟩

theorem gets_jumpIfNotCond {b : Bool} (h : code[pc]? = some (.jumpIfNotCond target))
    (hv : v.asBool = .ok b) :
    (S.machine d code).Gets (.inl (pc, X.mach (frame ++ [v]) regs le w))
      (.inl (if b then pc + 1 else target, X.mach frame regs le w)) :=
  gets_next h ⟨0, fun _ _ => by simp [Setup.step, step, hv]⟩

theorem gets_jumpIfNotCond_err (h : code[pc]? = some (.jumpIfNotCond target))
    (hv : v.asBool = .error e) :
    (S.machine d code).Gets (.inl (pc, X.mach (frame ++ [v]) regs le w))
      (.inr (.error e, X.mach frame regs le w)) :=
  gets_err h ⟨0, fun _ _ => by simp [Setup.step, step, hv]⟩

theorem gets_return (h : code[pc]? = some .return_) :
    (S.machine d code).Gets (.inl (pc, X.mach (frame ++ [v]) regs le w))
      (.inr (.ok v, X.mach frame regs le w)) :=
  gets_ret h ⟨0, fun _ _ => by simp [Setup.step, step]⟩

theorem gets_getField {field : String} {u : Value F} (h : code[pc]? = some (.getField field))
    (hv : v.getField field = .ok u) :
    (S.machine d code).Gets (.inl (pc, X.mach (frame ++ [v]) regs le w))
      (.inl (pc + 1, X.mach (frame ++ [u]) regs le w)) :=
  gets_next h ⟨0, fun _ _ => by simp [Setup.step, step, hv, pushResult]⟩

theorem gets_getField_err {field : String} (h : code[pc]? = some (.getField field))
    (hv : v.getField field = .error e) :
    (S.machine d code).Gets (.inl (pc, X.mach (frame ++ [v]) regs le w))
      (.inr (.error e, X.mach frame regs le w)) :=
  gets_err h ⟨0, fun _ _ => by simp [Setup.step, step, hv, pushResult]⟩

theorem gets_indexAccess (h : code[pc]? = some .indexAccess) :
    (S.machine d code).Gets (.inl (pc, X.mach (frame ++ [l] ++ [r]) regs le w))
      (.inl (pc + 1, X.mach (frame ++ [vmIndex l r]) regs le w)) :=
  gets_next h ⟨0, fun _ _ => by simp [-List.append_assoc, Setup.step, step]⟩

theorem gets_memorize {f : F} (h : code[pc]? = some (.memorize f)) :
    (S.machine d code).Gets (.inl (pc, X.mach (frame ++ [v]) regs le w))
      (.inl (pc + 1, X.mach frame regs le (S.host.memorize v.display f w))) :=
  gets_next h ⟨0, fun _ _ => by simp [Setup.step, step]⟩

theorem gets_forget {n : Int} (h : code[pc]? = some (.forget n)) :
    (S.machine d code).Gets (.inl (pc, X.mach (frame ++ [v]) regs le w))
      (.inl (pc + 1, X.mach frame regs le (S.host.forget v.display n w))) :=
  gets_next h ⟨0, fun _ _ => by simp [Setup.step, step]⟩

theorem gets_relate {rel : String} (h : code[pc]? = some .relate) :
    (S.machine d code).Gets (.inl (pc, X.mach (frame ++ [l] ++ [r] ++ [Value.string rel]) regs le w))
      (.inl (pc + 1, X.mach frame regs le (S.host.relate l.display r.display rel w))) := by
  have hrel : (Value.string rel : Value F).display = rel := rfl
  exact gets_next h ⟨0, fun _ _ => by simp [-List.append_assoc, Setup.step, step, hrel]⟩

theorem gets_makeList {n : Nat} {vs : List (Value F)} (h : code[pc]? = some (.makeList n))
    (hn : vs.length = n) :
    (S.machine d code).Gets (.inl (pc, X.mach (frame ++ vs) regs le w))
      (.inl (pc + 1, X.mach (frame ++ [Value.list vs]) regs le w)) :=
  gets_next h ⟨0, fun _ _ => by simp [Setup.step, step, popArgs_mach hn]⟩

theorem gets_makeStruct {t : String} {keys : List String} {vs : List (Value F)}
    (h : code[pc]? = some (.makeStruct t keys)) (hn : vs.length = keys.length) :
    (S.machine d code).Gets (.inl (pc, X.mach (frame ++ vs) regs le w))
      (.inl (pc + 1, X.mach (frame ++ [Value.struct t (keys.zip vs)]) regs le w)) :=
  gets_next h ⟨0, fun _ _ => by simp [Setup.step, step, popArgs_mach hn]⟩

theorem gets_listLen {items : List (Value F)} (h : code[pc]? = some .listLen) :
    (S.machine d code).Gets (.inl (pc, X.mach (frame ++ [Value.list items]) regs le w))
      (.inl (pc + 1, X.mach (frame ++ [Value.float (FloatModel.ofNat items.length)]) regs le w)) :=
  gets_next h ⟨0, fun _ _ => by simp [Setup.step, step]⟩

theorem gets_listLen_err (h : code[pc]? = some .listLen) (hv : ∀ items, v ≠ .list items) :
    (S.machine d code).Gets (.inl (pc, X.mach (frame ++ [v]) regs le w))
      (.inr (.error (codedError "TYPE_MISMATCH" ("each: expected List, got " ++ v.typeName)),
        X.mach frame regs le w)) := by
  refine gets_err h ⟨0, fun _ _ => ?_⟩
  cases v <;> simp_all [Setup.step, step]

theorem gets_pop (h : code[pc]? = some .pop) :
    (S.machine d code).Gets (.inl (pc, X.mach (frame ++ [v]) regs le w))
      (.inl (pc + 1, X.mach frame regs le w)) := by
  refine gets_next h ⟨0, fun _ _ => ?_⟩
  have : (X.low ++ (frame ++ [v])).dropLast = X.low ++ frame := by
    rw [← List.append_assoc, List.dropLast_concat]
  simp [Setup.step, step, this]

theorem gets_pushUnit (h : code[pc]? = some .pushUnit) :
    (S.machine d code).Gets (.inl (pc, X.mach frame regs le w))
      (.inl (pc + 1, X.mach (frame ++ [Value.unit]) regs le w)) :=
  gets_next h ⟨0, fun _ _ => by simp [Setup.step, step]⟩

theorem gets_matchLit {t : LitTest} (h : code[pc]? = some (.matchTest (.lit t))) :
    (S.machine d code).Gets (.inl (pc, X.mach (frame ++ [v]) regs le w))
      (.inl (pc + 1, X.mach (frame ++ [Value.bool (t.matchesValue v)]) regs le w)) :=
  gets_next h ⟨0, fun _ _ => by simp [Setup.step, step]⟩

theorem gets_matchCompare {op : CompareOp} (h : code[pc]? = some (.matchTest (.compare op))) :
    (S.machine d code).Gets (.inl (pc, X.mach (frame ++ [l] ++ [r]) regs le w))
      (.inl (pc + 1, X.mach (frame ++ [Value.bool (compareValues l op r)]) regs le w)) :=
  gets_next h ⟨0, fun _ _ => by simp [-List.append_assoc, Setup.step, step]⟩

theorem gets_dup (h : code[pc]? = some .dup) :
    (S.machine d code).Gets (.inl (pc, X.mach (frame ++ [v]) regs le w))
      (.inl (pc + 1, X.mach (frame ++ [v] ++ [v]) regs le w)) := by
  refine gets_next h ⟨0, fun _ _ => ?_⟩
  have hl : (X.low ++ (frame ++ [v])).getLast? = some v := by
    rw [← List.append_assoc, List.getLast?_concat]
  simp only [Setup.step, step, Fixed.mach_stack, hl, Fixed.mach_push]

theorem gets_beginValueExpr (h : code[pc]? = some .beginValueExpr) :
    (S.machine d code).Gets (.inl (pc, X.mach frame regs le w))
      (.inl (pc + 1, X.mach frame (.unit :: regs) le w)) :=
  gets_next h ⟨0, fun _ _ => by simp [Setup.step, step]⟩

theorem gets_keepLastValue (h : code[pc]? = some .keepLastValue) :
    (S.machine d code).Gets (.inl (pc, X.mach (frame ++ [v]) (r :: rs) le w))
      (.inl (pc + 1, X.mach frame ((if v.isUnit then r else v) :: rs) le w)) := by
  refine gets_next h ⟨0, fun _ _ => ?_⟩
  cases hv : v.isUnit <;> simp [Setup.step, step, hv]

theorem gets_setValueReg (h : code[pc]? = some .setValueReg) :
    (S.machine d code).Gets (.inl (pc, X.mach (frame ++ [v]) (r :: rs) le w))
      (.inl (pc + 1, X.mach frame (v :: rs) le w)) :=
  gets_next h ⟨0, fun _ _ => by simp [Setup.step, step]⟩

theorem gets_endValueExpr (h : code[pc]? = some .endValueExpr) :
    (S.machine d code).Gets (.inl (pc, X.mach frame (r :: rs) le w))
      (.inl (pc + 1, X.mach (frame ++ [r]) rs le w)) :=
  gets_next h ⟨0, fun _ _ => by simp [Setup.step, step]⟩

theorem gets_labelJoin {x : String} {src : LabelRef} (h : code[pc]? = some (.labelJoin x src)) :
    (S.machine d code).Gets (.inl (pc, X.mach frame regs le w))
      (.inl (pc + 1, X.mach frame regs (execLabelJoin S.names.classes x src le) w)) :=
  gets_next h ⟨0, fun _ _ => rfl⟩

theorem gets_sinkCheck {data : SinkCheckData} (h : code[pc]? = some (.sinkCheck data))
    (hp : sinkRefuses data.fnName (labelOf S.names.classes le data.arg) = false) :
    (S.machine d code).Gets (.inl (pc, X.mach frame regs le w))
      (.inl (pc + 1, X.mach frame regs le w)) :=
  gets_next h ⟨0, fun _ _ => by simp [Setup.step, step, Setup.interpCalls, execSinkCheck, hp]⟩

end

end Metalogos.Refine
