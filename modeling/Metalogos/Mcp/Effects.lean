import Metalogos.Compile.Sites
import Metalogos.Machine.Exec

/-!
# What a run performs

The builtins a run of a body asks the host for, in order: by a call in the body itself, by a memory statement of it,
or in what it calls, which is a pattern, the item of a `map` or an `on_deny` handler. `effects` follows the executor:
what an instruction performs is read off the machine before it, and `step` says which machine comes next. A call of
the body itself is one of its code, at any depth of `try` (`effects_call`).
-/
namespace Metalogos.Mcp

open Metalogos.Lang Metalogos.Machine Metalogos.Compile

inductive Via where
  | call
  | statement
  | callee
  deriving DecidableEq, Repr

/-- A builtin that was performed. -/
structure Effect where
  via : Via
  name : String
  deriving DecidableEq, Repr

/-- For the caller. -/
def Effect.nested (e : Effect) : Effect := { e with via := .callee }

variable {F W : Type} [FloatModel F] (N : Names) (P : Machine.Program F) (H : Host F W)

/-! ## One instruction -/

section

variable (run : List (Instr F) → Mach F W → Res F W) (effects : List (Instr F) → Mach F W → List Effect)

/-- mirrors src/vm.rs:2767-2813 -/
def itemEffects (code : List (Instr F)) : List (Value F) → Vm F W → List Effect
  | [], _ => []
  | v :: vs, vm =>
    let m : Mach F W := { stack := [v], callStack := [⟨0, 0⟩], vm := vm }
    effects code m ++
      match run code m with
      | (.ok _, m') => itemEffects code vs m'.vm
      | (.error _, _) => []

/-- mirrors src/vm.rs:2767-2813 -/
def mapEffects (args : List (Value F)) (m : Mach F W) : List Effect :=
  if !P.collectionsLoaded then []
  else match args with
    | .list items :: .string name :: _ =>
      match P.patterns.reverse.find? (·.name = name) with
      | none => []
      | some p => if p.paramCount ≠ 1 then [] else itemEffects run effects p.code items m.vm
    | _ => []

/-- mirrors src/vm.rs:2823-2897 -/
def denyEffects (a : Denial F) (returnIp : Nat) (m : Mach F W) : List Effect :=
  let m0 := m.withWorld (H.recordDeny ("deny." ++ a.reason) a.cls
    (a.sink ++ "|" ++ a.argument ++ "|" ++ a.label ++ "|" ++ FloatModel.print a.line ++ "|" ++ a.human)
    m.vm.world)
  match selectHandler (P.denyHandlers.map (·.1)) a.cls with
  | none => []
  | some k =>
    let event := denyEventValue a.reason a.sink a.cls a.argument a.label a.line a.human
    effects ((P.denyHandlers[k]?.map (·.2)).getD [])
      { m0 with
        callStack := m0.callStack ++ [⟨returnIp, m0.stack.length⟩]
        vm := { m0.vm with denyEvent := some event } }

/-- What a builtin performs besides itself.
mirrors src/vm.rs:2127-2214 -/
def builtinEffects (name : String) (args : List (Value F)) (nextIp : Nat) (m : Mach F W) : List Effect :=
  let (mapped, m') := if name = "map" then vmMap P run args m else (none, m)
  (if name = "map" then mapEffects P run effects args m else []) ++
    match mapped with
    | some _ => []
    | none =>
      let (r, w) := H.builtin name args m'.vm
      let deny (argument cls e : String) : List Effect :=
        denyEffects P H effects ⟨name, argument, cls, "IRREVERSIBLE_NO_GRANT", "bottom", FloatModel.ofNat 0, e⟩
          nextIp (m'.withWorld w)
      match r with
      | .ok _ => []
      | .error e =>
        if startsWith e "IRREVERSIBLE_NO_GRANT" then deny "call" (sinkKind name) e
        else if startsWith e "GRANT_" then deny "sql" "db" e
        else []

/-- mirrors src/vm.rs:2215-2253 -/
def patternEffects (idx arity nextIp : Nat) (m : Mach F W) : List Effect :=
  match P.patterns[idx]? with
  | none => []
  | some p =>
    if arity ≠ p.paramCount then []
    else match popN? arity m.stack with
      | none => []
      | some (args, s) => effects p.code
          { m with stack := s ++ args, callStack := m.callStack ++ [⟨nextIp, s.length⟩] }

/-- mirrors src/vm.rs:870-970 -/
def sinkCheckEffects (sc : SinkCheckData) (nextIp : Nat) (m : Mach F W) : List Effect :=
  let label := labelOf N.classes m.vm.labelEnv sc.arg
  if sinkRefuses sc.fnName label then
    match sc.slot.bind fun s => m.stack[m.bp + s]? with
    | some (.handle .worldState _ _) => []
    | _ =>
      let reason := sinkCheckId sc.fnName sc.argIndex label
      match sc.deny with
      | none => []
      | some _ => denyEffects P H effects ⟨sc.fnName, sc.arg.text, sinkKind sc.fnName, reason, label.display,
          FloatModel.ofNat sc.line, sinkClearanceErr sc.fnName sc.arg.text label sc.line reason⟩ nextIp m
  else []

/-- mirrors src/vm.rs:2081-2757 -/
def stepEffects (i : Instr F) (ip : Nat) (m : Mach F W) : List Effect :=
  match i with
  | .callBuiltin idx arity =>
    match popN? arity m.stack with
    | none => []
    | some (args, s) =>
      let name := N.builtinNames[idx]?.getD "unknown"
      ⟨.call, name⟩ :: (builtinEffects P H run effects name args (ip + 1) (m.withStack s)).map Effect.nested
  | .callPattern idx arity => (patternEffects P effects idx arity (ip + 1) m).map Effect.nested
  | .tryEval inner => effects inner m
  | .sinkCheck data => (sinkCheckEffects N P H effects data (ip + 1) m).map Effect.nested
  | .memorize _ => if m.stack.isEmpty then [] else [⟨.statement, "memorize"⟩]
  | .forget _ => if m.stack.isEmpty then [] else [⟨.statement, "forget"⟩]
  | .relate => if m.stack.length < 3 then [] else [⟨.statement, "relate"⟩]
  | _ => []

/-! ## A body -/

/-- mirrors src/vm.rs:2064-2762 -/
def loopEffects (code : List (Instr F)) : Nat → Nat → Mach F W → List Effect
  | fuel, ip, m =>
    match code[ip]? with
    | none => []
    | some i =>
      match fuel with
      | 0 => []
      | fuel + 1 =>
        stepEffects N P H run effects i ip m ++
          match step N H.toHostOps (realCalls N P H run) i ip m with
          | .next ip' m' => loopEffects code fuel ip' m'
          | _ => []

end

/-- mirrors src/vm.rs:2022-2056 -/
def effects (L : Limits) : Nat → List (Instr F) → Mach F W → List Effect
  | 0, _, _ => []
  | d + 1, code, m =>
    if m.vm.callDepth + 1 > L.maxDepth then []
    else
      let m1 : Mach F W :=
        { m with vm := { m.vm with callDepth := m.vm.callDepth + 1, registers := [] } }
      loopEffects N P H (executeCode N H.toHostOps (realCalls N P H) L d) (effects L d) code
        (max code.length 1 * L.lim) 0 m1

/-! ## Calls of the body itself -/

variable {N P H}

theorem not_call_of_nested {l : List Effect} {e : Effect} (h : e ∈ l.map Effect.nested) : e.via ≠ .call := by
  obtain ⟨e', -, rfl⟩ := List.mem_map.1 h
  exact nofun

section

variable {run : List (Instr F) → Mach F W → Res F W} {effects : List (Instr F) → Mach F W → List Effect}

/-- A call is a call instruction, or one under a `try`. -/
theorem stepEffects_call {i : Instr F} {ip : Nat} {m : Mach F W} {e : Effect}
    (h : e ∈ stepEffects N P H run effects i ip m) (hcall : e.via = .call) :
    (∃ idx arity, i = .callBuiltin idx arity ∧ e.name = N.builtinNames[idx]?.getD "unknown") ∨
      ∃ inner, i = .tryEval inner ∧ e ∈ effects inner m := by
  unfold stepEffects at h
  split at h
  · rename_i idx arity
    split at h
    · cases h
    · cases List.mem_cons.1 h with
      | inl heq => exact .inl ⟨idx, arity, rfl, by rw [heq]⟩
      | inr hrest => exact absurd hcall (not_call_of_nested hrest)
  · exact absurd hcall (not_call_of_nested h)
  · exact .inr ⟨_, rfl, h⟩
  · exact absurd hcall (not_call_of_nested h)
  · split at h
    · cases h
    · rw [List.mem_singleton.1 h] at hcall
      cases hcall
  · split at h
    · cases h
    · rw [List.mem_singleton.1 h] at hcall
      cases hcall
  · split at h
    · cases h
    · rw [List.mem_singleton.1 h] at hcall
      cases hcall
  · cases h

/-- Whatever a loop performs, one instruction of the code performs. -/
theorem loopEffects_step {code : List (Instr F)} {fuel ip : Nat} {m : Mach F W} {e : Effect}
    (h : e ∈ loopEffects N P H run effects code fuel ip m) :
    ∃ i ∈ code, ∃ ip' m', e ∈ stepEffects N P H run effects i ip' m' := by
  induction fuel generalizing ip m with
  | zero =>
    unfold loopEffects at h
    split at h <;> cases h
  | succ fuel ih =>
    unfold loopEffects at h
    split at h
    · cases h
    · rename_i i hi
      cases List.mem_append.1 h with
      | inl hstep => exact ⟨i, List.mem_of_getElem? hi, ip, m, hstep⟩
      | inr hrest =>
        split at hrest
        · exact ih hrest
        · cases hrest

end

/-- What the body itself calls, its code calls: any `f` finds it there. -/
theorem effects_call {α : Type} (f : Target → List α) {L : Limits} {d : Nat} {code : List (Instr F)} {m : Mach F W}
    {e : Effect} (h : e ∈ effects N P H L d code m) (hcall : e.via = .call) :
    ∃ idx, (∀ x ∈ f (.builtin idx), x ∈ gatherCode f code) ∧ e.name = N.builtinNames[idx]?.getD "unknown" := by
  induction d generalizing code m with
  | zero => cases h
  | succ d ih =>
    unfold effects at h
    split at h
    · cases h
    · obtain ⟨i, hi, ip, m', hstep⟩ := loopEffects_step h
      cases stepEffects_call hstep hcall with
      | inl hbuiltin =>
        obtain ⟨idx, arity, rfl, hname⟩ := hbuiltin
        exact ⟨idx, fun x hx => mem_gatherCode hi hx, hname⟩
      | inr htry =>
        obtain ⟨inner, rfl, hinner⟩ := htry
        obtain ⟨idx, hidx, hname⟩ := ih hinner
        exact ⟨idx, fun x hx => mem_gatherCode hi (hidx x hx), hname⟩

end Metalogos.Mcp
