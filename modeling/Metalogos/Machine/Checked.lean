import Metalogos.Machine.Depth

/-!
# What a run asks of the process

`execute_code` on any bytecode: every table, jump target and operand is looked up with a check, and what is left is
what the process has to bear. The addresses of locals are computed without a check (`base_bp + slot`, `idx + 1`), and
the operand stack is resized to whatever they come to; two more computations overflow on their operands, and the body
of a builtin or of an LLM call may panic on arguments nobody has counted. `Process.touch` is that part of an instruction, computed as
the source does and failing where the process goes down.

A run comes to a value or an error if and only if all it touches is borne (`execute_checked`); a `StoreLocal` of the
last slot number is not (`store_last_slot`).
-/
namespace Metalogos.Machine

open Metalogos.Lang Metalogos.Lib

variable {F W : Type} [FloatModel F]

/-- The process a machine runs in: the longest operand stack a `resize` can get, the clock that `Forget` reads, and
the builtin and LLM calls whose body panics. A push is taken to find its one cell. -/
structure Process (F W : Type) where
  maxCells : Nat
  maxCells_lt : maxCells < 2 ^ 64
  now : W → Int
  panics : String → List (Value F) → Vm F W → Bool
  llmPanics : Nat → List (Value F) → Vm F W → Bool

/-- Addition of `usize`. -/
def addUsize (a b : Nat) : Option Nat := if a + b < 2 ^ 64 then some (a + b) else none

def inI64 (n : Int) : Bool := decide (-2 ^ 63 ≤ n ∧ n < 2 ^ 63)

namespace Process

variable (X : Process F W)

/-- `stack.resize(cells, Unit)`. -/
def resize (cells : Nat) : Option Unit := if cells ≤ X.maxCells then some () else none

/-- mirrors src/vm.rs:2094-2124 -/
def store (slot : Nat) (m : Mach F W) : Option Unit := do
  let idx ← addUsize m.bp slot
  match pop? m.stack with
  | none => some ()
  | some (_, stack) =>
    if idx ≥ stack.length then do
      let cells ← addUsize idx 1
      X.resize cells
    else some ()

/-- The negation of a list index before it is looked up.
mirrors src/vm.rs:2393-2401 -/
def index (m : Mach F W) : Option Unit :=
  match pop? m.stack with
  | some (.float f, stack) =>
    match pop? stack with
    | some (.list _, _) => if FloatModel.toIsize f = -2 ^ 63 then none else some ()
    | _ => some ()
  | _ => some ()

/-- The cutoff, in seconds.
mirrors src/vm.rs:2454-2466 -/
def cutoff (days : Int) (m : Mach F W) : Option Unit :=
  match pop? m.stack with
  | none => some ()
  | some _ =>
    if inI64 (days * 86400) then
      if inI64 (X.now m.vm.world - days * 86400) then some () else none
    else none

/-- The body of an LLM call, once its operands are popped.
mirrors src/vm.rs:2417-2430 -/
def llm (idx arity : Nat) (m : Mach F W) : Option Unit :=
  match popN? arity m.stack with
  | none => some ()
  | some (args, _) => if X.llmPanics idx args m.vm then none else some ()

/-- What an instruction or a builtin asks of the process; `none` where it goes down. -/
def touch : Access F W → Option Unit
  | .instr (.loadLocal slot) m => do
    let _ ← addUsize m.bp slot
    some ()
  | .instr (.storeLocal slot) m => X.store slot m
  | .instr (.storeAssignLocal slot _ isMut) m => if isMut then X.store slot m else some ()
  | .instr .indexAccess m => index m
  | .instr (.forget days) m => X.cutoff days m
  | .instr (.llmCall idx arity) m => X.llm idx arity m
  | .instr _ _ => some ()
  | .builtin name args vm => if X.panics name args vm then none else some ()

/-- What the process bears: addresses of locals that fit a `usize` and end within the longest stack, no list index of
the least `isize`, days whose seconds are an `i64`, no builtin or LLM call that panics. -/
def Bears : Access F W → Prop
  | .instr (.loadLocal slot) m => m.bp + slot < 2 ^ 64
  | .instr (.storeLocal slot) m | .instr (.storeAssignLocal slot _ true) m =>
    m.bp + slot < 2 ^ 64 ∧ (m.stack = [] ∨ m.bp + slot + 1 < m.stack.length ∨ m.bp + slot + 1 ≤ X.maxCells)
  | .instr .indexAccess m => ∀ stack items f, m.stack = stack ++ [.list items, .float f] →
    FloatModel.toIsize f ≠ -2 ^ 63
  | .instr (.forget days) m => m.stack = [] ∨
    inI64 (days * 86400) = true ∧ inI64 (X.now m.vm.world - days * 86400) = true
  | .instr (.llmCall idx arity) m => ∀ stack args, m.stack = stack ++ args → args.length = arity →
    X.llmPanics idx args m.vm = false
  | .builtin name args vm => X.panics name args vm = false
  | _ => True

end Process

theorem pop?_eq_none {α : Type} {l : List α} : pop? l = none ↔ l = [] := by
  cases h : l.getLast? with
  | none => simpa [pop?, h] using List.getLast?_eq_none_iff.1 h
  | some v =>
    refine iff_of_false (by simp [pop?, h]) fun hnil => ?_
    rw [hnil] at h
    cases h

theorem pop?_eq_some {α : Type} {l s : List α} {v : α} : pop? l = some (v, s) ↔ l = s ++ [v] := by
  constructor
  · intro h
    cases hlast : l.getLast? with
    | none => simp [pop?, hlast] at h
    | some w =>
      simp only [pop?, hlast, Option.some.injEq, Prod.mk.injEq] at h
      obtain ⟨rfl, rfl⟩ := h
      exact (List.dropLast_append_getLast? w hlast).symm
  · intro h
    rw [h, pop?_append]

namespace Process

variable (X : Process F W)

omit [FloatModel F] in
theorem store_borne (slot : Nat) (m : Mach F W) :
    (X.store slot m).isSome = true ↔
      m.bp + slot < 2 ^ 64 ∧ (m.stack = [] ∨ m.bp + slot + 1 < m.stack.length ∨ m.bp + slot + 1 ≤ X.maxCells) := by
  have hcells := X.maxCells_lt
  unfold store addUsize resize
  by_cases hidx : m.bp + slot < 2 ^ 64
  · rw [if_pos hidx, and_iff_right hidx, Option.bind_eq_bind, Option.bind_some]
    cases hpop : pop? m.stack with
    | none => exact iff_of_true rfl (.inl (pop?_eq_none.1 hpop))
    | some popped =>
      obtain ⟨v, stack⟩ := popped
      have hstack : m.stack = stack ++ [v] := pop?_eq_some.1 hpop
      have hlen : m.stack.length = stack.length + 1 := by rw [hstack, List.length_append, List.length_singleton]
      have hne : m.stack ≠ [] := by simp [hstack]
      rw [or_iff_right hne]
      dsimp only
      by_cases hge : m.bp + slot ≥ stack.length
      · rw [if_pos hge]
        by_cases hcap : m.bp + slot + 1 ≤ X.maxCells
        · rw [if_pos (by omega)]
          dsimp only [Option.bind]
          rw [if_pos hcap]
          exact iff_of_true rfl (.inr hcap)
        · refine iff_of_false ?_ (by omega)
          split_ifs <;> simp [hcap]
      · rw [if_neg hge]
        exact iff_of_true rfl (.inl (by omega))
  · rw [if_neg hidx]
    exact iff_of_false (by simp) fun h => hidx h.1

theorem index_borne (m : Mach F W) :
    (index m).isSome = true ↔
      ∀ stack items f, m.stack = stack ++ [.list items, .float f] → FloatModel.toIsize f ≠ -2 ^ 63 := by
  unfold index
  split
  · rename_i f stack hpop
    have hstack := pop?_eq_some.1 hpop
    split
    · rename_i items rest hpop'
      have hrest := pop?_eq_some.1 hpop'
      have hfull : m.stack = rest ++ [.list items, .float f] := by rw [hstack, hrest, List.append_assoc]; rfl
      split_ifs with hleast
      · exact iff_of_false (by simp) fun h => h rest items f hfull hleast
      · refine iff_of_true rfl fun stack' items' f' heq => ?_
        rw [hfull] at heq
        have htail := (List.append_inj_right' heq rfl)
        cases htail
        exact hleast
    · rename_i hnot
      refine iff_of_true rfl fun stack' items f' heq => ?_
      have hsame : stack ++ [Value.float f] = (stack' ++ [.list items]) ++ [.float f'] := by
        rw [← hstack, heq, List.append_assoc]
        rfl
      have hpre := List.append_inj_left' hsame rfl
      exact absurd (pop?_eq_some.2 hpre) (hnot items stack')
  · rename_i hnot
    refine iff_of_true rfl fun stack' items f heq => ?_
    have hlast : m.stack = (stack' ++ [.list items]) ++ [.float f] := by rw [heq, List.append_assoc]; rfl
    exact absurd (pop?_eq_some.2 hlast) (hnot f _)

omit [FloatModel F] in
theorem llm_borne (idx arity : Nat) (m : Mach F W) : (X.llm idx arity m).isSome = true ↔
    ∀ stack args, m.stack = stack ++ args → args.length = arity → X.llmPanics idx args m.vm = false := by
  unfold llm
  by_cases hlen : arity ≤ m.stack.length
  · have hpop : popN? arity m.stack =
        some (m.stack.drop (m.stack.length - arity), m.stack.take (m.stack.length - arity)) := if_pos hlen
    -- the operands are the last `arity` cells, and only these
    have hargs : (∀ stack args, m.stack = stack ++ args → args.length = arity → X.llmPanics idx args m.vm = false) ↔
        X.llmPanics idx (m.stack.drop (m.stack.length - arity)) m.vm = false := by
      constructor
      · intro h
        exact h _ _ (List.take_append_drop _ _).symm (by rw [List.length_drop]; omega)
      · rintro h stack args heq rfl
        rw [heq, List.length_append, Nat.add_sub_cancel, List.drop_left] at h
        exact h
    rw [hpop, hargs]
    dsimp only
    cases X.llmPanics idx (m.stack.drop (m.stack.length - arity)) m.vm <;> simp
  · have hpop : popN? arity m.stack = none := if_neg hlen
    rw [hpop]
    refine iff_of_true rfl fun stack args heq hargs => ?_
    rw [heq, List.length_append] at hlen
    omega

theorem touch_borne (a : Access F W) : (X.touch a).isSome = true ↔ X.Bears a := by
  cases a with
  | builtin name args vm =>
    simp only [touch, Bears]
    cases X.panics name args vm <;> simp
  | instr i m =>
    cases i with
    | loadLocal slot =>
      simp only [touch, Bears, addUsize]
      by_cases h : m.bp + slot < 2 ^ 64
      · rw [if_pos h]
        exact iff_of_true rfl h
      · rw [if_neg h]
        exact iff_of_false (by simp) h
    | storeLocal slot => exact X.store_borne slot m
    | storeAssignLocal slot name isMut =>
      cases isMut with
      | false => exact iff_of_true rfl trivial
      | true => exact X.store_borne slot m
    | indexAccess => exact index_borne m
    | llmCall idx arity => exact X.llm_borne idx arity m
    | forget days =>
      simp only [touch, Bears, cutoff]
      cases hpop : pop? m.stack with
      | none => exact iff_of_true rfl (.inl (pop?_eq_none.1 hpop))
      | some popped =>
        have hne : m.stack ≠ [] := by
          intro hnil
          rw [hnil] at hpop
          cases hpop
        rw [or_iff_right hne]
        dsimp only
        cases inI64 (days * 86400) <;> cases inI64 (X.now m.vm.world - days * 86400) <;> simp
    | _ => exact iff_of_true rfl trivial

end Process

/-- The run of `execute_code` in a process: `none` where the process goes down.
mirrors src/vm.rs:2022-2762 -/
def executeChecked (X : Process F W) (N : Names) (P : Program F) (H : Host F W) (L : Limits)
    (code : List (Instr F)) (m : Mach F W) : Option (Res F W) :=
  executeM N P H L X.touch (L.maxDepth + 1) code m

/-- What a run does that the process has to bear, in its order: the instructions of its own code and of all codes
called from it, and the builtins. -/
def accesses (N : Names) (P : Program F) (H : Host F W) (L : Limits) (code : List (Instr F)) (m : Mach F W) :
    List (Access F W) :=
  (executeM N P H L Logged.tell (L.maxDepth + 1) code m).log

/-- A run comes to a value or an error, the one of `execute_code`, if and only if the process bears all that the run
does, and else takes the process down; and `execute_code` is the same under every bound on the recursion that covers
the depth cap. -/
theorem execute_checked (X : Process F W) (N : Names) (P : Program F) (H : Host F W) (L : Limits)
    (code : List (Instr F)) (m : Mach F W) :
    (executeChecked X N P H L code m = some (executeCode N H.toHostOps (realCalls N P H) L (L.maxDepth + 1) code m) ↔
        ∀ a ∈ accesses N P H L code m, X.Bears a) ∧
      (executeChecked X N P H L code m = none ↔ ∃ a ∈ accesses N P H L code m, ¬X.Bears a) ∧
      ∀ k, executeCode N H.toHostOps (realCalls N P H) L (L.maxDepth + 1 + k) code m =
        executeCode N H.toHostOps (realCalls N P H) L (L.maxDepth + 1) code m := by
  have hchecked : executeChecked X N P H L code m =
      (Logged.checked fun a => (X.touch a).isSome).app
        (executeM N P H L Logged.tell (L.maxDepth + 1) code m) := by
    have htouch : (fun a => (Logged.checked fun a => (X.touch a).isSome).app (Logged.tell a)) = X.touch := by
      funext a
      simp only [Logged.checked, Logged.tell, List.all_cons, List.all_nil, Bool.and_true]
      cases X.touch a <;> rfl
    rw [executeM_app, htouch]
    rfl
  have hvalue : (executeM N P H L Logged.tell (L.maxDepth + 1) code m).value =
      executeCode N H.toHostOps (realCalls N P H) L (L.maxDepth + 1) code m := by
    rw [← executeM_id]
    exact executeM_app Logged.unlogged N P H L Logged.tell (L.maxDepth + 1) code m
  refine ⟨?_, ?_, fun k => executeCode_bound N P H L (L.maxDepth + 1) k code m (by omega)⟩
  · rw [hchecked, Logged.checked_eq_some, and_iff_left hvalue]
    simp only [X.touch_borne, accesses]
  · rw [hchecked, Logged.checked_eq_none]
    simp only [← X.touch_borne, accesses, Bool.not_eq_true]

namespace Sample

def process : Process Int Unit := ⟨2 ^ 58, by decide, fun _ => 0, fun _ _ _ => false, fun _ _ _ => false⟩

def noNames : Names := ⟨[], [], fun _ => none, ⟨fun _ => false, fun _ => false, fun _ => false⟩⟩

def host : Host Int Unit where
  memorize _ _ w := w
  forget _ _ w := w
  relate _ _ _ w := w
  recallText _ _ := ""
  maybeCollapse v _ := v
  builtin _ _ _ := (.ok .unit, ())
  callLlm _ _ _ := (.ok .unit, ())
  recordDeny _ _ _ w := w

def empty : Mach Int Unit := ⟨[], [], ⟨[], fun _ => none, [], 0, none, ()⟩⟩

end Sample

/-- `idx + 1` overflows. -/
theorem store_last_slot :
    executeChecked Sample.process Sample.noNames ⟨[], [], false⟩ Sample.host ⟨512, 100000⟩
      [.pushUnit, .storeLocal (2 ^ 64 - 1)] Sample.empty = none :=
  Option.isNone_iff_eq_none.1 (by decide +kernel)

end Metalogos.Machine
