import Metalogos.Machine.Exec
import Mathlib.Logic.Relation

/-!
# `on_deny` handlers and the live deny event

A gate that refuses an action calls `fire_on_deny` (`src/interpreter/hooks.rs:28-85`) or `vm_fire_on_deny`
(`src/vm.rs:2823-2897`): the last handler of the class is selected, the event is put into one slot, the body runs,
the slot is emptied. `deny_event()` and `deny_reason()` read the slot.

What a body computes is left open: `Backend.move` says what comes next, and only four kinds of move matter here. A
`Frame` is a `fire_on_deny` that waits for its handler's body; `Conf.step` is one move, so a run passes through every
moment of every nesting.

`deny_events_scoped`: at every moment the slot answers for the innermost running handler, if and only if no body of a
handler that was fired inside another handler's body ever ends. After such an end the outer body runs on with an empty
slot (`outer_event_lost`).
-/
namespace Metalogos.Deny

open Metalogos.Lang Metalogos.Machine Relation

/-- What an evaluation does next: anything that has to do with no deny event, an action refused by its gate, a call of
`deny_event` or `deny_reason`, its end. -/
inductive Move (F C W : Type) where
  | go (code : C) (world : W)
  | refused (a : Denial F) (returnIp : Nat) (resume : Except String Bool → C)
  | event (name : String) (resume : Except String (Value F) → C)
  | done (result : Except String (Value F))

/-- One of the two evaluators, with the program's handlers in the order of their declarations. -/
structure Backend (F C W : Type) where
  move : C → W → Move F C W
  record : (reason cls detail : String) → W → W
  handlers : List (String × C)
  /-- Before a handler's body. -/
  enter : Nat → W → W
  /-- Behind it, from the state before it. -/
  leave : W → W → W
  /-- The refused action counts as handled. -/
  degrade : W → W

section Backends

variable {F C W : Type}

/-- A body runs on an environment of its own, and the caller makes `Unit` of the answer. -/
def treeWalker (move : C → W → Move F C W) (record : (reason cls detail : String) → W → W)
    (handlers : List (String × C)) : Backend F C W :=
  ⟨move, record, handlers, fun _ w => w, fun _ w => w, fun w => w⟩

/-- The parts of the machine a handler's body is kept apart on. -/
structure Stacks (F W : Type) where
  stack : List (Value F)
  callStack : List Machine.Frame
  rest : W

/-- mirrors src/vm.rs:2880-2897 -/
def vm (move : C → Stacks F W → Move F C (Stacks F W)) (record : (reason cls detail : String) → W → W)
    (handlers : List (String × C)) : Backend F C (Stacks F W) where
  move := move
  record reason cls detail w := { w with rest := record reason cls detail w.rest }
  handlers := handlers
  enter returnIp w := { w with callStack := w.callStack ++ [⟨returnIp, w.stack.length⟩] }
  leave before w := { w with stack := w.stack.take before.stack.length, callStack := w.callStack.dropLast }
  degrade w := { w with stack := w.stack ++ [.unit] }

end Backends

/-! ## Moments -/

/-- A `fire_on_deny` whose handler's body runs. -/
structure Frame (F C W : Type) where
  event : Value F
  before : W
  resume : Except String Bool → C

structure Conf (F C W : Type) where
  slot : Option (Value F)
  world : W
  code : C
  frames : List (Frame F C W)

def denyHandlerErr : String := "deny_event() is only available inside an on_deny handler"

/-- mirrors src/interpreter/hooks.rs:90-96, src/vm.rs:2918-2921 -/
def takeDenyEvent {F : Type} (slot : Option (Value F)) : Except String (Value F) :=
  match slot with
  | some event => .ok event
  | none => .error denyHandlerErr

/-- mirrors src/audit_ops.rs:66-76 -/
def denyEventOrReason {F : Type} (name : String) (event : Value F) : Value F :=
  let reason := match event with
    | .struct _ fields => (fields.lookup "reason").getD .unit
    | other => other
  if name = "deny_event" then event else reason

variable {F C W : Type} [FloatModel F] (B : Backend F C W)

/-- Up to the start of the handler's body; with no handler the caller keeps its error.
mirrors src/interpreter/hooks.rs:45-76, src/vm.rs:2842-2868 -/
def fireOnDeny (a : Denial F) (returnIp : Nat) (resume : Except String Bool → C) (c : Conf F C W) : Conf F C W :=
  let w := B.record ("deny." ++ a.reason) a.cls
    (a.sink ++ "|" ++ a.argument ++ "|" ++ a.label ++ "|" ++ FloatModel.print a.line ++ "|" ++ a.human) c.world
  match (selectHandler (B.handlers.map (·.1)) a.cls).bind (B.handlers[·]?) with
  | none => { c with world := w, code := resume (.ok false) }
  | some handler =>
    let event := denyEventValue a.reason a.sink a.cls a.argument a.label a.line a.human
    ⟨some event, B.enter returnIp w, handler.2, ⟨event, w, resume⟩ :: c.frames⟩

/-- From the end of the body on. A failing handler is loud.
mirrors src/interpreter/hooks.rs:77-85, src/vm.rs:2869-2877 -/
def handlerEnds (result : Except String (Value F)) (f : Frame F C W) (rest : List (Frame F C W)) (w : W) :
    Conf F C W :=
  match result with
  | .error e => ⟨none, B.leave f.before w, f.resume (.error e), rest⟩
  | .ok _ => ⟨none, B.degrade (B.leave f.before w), f.resume (.ok true), rest⟩

/-- One move; the program's own end has no next. -/
def step (c : Conf F C W) : Option (Conf F C W) :=
  match B.move c.code c.world with
  | .go code w => some { c with code := code, world := w }
  | .refused a returnIp resume => some (fireOnDeny B a returnIp resume c)
  | .event name resume => some { c with code := resume ((takeDenyEvent c.slot).map (denyEventOrReason name)) }
  | .done result =>
    match c.frames with
    | [] => none
    | f :: rest => some (handlerEnds B result f rest c.world)

/-- Before the program. -/
def start (code : C) (w : W) : Conf F C W := ⟨none, w, code, []⟩

def Reaches : Conf F C W → Conf F C W → Prop := ReflTransGen fun c c' => step B c = some c'

/-! ## The answer at every moment -/

/-- The answer for the innermost handler whose body is running. -/
def innermost (frames : List (Frame F C W)) : Except String (Value F) :=
  match frames with
  | [] => .error denyHandlerErr
  | f :: _ => .ok f.event

def Scoped (c : Conf F C W) : Prop := takeDenyEvent c.slot = innermost c.frames

/-- A body of a handler that was fired inside another handler's body is at its end. -/
def NestedEnd (c : Conf F C W) : Prop :=
  (∃ result, B.move c.code c.world = .done result) ∧ ∃ inner outer rest, c.frames = inner :: outer :: rest

omit [FloatModel F] in
theorem handlerEnds_slot (result : Except String (Value F)) (f : Frame F C W) (rest : List (Frame F C W)) (w : W) :
    (handlerEnds B result f rest w).slot = none ∧ (handlerEnds B result f rest w).frames = rest := by
  cases result <;> exact ⟨rfl, rfl⟩

variable {B}

theorem fireOnDeny_scoped {c : Conf F C W} (h : Scoped c) (a : Denial F) (returnIp : Nat)
    (resume : Except String Bool → C) : Scoped (fireOnDeny B a returnIp resume c) := by
  unfold fireOnDeny
  dsimp only
  split
  · exact h
  · exact rfl

/-- Every move but a nested end keeps the answer right. -/
theorem step_scoped {c c' : Conf F C W} (h : Scoped c) (hend : ¬ NestedEnd B c) (hstep : step B c = some c') :
    Scoped c' := by
  unfold step at hstep
  cases hmove : B.move c.code c.world with
  | go code w =>
    rw [hmove] at hstep
    cases hstep
    exact h
  | refused a returnIp resume =>
    rw [hmove] at hstep
    cases hstep
    exact fireOnDeny_scoped h a returnIp resume
  | event name resume =>
    rw [hmove] at hstep
    cases hstep
    exact h
  | done result =>
    rw [hmove] at hstep
    cases hframes : c.frames with
    | nil =>
      rw [hframes] at hstep
      cases hstep
    | cons f rest =>
      rw [hframes] at hstep
      cases rest with
      | nil =>
        have hslot := handlerEnds_slot B result f [] c.world
        cases hstep
        unfold Scoped
        rw [hslot.1, hslot.2]
        rfl
      | cons outer rest => exact absurd ⟨⟨result, hmove⟩, f, outer, rest, hframes⟩ hend

/-- A nested end leaves the outer body with an empty slot. -/
theorem nestedEnd_unscoped {c : Conf F C W} (h : NestedEnd B c) : ∃ c', step B c = some c' ∧ ¬ Scoped c' := by
  obtain ⟨⟨result, hmove⟩, inner, outer, rest, hframes⟩ := h
  have hslot := handlerEnds_slot B result inner (outer :: rest) c.world
  refine ⟨handlerEnds B result inner (outer :: rest) c.world, ?_, ?_⟩
  · unfold step
    rw [hmove, hframes]
  · unfold Scoped
    rw [hslot.1, hslot.2]
    nofun

variable (B)

/-- In a run of any program on either backend the answer is right at every moment if and only if no body of a handler
that was fired inside another handler's body ends. -/
theorem deny_events_scoped (code : C) (w : W) :
    (∀ c, Reaches B (start code w) c → Scoped c) ↔ ∀ c, Reaches B (start code w) c → ¬ NestedEnd B c := by
  constructor
  · intro h c hreach hend
    obtain ⟨c', hstep, hbad⟩ := nestedEnd_unscoped hend
    exact hbad (h c' (hreach.tail hstep))
  · intro h c hreach
    induction hreach with
    | refl => exact rfl
    | tail hbefore hstep ih => exact step_scoped ih (h _ hbefore) hstep

/-! ## A handler that is refused something itself -/

namespace Sample

/-- The points of a program whose database action is refused, with a handler for `db` that sends something over the
network and then asks for its event, and one for `network` that does nothing. -/
inductive Point where
  | main
  | after
  | notify
  | ask
  | quiet
  deriving DecidableEq

def refusal (sink cls : String) : Denial Int :=
  ⟨sink, "call", cls, "IRREVERSIBLE_NO_GRANT", "bottom", 0, "IRREVERSIBLE_NO_GRANT: no grant"⟩

def move {W : Type} : Point → W → Move Int Point W
  | .main, _ => .refused (refusal "db_execute_with_grant" "db") 1 fun _ => .after
  | .after, _ => .done (.ok .unit)
  | .notify, _ => .refused (refusal "http_post" "network") 1 fun _ => .ask
  | .ask, _ => .event "deny_event" fun _ => .after
  | .quiet, _ => .done (.ok .unit)

def handlers : List (String × Point) := [("db", .notify), ("network", .quiet)]

/-- Three moves on, the handler for `db` runs again and the slot is empty. -/
theorem loses {W : Type} (B : Backend Int Point W) (hmove : B.move = move) (hhandlers : B.handlers = handlers) (w : W) :
    ∃ c, Reaches B (start .main w) c ∧ ¬ Scoped c := by
  have hdb : (selectHandler (handlers.map (·.1)) "db").bind (handlers[·]?) = some ("db", .notify) := by decide
  have hnet : (selectHandler (handlers.map (·.1)) "network").bind (handlers[·]?) = some ("network", .quiet) := by
    decide
  have hfirst : ∃ c, step B (start .main w) = some c ∧ c.code = .notify ∧ ∃ f, c.frames = [f] := by
    unfold step
    rw [hmove]
    refine ⟨_, rfl, ?_⟩
    unfold fireOnDeny
    rw [hhandlers]
    simp only [refusal, hdb]
    exact ⟨trivial, _, rfl⟩
  obtain ⟨c, hstep, hcode, f, hframes⟩ := hfirst
  have hsecond : ∃ c', step B c = some c' ∧ c'.code = .quiet ∧ ∃ g, c'.frames = [g, f] := by
    unfold step
    rw [hmove, hcode]
    refine ⟨_, rfl, ?_⟩
    unfold fireOnDeny
    rw [hhandlers]
    simp only [refusal, hnet, hframes]
    exact ⟨trivial, _, rfl⟩
  obtain ⟨c', hstep', hcode', g, hframes'⟩ := hsecond
  have hend : NestedEnd B c' := by
    refine ⟨⟨.ok .unit, ?_⟩, g, f, [], hframes'⟩
    rw [hmove, hcode']
    rfl
  obtain ⟨c'', hstep'', hbad⟩ := nestedEnd_unscoped hend
  have hfirst : Reaches B (start .main w) c := .single hstep
  have hsecond : Reaches B (start .main w) c' := hfirst.tail hstep'
  exact ⟨c'', hsecond.tail hstep'', hbad⟩

end Sample

/-- On both backends. -/
theorem outer_event_lost :
    (¬ ∀ (move : Sample.Point → Unit → Move Int Sample.Point Unit) record handlers code w c,
      Reaches (treeWalker move record handlers) (start code w) c → Scoped c) ∧
    ¬ ∀ (move : Sample.Point → Stacks Int Unit → Move Int Sample.Point (Stacks Int Unit)) record handlers
      code w c, Reaches (vm move record handlers) (start code w) c → Scoped c := by
  constructor
  · intro h
    obtain ⟨c, hreach, hbad⟩ :=
      Sample.loses (treeWalker Sample.move (fun _ _ _ w => w) Sample.handlers) rfl rfl ()
    exact hbad (h _ _ _ _ _ c hreach)
  · intro h
    obtain ⟨c, hreach, hbad⟩ :=
      Sample.loses (vm Sample.move (fun _ _ _ w => w) Sample.handlers) rfl rfl ⟨[], [], ()⟩
    exact hbad (h _ _ _ _ _ c hreach)

end Metalogos.Deny
