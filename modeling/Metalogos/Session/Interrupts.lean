import Metalogos.Lib.Dict
import Metalogos.Lib.Turns

/-!
# The interrupts of a session

`src/session.rs`: a session in the registry keeps its pending interrupts in the order they came; `take_interrupt`
scans them for the first one of the highest rank and removes it. Each call that does something is recorded in the
ledger, as the kind, the session and the detail.

`interrupts_served`: the calls on a session are served from a queue by rank (`Lib.Turns`), in which each interrupt is
pending or taken, once, whatever calls on other sessions come in between.
-/
namespace Metalogos.Session

open Metalogos.Lib

def interruptPriorities : List String := ["low", "normal", "high", "critical"]

/-- mirrors src/session.rs:55-60 -/
def priorityRank (word : String) : Option Nat := interruptPriorities.findIdx? (· = word)

/-- mirrors src/session.rs:71-77 -/
structure InterruptEvent where
  priority : String
  rank : Nat
  reason : String
  enqueuedUnix : Nat
  deriving DecidableEq, Repr

/-- mirrors src/session.rs:63-68 -/
structure WakeEvent where
  source : String
  payload : String
  enqueuedUnix : Nat
  deriving DecidableEq, Repr

/-- mirrors src/session.rs:84-90 -/
structure SessionState where
  user : String
  duty : Bool
  createdUnix : Nat
  wakes : List WakeEvent
  interrupts : List InterruptEvent
  deriving DecidableEq, Repr

structure World where
  registry : Dict String SessionState
  ledger : List (String × String × String)
  deriving DecidableEq

/-- `[CODE] text`, as `coded_error` stamps it. -/
def coded (code msg : String) : String := "[" ++ code ++ "] " ++ msg

def unknownSession (fnName id : String) : String :=
  coded "SESSION_UNKNOWN" (fnName ++ ": unknown session '" ++ id ++ "' — the id is not live (№348 fail-closed)")

def unknownPriority (priority : String) : String :=
  coded "SESSION_CONTRACT" ("session_interrupt: unknown priority '" ++ priority ++ "' (available: " ++
    ", ".intercalate interruptPriorities ++ ") — the ladder is closed (ADR-0172 §4.2)")

def World.record (w : World) (kind id detail : String) : World :=
  { w with ledger := w.ledger ++ [("session." ++ kind, id, detail)] }

/-- mirrors src/session.rs:292-319; `now` is the clock. -/
def interrupt (w : World) (id priority reason : String) (now : Nat) : Except String Unit × World :=
  match priorityRank priority with
  | none => (.error (unknownPriority priority), w)
  | some rank =>
    match w.registry.get id with
    | none => (.error (unknownSession "session_interrupt" id), w)
    | some s =>
      let s := { s with interrupts := s.interrupts ++ [⟨priority, rank, reason, now⟩] }
      (.ok (), { w with registry := w.registry.set id s }.record "interrupt" id
        ("priority=" ++ priority ++ "|" ++ reason))

/-- mirrors src/session.rs:326-352 -/
def takeInterrupt (w : World) (id : String) : Except String (Option (String × String)) × World :=
  match w.registry.get id with
  | none => (.error (unknownSession "session_take_interrupt" id), w)
  | some s =>
    if s.interrupts = [] then (.ok none, w)
    else
      let best := firstBest InterruptEvent.rank s.interrupts
      match s.interrupts[best]? with
      | none => (.ok none, w)
      | some ev =>
        let s := { s with interrupts := s.interrupts.eraseIdx best }
        (.ok (some (ev.priority, ev.reason)), { w with registry := w.registry.set id s }.record "interrupt_taken" id
          ("priority=" ++ ev.priority ++ "|" ++ ev.reason))

/-! ## Histories -/

inductive Call where
  | interrupt (id priority reason : String) (now : Nat)
  | take (id : String)
  deriving DecidableEq, Repr

def Call.id : Call → String
  | .interrupt id .. => id
  | .take id => id

/-- What a call answers: nothing, or the interrupt taken. -/
abbrev Answer := Except String (Option (String × String))

def World.call (w : World) : Call → Answer × World
  | .interrupt id priority reason now =>
    let r := interrupt w id priority reason now
    (r.1.map fun _ => none, r.2)
  | .take id => takeInterrupt w id

/-- The answers of a run, and the world after it. -/
def World.run : World → List Call → List (Call × Answer) × World
  | w, [] => ([], w)
  | w, c :: cs =>
    let r := w.call c
    let rest := r.2.run cs
    ((c, r.1) :: rest.1, rest.2)

/-- How a queue by rank serves the calls on a session: an interrupt of a known priority is put, a take is given the
one to go next, and a take on an empty queue changes nothing. -/
inductive Served (id : String) : Turns InterruptEvent → List (Call × Answer) → Turns InterruptEvent → Prop
  | done (q) : Served id q [] q
  | put {q q' priority reason now rank rest} (hrank : priorityRank priority = some rank)
      (h : Served id (q.put ⟨priority, rank, reason, now⟩) rest q') :
      Served id q ((.interrupt id priority reason now, .ok none) :: rest) q'
  | refused {q q' priority reason now rest} (hrank : priorityRank priority = none) (h : Served id q rest q') :
      Served id q ((.interrupt id priority reason now, .error (unknownPriority priority)) :: rest) q'
  | take {q q' p ev rest} (hnext : q.Next InterruptEvent.rank p ev) (h : Served id (q.take p hnext.mem) rest q') :
      Served id q ((.take id, .ok (some (ev.priority, ev.reason))) :: rest) q'
  | idle {q q' rest} (hempty : q.pending = []) (h : Served id q rest q') : Served id q ((.take id, .ok none) :: rest) q'
  | other {q q' call answer rest} (hid : call.id ≠ id) (h : Served id q rest q') :
      Served id q ((call, answer) :: rest) q'

variable {w : World} {id : String} {s : SessionState}

/-- A call for another session leaves this one. -/
theorem call_other {c : Call} (h : c.id ≠ id) : (w.call c).2.registry.get id = w.registry.get id := by
  cases c with
  | interrupt id' priority reason now =>
    simp only [World.call, interrupt]
    split
    · rfl
    · split
      · rfl
      · exact (Dict.get_set _ _ _ _).trans (if_neg (Ne.symm h))
  | take id' =>
    simp only [World.call, takeInterrupt]
    split
    · rfl
    · split_ifs
      · rfl
      · split
        · rfl
        · exact (Dict.get_set _ _ _ _).trans (if_neg (Ne.symm h))

/-- A take on an empty queue changes nothing. -/
theorem take_idle (hlive : w.registry.get id = some s) (hempty : s.interrupts = []) :
    takeInterrupt w id = (.ok none, w) := by
  simp only [takeInterrupt, hlive, if_pos hempty]

/-- One call, served. -/
theorem call_served (hlive : w.registry.get id = some s) {q : Turns InterruptEvent} (hq : q.Holds s.interrupts)
    (c : Call) : ∃ q₁ s₁, (w.call c).2.registry.get id = some s₁ ∧ q₁.Holds s₁.interrupts ∧
      ∀ rest q', Served id q₁ rest q' → Served id q ((c, (w.call c).1) :: rest) q' := by
  by_cases hid : c.id = id
  · subst hid
    cases c with
    | interrupt id priority reason now =>
      change w.registry.get id = some s at hlive
      cases hrank : priorityRank priority with
      | none =>
        have hcall : w.call (.interrupt id priority reason now) = (.error (unknownPriority priority), w) := by
          simp only [World.call, interrupt, hrank]
          rfl
        rw [hcall]
        exact ⟨q, s, hlive, hq, fun rest q' h => .refused hrank h⟩
      | some rank =>
        simp only [World.call, interrupt, hrank, hlive]
        exact ⟨q.put ⟨priority, rank, reason, now⟩,
          { s with interrupts := s.interrupts ++ [⟨priority, rank, reason, now⟩] },
          (Dict.get_set _ _ _ _).trans (if_pos rfl), hq.put _,
          fun rest q' h => .put hrank h⟩
    | take id =>
      change w.registry.get id = some s at hlive
      by_cases hempty : s.interrupts = []
      · have hcall : w.call (.take id) = (.ok none, w) := take_idle hlive hempty
        rw [hcall]
        exact ⟨q, s, hlive, hq, fun rest q' h => .idle (hq.nil_iff.1 hempty) h⟩
      · have htaken : ∃ ev p, s.interrupts[firstBest InterruptEvent.rank s.interrupts]? = some ev ∧
            q.Next InterruptEvent.rank p ev ∧ ∀ hp : p ∈ q.pending,
              (q.take p hp).Holds (s.interrupts.eraseIdx (firstBest InterruptEvent.rank s.interrupts)) :=
          hq.take hempty
        obtain ⟨ev, p, hev, hnext, hrest⟩ := htaken
        simp only [World.call, takeInterrupt, hlive, if_neg hempty, hev]
        exact ⟨q.take p hnext.mem,
          { s with interrupts := s.interrupts.eraseIdx (firstBest InterruptEvent.rank s.interrupts) },
          (Dict.get_set _ _ _ _).trans (if_pos rfl), hrest hnext.mem,
          fun rest q' h => .take hnext h⟩
  · exact ⟨q, s, (call_other hid).trans hlive, hq, fun rest q' h => .other hid h⟩

/-- The calls on a live session are served from its queue, in which each interrupt is pending or taken. -/
theorem interrupts_served {w : World} {id : String} {s : SessionState} (hlive : w.registry.get id = some s)
    (calls : List Call) : (s.interrupts = [] → takeInterrupt w id = (.ok none, w)) ∧
      ∃ q' s', Served id (.ofList s.interrupts) (w.run calls).1 q' ∧
        (w.run calls).2.registry.get id = some s' ∧ q'.Holds s'.interrupts := by
  refine ⟨take_idle hlive, ?_⟩
  suffices h : ∀ (w : World) (s : SessionState) (q : Turns InterruptEvent), w.registry.get id = some s →
      q.Holds s.interrupts → ∃ q' s', Served id q (w.run calls).1 q' ∧
        (w.run calls).2.registry.get id = some s' ∧ q'.Holds s'.interrupts from
    h w s _ hlive (Turns.holds_ofList s.interrupts)
  clear hlive
  induction calls with
  | nil => exact fun w s q hlive hq => ⟨q, s, .done q, hlive, hq⟩
  | cons c calls ih =>
    intro w s q hlive hq
    obtain ⟨q₁, s₁, hlive₁, hq₁, hserved⟩ := call_served hlive hq c
    obtain ⟨q', s', hrun, hlive', hq'⟩ := ih _ s₁ q₁ hlive₁ hq₁
    exact ⟨q', s', hserved _ _ hrun, hlive', hq'⟩

def night : World := ⟨.set .empty "s-1" ⟨"ann", false, 7, [], []⟩, []⟩

/-- Two interrupts of one rank between others of other ranks, and one of no known priority. -/
def nightCalls : List Call :=
  [.interrupt "s-1" "low" "mail" 8, .interrupt "s-1" "high" "door" 9, .interrupt "s-1" "high" "bell" 10,
    .interrupt "s-1" "urgent" "cat" 11, .take "s-1", .take "s-1", .interrupt "s-1" "critical" "fire" 12, .take "s-1",
    .take "s-1", .take "s-1"]

theorem interrupts_served_night : takeInterrupt night "s-1" = (.ok none, night) ∧
    ((night.run nightCalls).1.filterMap fun p => p.2.toOption.join) =
      [("high", "door"), ("high", "bell"), ("critical", "fire"), ("low", "mail")] ∧
    ∃ q' s', Served "s-1" (.ofList []) (night.run nightCalls).1 q' ∧
      (night.run nightCalls).2.registry.get "s-1" = some s' ∧ q'.Holds s'.interrupts := by
  have h := interrupts_served (show night.registry.get "s-1" = some ⟨"ann", false, 7, [], []⟩ from rfl) nightCalls
  exact ⟨h.1 rfl, by decide +kernel, h.2⟩

end Metalogos.Session
