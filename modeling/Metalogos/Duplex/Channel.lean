import Metalogos.Lib.Dict

/-!
# Duplex channels

`src/duplex.rs`: a channel binds a session to two directions, each with a slot for its active stream and the
last stream that ended. A start is two steps, since the rank is resolved under a lock of its own: `resolve`
leaves what it found to its thread (`Pending`), and `engage` takes the slot, which may interrupt the stream
of the other direction. Every transition is an event of the journal, with the text it is recorded with. The
answers of the session registry and of the consent ledger, the clock and the digest are arguments; every
record is written.
-/
namespace Metalogos.Duplex

open Metalogos.Lib

/-! ## Data -/

/-- mirrors src/duplex.rs:39, src/session.rs:49 -/
def priorities : List String := ["low", "normal", "high", "critical"]

/-- mirrors src/duplex.rs:41-46 -/
def priorityRank (word : String) : Option Nat := priorities.idxOf? word

inductive Direction where
  | listen
  | speak
  deriving DecidableEq

def Direction.word : Direction → String
  | .listen => "listen"
  | .speak => "speak"

def Direction.opposite : Direction → Direction
  | .listen => .speak
  | .speak => .listen

/-- mirrors src/duplex.rs:53-58 -/
inductive StreamOutcome where
  | active
  | completed
  | interruptedBy (by_ : String) (priority : Nat)
  deriving DecidableEq

/-- mirrors src/duplex.rs:70-77 -/
structure Stream where
  id : String
  direction : Direction
  rank : Nat
  priorityWord : String
  outcome : StreamOutcome
  deriving DecidableEq

/-- mirrors src/duplex.rs:79-94 -/
structure DuplexChannel where
  id : String
  session : String
  defaultRank : Nat
  listen : Option Stream
  speak : Option Stream
  listenLast : Option Stream
  speakLast : Option Stream
  deriving DecidableEq

namespace DuplexChannel

def slot (c : DuplexChannel) : Direction → Option Stream
  | .listen => c.listen
  | .speak => c.speak

def last (c : DuplexChannel) : Direction → Option Stream
  | .listen => c.listenLast
  | .speak => c.speakLast

def occupy (c : DuplexChannel) (s : Stream) : Direction → DuplexChannel
  | .listen => { c with listen := some s }
  | .speak => { c with speak := some s }

/-- The slot is emptied, and its stream with its outcome is the last one. -/
def vacate (c : DuplexChannel) (s : Stream) : Direction → DuplexChannel
  | .listen => { c with listen := none, listenLast := some s }
  | .speak => { c with speak := none, speakLast := some s }

variable (c : DuplexChannel) (s : Stream) (d d' : Direction)

theorem slot_occupy : (c.occupy s d).slot d' = if d' = d then some s else c.slot d' := by
  cases d <;> cases d' <;> rfl

theorem slot_vacate : (c.vacate s d).slot d' = if d' = d then none else c.slot d' := by
  cases d <;> cases d' <;> rfl

theorem last_occupy : (c.occupy s d).last d' = c.last d' := by
  cases d <;> cases d' <;> rfl

theorem last_vacate : (c.vacate s d).last d' = if d' = d then some s else c.last d' := by
  cases d <;> cases d' <;> rfl

@[simp] theorem defaultRank_occupy : (c.occupy s d).defaultRank = c.defaultRank := by
  cases d <;> rfl

@[simp] theorem defaultRank_vacate : (c.vacate s d).defaultRank = c.defaultRank := by
  cases d <;> rfl

end DuplexChannel

/-! ## The journal -/

inductive DuplexEvent where
  | opened (channel session defaultPriority : String)
  | denied (channel : String) (direction : Direction)
  | preempt (channel incoming : String) (direction : Direction) (rank : Nat) (preempted : String)
    (preemptedRank : Nat)
  | interrupted (channel stream : String) (direction : Direction) (by_ : String) (priority : Nat)
  | start (channel stream : String) (direction : Direction) (priorityWord : String) (bargeIn : Bool)
  | stop (channel stream : String) (direction : Direction)
  deriving DecidableEq

namespace DuplexEvent

def kind : DuplexEvent → String
  | .opened _ _ _ => "open"
  | .denied _ d => d.word ++ "_denied"
  | .preempt _ _ _ _ _ _ => "preempt"
  | .interrupted _ _ _ _ _ => "interrupted"
  | .start _ _ d _ _ => d.word ++ "_start"
  | .stop _ _ _ => "stop"

/-- mirrors src/duplex.rs:137-140, 205-212, 326-345, 360-367, 384-391, 429-436 -/
def detail : DuplexEvent → String
  | .opened _ session priority => "session=" ++ session ++ "|default_priority=" ++ priority
  | .denied _ d => "no active consent grant 'audio." ++ d.word ++ "' — audio " ++ d.word ++
      " refused fail-closed (№428/ADR-0174 §4)"
  | .preempt _ incoming d rank preempted preemptedRank => "incoming=" ++ incoming ++ "|direction=" ++ d.word ++
      "|rank=" ++ toString rank ++ "|preempted=" ++ preempted ++ "|preempted_rank=" ++ toString preemptedRank
  | .interrupted _ stream d by_ priority => "stream=" ++ stream ++ "|direction=" ++ d.word ++ "|by=" ++ by_ ++
      "|priority=" ++ toString priority
  | .start _ stream _ word bargeIn => "stream=" ++ stream ++ "|priority=" ++ word ++ "|barge_in=" ++
      toString bargeIn
  | .stop _ stream d => "stream=" ++ stream ++ "|direction=" ++ d.word ++ "|outcome=completed"

/-- The start record of the stream. -/
def starts (x : String) : DuplexEvent → Bool
  | .start _ stream _ _ _ => stream = x
  | _ => false

/-- A terminal record of the stream: its stop or its interruption. -/
def ends (x : String) : DuplexEvent → Bool
  | .interrupted _ stream _ _ _ => stream = x
  | .stop _ stream _ => stream = x
  | _ => false

end DuplexEvent

/-! ## Identifiers -/

/-- What a fresh identifier is made of. -/
structure Mint where
  kind : String
  seed : String
  millis : Nat
  seq : Nat
  deriving DecidableEq

def Mint.preimage (m : Mint) : String :=
  m.seed ++ "|" ++ toString m.millis ++ "|" ++ toString m.seq ++ "|" ++ m.kind

/-- The first 16 digits of the digest. -/
def shortDigest (sha256Hex : String → String) (preimage : String) : String :=
  String.ofList ((sha256Hex preimage).toList.take 16)

/-- mirrors src/duplex.rs:105-117 -/
def Mint.id (sha256Hex : String → String) (m : Mint) : String :=
  m.kind ++ "-" ++ shortDigest sha256Hex m.preimage

/-! ## The registry -/

/-- A start between its two locks. -/
structure Pending where
  direction : Direction
  channel : String
  rank : Nat
  word : String

/-- The registry, the counter of identifiers and the journal; `minted` lists the identifiers made so far
and `pending` the starts under way, by thread. -/
structure World where
  registry : Dict String DuplexChannel
  seq : Nat
  journal : List DuplexEvent
  minted : List Mint
  pending : Nat → Option Pending

def World.start : World := ⟨.empty, 1, [], [], fun _ => none⟩

def World.emit (w : World) (es : List DuplexEvent) : World := { w with journal := w.journal ++ es }

variable (sha256Hex : String → String)

/-- The world after `fresh_id`, and what it made. -/
def World.mint (w : World) (kind seed : String) (millis : Nat) : Mint × World :=
  let m : Mint := ⟨kind, seed, millis, w.seq⟩
  (m, { w with seq := w.seq + 1, minted := w.minted ++ [m] })

def unknownChannel (fnName id : String) : String :=
  fnName ++ ": unknown duplex channel '" ++ id ++ "' (DUPLEX_UNKNOWN)"

/-- mirrors src/duplex.rs:182-219 -/
def World.openChannel (w : World) (session : String) (live : Bool) (priority : String) (millis : Nat) :
    Except String String × World :=
  match priorityRank priority with
  | none => (.error ("duplex_open: unknown priority '" ++ priority ++ "' (available: " ++
      String.intercalate "/" priorities ++ ") — the ladder is the session's (№348)"), w)
  | some rank =>
    if !live then
      (.error ("duplex_open: unknown session '" ++ session ++
        "' (SESSION_UNKNOWN) — login first (session_login); the channel binds a LIVE session, fail-closed"), w)
    else
      let (m, w) := w.mint "dup" session millis
      let id := m.id sha256Hex
      let w := w.emit [.opened id session priority]
      (.ok id, { w with registry := w.registry.set id ⟨id, session, rank, none, none, none, none⟩ })

/-- mirrors src/duplex.rs:243-260 -/
def resolveRank (c : DuplexChannel) : Option String → Except String (Nat × String)
  | some word =>
    match priorityRank word with
    | some rank => .ok (rank, word)
    | none => .error ("unknown priority '" ++ word ++ "' (available: " ++
        String.intercalate "/" priorities ++ ")")
  | none => .ok (c.defaultRank, priorities.getD c.defaultRank "")

/-- The consent gate and the first lock of a start.
mirrors src/duplex.rs:131-150, 266-285, 452-472 -/
def World.resolve (w : World) (direction : Direction) (channel : String) (priority : Option String)
    (consented : Bool) : Except String Pending × World :=
  if !consented then
    let e := DuplexEvent.denied channel direction
    (.error ("[AUDIO_CONSENT_REQUIRED] " ++ direction.word ++ ": channel '" ++ channel ++ "' has " ++ e.detail),
      w.emit [e])
  else match w.registry.get channel with
  | none => (.error (unknownChannel (direction.word ++ "_start") channel), w)
  | some c =>
    match resolveRank c priority with
    | .error e => (.error e, w)
    | .ok (rank, word) => (.ok ⟨direction, channel, rank, word⟩, w)

/-- The second lock of a start: the new stream, and the one it interrupted.
mirrors src/duplex.rs:286-415 -/
def World.engage (w : World) (p : Pending) (millis : Nat) : Except String (Stream × List Stream) × World :=
  let fnName := p.direction.word ++ "_start"
  match w.registry.get p.channel with
  | none => (.error (unknownChannel fnName p.channel), w)
  | some c =>
    if (c.slot p.direction).isSome then
      (.error (fnName ++ ": direction '" ++ p.direction.word ++ "' already has an active stream on channel '" ++
        c.id ++ "' (DUPLEX_BUSY) — stop it first"), w)
    else
      let opposite := c.slot p.direction.opposite
      let oppositeId := (opposite.map (·.id)).getD ""
      let oppositeRank := (opposite.map (·.rank)).getD 0
      if oppositeId ≠ "" then
        if p.rank < oppositeRank then
          (.error (fnName ++ ": " ++ p.direction.word ++ " stream rank " ++ toString p.rank ++
            " cannot preempt the active " ++ p.direction.opposite.word ++ " stream '" ++ oppositeId ++
            "' (rank " ++ toString oppositeRank ++ ") — DUPLEX_PREEMPT_DENIED; use a higher priority"), w)
        else
          let (m, w) := w.mint p.direction.word p.channel millis
          let incoming : Stream := ⟨m.id sha256Hex, p.direction, p.rank, p.word, .active⟩
          match opposite with
          | some active =>
            let ended := { active with outcome := .interruptedBy incoming.id p.rank }
            let w := w.emit [.preempt c.id incoming.id p.direction p.rank ended.id ended.rank,
              .interrupted c.id ended.id ended.direction incoming.id p.rank,
              .start c.id incoming.id p.direction incoming.priorityWord true]
            let c := (c.vacate ended p.direction.opposite).occupy incoming p.direction
            (.ok (incoming, [ended]), { w with registry := w.registry.set p.channel c })
          | none => (.error (fnName ++ ": opposite slot vanished mid-barge-in (registry invariant broken)"), w)
      else
        let (m, w) := w.mint p.direction.word p.channel millis
        let stream : Stream := ⟨m.id sha256Hex, p.direction, p.rank, p.word, .active⟩
        let w := w.emit [.start c.id stream.id p.direction stream.priorityWord false]
        (.ok (stream, []), { w with registry := w.registry.set p.channel (c.occupy stream p.direction) })

/-- mirrors src/duplex.rs:420-450 -/
def World.stop (w : World) (direction : Direction) (channel : String) : Except String Stream × World :=
  let fnName := direction.word ++ "_stop"
  match w.registry.get channel with
  | none => (.error (unknownChannel fnName channel), w)
  | some c =>
    match c.slot direction with
    | none => (.error (fnName ++ ": direction '" ++ direction.word ++ "' has no active stream on channel '" ++
        c.id ++ "' (DUPLEX_IDLE)"), w)
    | some stream =>
      let ended := { stream with outcome := .completed }
      let w := w.emit [.stop c.id ended.id ended.direction]
      (.ok ended, { w with registry := w.registry.set channel (c.vacate ended direction) })

/-! ## Runs -/

/-- A step of some thread. -/
inductive Op where
  | open (session : String) (live : Bool) (priority : String) (millis : Nat)
  | resolve (thread : Nat) (direction : Direction) (channel : String) (priority : Option String)
    (consented : Bool)
  | engage (thread millis : Nat)
  | stop (direction : Direction) (channel : String)

def World.step (w : World) : Op → World
  | .open session live priority millis => (w.openChannel sha256Hex session live priority millis).2
  | .resolve thread direction channel priority consented =>
    let (r, w) := w.resolve direction channel priority consented
    { w with pending := fun t => if t = thread then r.toOption else w.pending t }
  | .engage thread millis =>
    match w.pending thread with
    | none => w
    | some p =>
      let w := (w.engage sha256Hex p millis).2
      { w with pending := fun t => if t = thread then none else w.pending t }
  | .stop direction channel => (w.stop direction channel).2

def World.run (w : World) (ops : List Op) : World := ops.foldl (World.step sha256Hex) w

end Metalogos.Duplex
