import Metalogos.Lib.Json
import Metalogos.Lib.Text

/-!
# One MCP connection

The requests of `src/mcp_session.rs` and the replies they wait for. The server writes lines whenever it likes, a
thread puts them into a channel, and the call that waits takes them from there; it returns on the first message
that carries its id, without a look at what kind of message that is. What the server meant by a line (`Origin`) and
the number of a line are not part of the program.

A request of the server may carry any id; one that carries the id of the waiting call is returned as its result
(`ping_returned`). In a run where the call at hand never comes upon such a request, every value returned is the
result of the response to that very request, and no line is returned twice (`replies_matched`).
-/
namespace Metalogos.Mcp

open Metalogos.Lib

/-! ## Calls -/

inductive Call where
  | handshake
  | toolsList
  | toolsCall (tool : String) (arguments : Json)

def Call.phase : Call → String
  | .handshake => "handshake"
  | .toolsList => "tools/list"
  | .toolsCall _ _ => "tools/call"

/-- `version` is the version of the client.
mirrors src/mcp_session.rs:252-261, 334, 391-396 -/
def Call.request (version : String) (id : Nat) : Call → Json
  | .handshake => .obj [("jsonrpc", .str "2.0"), ("id", .int id), ("method", .str "initialize"),
      ("params", .obj [("protocolVersion", .str "2025-11-25"), ("capabilities", .obj []),
        ("clientInfo", .obj [("name", .str "metalogos"), ("version", .str version)])])]
  | .toolsList => .obj [("jsonrpc", .str "2.0"), ("id", .int id), ("method", .str "tools/list"), ("params", .obj [])]
  | .toolsCall tool arguments => .obj [("jsonrpc", .str "2.0"), ("id", .int id), ("method", .str "tools/call"),
      ("params", .obj [("name", .str tool), ("arguments", arguments)])]

/-- One round of the loop: `none` where it reads on.
mirrors src/mcp_session.rs:199-230 -/
def recvLine (parse : List Char → Except String Json) (id : Nat) (phase : String) (line : Except String String) :
    Option (Except String Json) :=
  match line with
  | .error e => some (.error ("[MCP_IO_ERROR] phase=" ++ phase ++ ": MCP server stdout stream broken: " ++ e))
  | .ok line =>
    let trimmed := trim line.toList
    if trimmed.isEmpty then none
    else
      match parse trimmed with
      | .error e => some (.error ("[MCP_PROTOCOL_ERROR] phase=" ++ phase ++
          ": MCP server stdout is not valid JSON-RPC (garbage on stdout?): " ++ e))
      | .ok msg =>
        if (msg.get "id").bind Json.asU64 = some id then
          match msg.get "error" with
          | some err =>
            let code := ((err.get "code").bind Json.asI64).getD 0
            let message := ((err.get "message").bind Json.asStr).getD ""
            some (.error ("[MCP_PROTOCOL_ERROR] phase=" ++ phase ++ ": MCP server returned JSON-RPC error " ++
              toString code ++ ": " ++ message))
          | none => some (.ok ((msg.get "result").getD .null))
        else none

/-! ## The connection -/

/-- What the server meant by a line. -/
inductive Origin where
  | response (id : Nat) (result : Json)
  | failure (id : Nat) (err : Json)
  | notification (method : String)
  | request (id : Json) (method : String)
  | noise

/-- The request that a line answers. -/
def Origin.answers : Origin → Option Nat
  | .response id _ => some id
  | .failure id _ => some id
  | _ => none

structure Line where
  text : Except String String
  origin : Origin
  number : Nat

/-- A call that has ended, with the line that ended it if one did. -/
structure Return where
  id : Nat
  call : Call
  line : Option Line
  outcome : Except String Json

structure World where
  nextId : Nat
  waiting : Option (Nat × Call)
  sent : List Json
  channel : List Line
  ended : Bool
  arrived : Nat
  returned : List Return

def World.start : World := ⟨1, none, [], [], false, 0, []⟩

inductive Event where
  /-- A call begins; the request is written, or writing fails. -/
  | call (c : Call) (failed : Option String)
  | arrive (text : Except String String) (origin : Origin)
  | hangup
  /-- The waiting call looks at the channel. -/
  | take
  | expire

section

variable (parse : List Char → Except String Json) (version : String) (secs : Nat)

def World.finish (w : World) (id : Nat) (c : Call) (line : Option Line) (outcome : Except String Json) : World :=
  { w with waiting := none, returned := w.returned ++ [⟨id, c, line, outcome⟩] }

/-- mirrors src/mcp_session.rs:134-145, 152-178, 187-245 -/
def World.step (w : World) : Event → World
  | .call c failed =>
    if w.waiting.isSome then w
    else
      let id := w.nextId
      let w := { w with nextId := id + 1 }
      match failed with
      | some e => w.finish id c none (.error ("[MCP_IO_ERROR] phase=" ++ c.phase ++
          ": cannot write to MCP server stdin (server died?): " ++ e))
      | none => { w with waiting := some (id, c), sent := w.sent ++ [c.request version id] }
  | .arrive text origin =>
    if w.ended then w else { w with channel := w.channel ++ [⟨text, origin, w.arrived⟩], arrived := w.arrived + 1 }
  | .hangup => { w with ended := true }
  | .take =>
    match w.waiting, w.channel with
    | some (id, c), line :: rest =>
      let w := { w with channel := rest }
      match recvLine parse id c.phase line.text with
      | none => w
      | some outcome => w.finish id c (some line) outcome
    | some (id, c), [] =>
      if w.ended then w.finish id c none (.error ("[MCP_IO_ERROR] phase=" ++ c.phase ++
        ": MCP server closed stdout before responding (crashed?)"))
      else w
    | none, _ => w
  | .expire =>
    match w.waiting with
    | some (id, c) => w.finish id c none (.error ("[MCP_TIMEOUT] phase=" ++ c.phase ++ ": no response within " ++
        toString secs ++ "s"))
    | none => w

def World.run (w : World) (events : List Event) : World := events.foldl (World.step parse version secs) w

/-! ## The server -/

/-- The text is a message with these members. -/
def Writes (text : Except String String) (P : Json → Prop) : Prop :=
  ∃ s msg, text = .ok s ∧ parse (trim s.toList) = .ok msg ∧ (trim s.toList).isEmpty = false ∧ P msg

/-- The text says what the server meant. -/
def Says (text : Except String String) : Origin → Prop
  | .response id result => Writes parse text fun msg =>
    msg.get "id" = some (.int id) ∧ msg.get "result" = some result ∧ msg.get "error" = none ∧ msg.get "method" = none
  | .failure id err => Writes parse text fun msg =>
    msg.get "id" = some (.int id) ∧ msg.get "error" = some err ∧ msg.get "result" = none ∧ msg.get "method" = none
  | .notification method => Writes parse text fun msg =>
    msg.get "id" = none ∧ msg.get "method" = some (.str method)
  | .request id method => Writes parse text fun msg =>
    msg.get "id" = some id ∧ msg.get "method" = some (.str method) ∧ msg.get "error" = none ∧ msg.get "result" = none
  | .noise => ∀ s, text = .ok s → (trim s.toList).isEmpty = true ∨ ∃ e, parse (trim s.toList) = .error e

/-- The server answers requests that were made, and its lines say what it means. -/
def ServerStep (w : World) : Event → Prop
  | .arrive text origin =>
    Says parse text origin ∧ ∀ id : Nat, origin.answers = some id → ∃ msg ∈ w.sent, msg.get "id" = some (.int id)
  | _ => True

def Serves : World → List Event → Prop
  | _, [] => True
  | w, e :: es => ServerStep parse w e ∧ Serves (w.step parse version secs e) es

/-- The waiting call does not come upon a request of the server that has its id. -/
def TakesNoRequest (w : World) : Event → Prop
  | .take => ∀ id c line rest rid method, w.waiting = some (id, c) → w.channel = line :: rest →
    line.origin = .request rid method → rid.asU64 ≠ some id
  | _ => True

def NeverTakesRequest : World → List Event → Prop
  | _, [] => True
  | w, e :: es => TakesNoRequest w e ∧ NeverTakesRequest (w.step parse version secs e) es

end

/-! ## One line -/

section

variable {parse : List Char → Except String Json} {version : String} {secs : Nat}

theorem recvLine_message {text : Except String String} {P : Json → Prop} {id : Nat} {phase : String}
    {outcome : Except String Json} (h : Writes parse text P) (hr : recvLine parse id phase text = some outcome) :
    ∃ msg, P msg ∧ (msg.get "id").bind Json.asU64 = some id ∧
      (msg.get "error" = none → outcome = .ok ((msg.get "result").getD .null)) ∧
      ∀ v, outcome = .ok v → msg.get "error" = none := by
  obtain ⟨s, msg, rfl, hparse, hne, hmsg⟩ := h
  unfold recvLine at hr
  simp only [hne, hparse] at hr
  refine ⟨msg, hmsg, ?_⟩
  by_cases hid : (msg.get "id").bind Json.asU64 = some id
  · rw [if_neg Bool.false_ne_true, if_pos hid] at hr
    cases herr : msg.get "error" with
    | none =>
      rw [herr] at hr
      cases hr
      exact ⟨hid, fun _ => rfl, fun _ _ => rfl⟩
    | some err =>
      rw [herr] at hr
      cases hr
      exact ⟨hid, fun h => (nomatch h), fun _ h => (nomatch h)⟩
  · rw [if_neg Bool.false_ne_true, if_neg hid] at hr
    cases hr

theorem recvLine_of_message {text : Except String String} {P : Json → Prop} {id : Nat} {phase : String}
    (h : Writes parse text P) (hP : ∀ msg, P msg → (msg.get "id").bind Json.asU64 = some id ∧ msg.get "error" = none) :
    ∃ v, recvLine parse id phase text = some (.ok v) := by
  obtain ⟨s, msg, rfl, hparse, hne, hmsg⟩ := h
  obtain ⟨hid, herr⟩ := hP msg hmsg
  refine ⟨(msg.get "result").getD .null, ?_⟩
  unfold recvLine
  simp only [hne, hparse, Bool.false_eq_true, if_false]
  rw [if_pos hid, herr]

/-- What a line returns to the call is the result of the response to it, exactly when the line is no request with
its id. -/
theorem recvLine_matched_iff {text : Except String String} {origin : Origin} {id : Nat} {phase : String}
    (h : Says parse text origin) :
    (∀ v, recvLine parse id phase text = some (.ok v) → origin = .response id v) ↔
      ∀ rid method, origin = .request rid method → rid.asU64 ≠ some id := by
  constructor
  · rintro hmatched rid method rfl hrid
    obtain ⟨v, hv⟩ : ∃ v, recvLine parse id phase text = some (.ok v) := recvLine_of_message h fun msg hmsg =>
      ⟨by rw [hmsg.1]; exact hrid, hmsg.2.2.1⟩
    cases hmatched v hv
  · intro hreq v hv
    cases origin with
    | response k result =>
      obtain ⟨msg, ⟨hid, hresult, herr, -⟩, hmatch, hok, -⟩ := recvLine_message h hv
      rw [hid] at hmatch
      obtain rfl := Json.asU64_int hmatch
      have hv := hok herr
      rw [hresult] at hv
      rw [Except.ok.inj hv]
      rfl
    | failure k err =>
      obtain ⟨msg, ⟨-, herr, -⟩, -, -, hok⟩ := recvLine_message h hv
      rw [hok v rfl] at herr
      cases herr
    | notification method =>
      obtain ⟨msg, ⟨hid, -⟩, hmatch, -⟩ := recvLine_message h hv
      rw [hid] at hmatch
      exact absurd hmatch (Option.some_ne_none id).symm
    | request rid method =>
      obtain ⟨msg, ⟨hid, -⟩, hmatch, -⟩ := recvLine_message h hv
      rw [hid] at hmatch
      exact absurd hmatch (hreq rid method rfl)
    | noise =>
      unfold recvLine at hv
      split at hv
      · cases hv
      · rename_i s
        rcases h s rfl with hempty | ⟨e, hparse⟩
        · simp [hempty] at hv
        · by_cases hempty : (trim s.toList).isEmpty = true
          · simp [hempty] at hv
          · simp [hempty, hparse] at hv

/-! ## Runs -/

def World.numbers (w : World) : List Nat :=
  w.returned.filterMap (fun r => r.line.map (·.number)) ++ w.channel.map (·.number)

/-- The value is the result of the response to the call's request. -/
def Return.Matched (r : Return) : Prop :=
  ∀ v, r.outcome = .ok v → ∃ line, r.line = some line ∧ line.origin = .response r.id v

/-- Every line has its own number. -/
structure Numbered (w : World) : Prop where
  fresh : ∀ n ∈ w.numbers, n < w.arrived
  nodup : w.numbers.Nodup

/-- What a step does to the connection: a line arrives, a line is taken, or neither. -/
inductive Moves (parse : List Char → Except String Json) (w : World) : Event → World → Prop
  | kept {w' : World} {e : Event} (hchannel : w'.channel = w.channel) (harrived : w'.arrived = w.arrived)
      (hreturned : w'.returned = w.returned ∨
        ∃ id c e, w'.returned = w.returned ++ [⟨id, c, none, .error e⟩]) : Moves parse w e w'
  | arrives {w' : World} {text : Except String String} {origin : Origin}
      (hchannel : w'.channel = w.channel ++ [⟨text, origin, w.arrived⟩]) (harrived : w'.arrived = w.arrived + 1)
      (hreturned : w'.returned = w.returned) : Moves parse w (.arrive text origin) w'
  | skips {w' : World} {line : Line} (hchannel : w.channel = line :: w'.channel) (harrived : w'.arrived = w.arrived)
      (hreturned : w'.returned = w.returned) : Moves parse w .take w'
  | returns {w' : World} {line : Line} {id : Nat} {c : Call} {outcome : Except String Json}
      (hwaiting : w.waiting = some (id, c)) (hchannel : w.channel = line :: w'.channel)
      (harrived : w'.arrived = w.arrived) (hline : recvLine parse id c.phase line.text = some outcome)
      (hreturned : w'.returned = w.returned ++ [⟨id, c, some line, outcome⟩]) : Moves parse w .take w'

theorem step_moves (w : World) (e : Event) : Moves parse w e (w.step parse version secs e) := by
  cases e with
  | call c failed =>
    unfold World.step
    dsimp only
    split
    · exact .kept rfl rfl (.inl rfl)
    · split
      · exact .kept rfl rfl (.inr ⟨_, _, _, rfl⟩)
      · exact .kept rfl rfl (.inl rfl)
  | arrive text origin =>
    unfold World.step
    dsimp only
    split
    · exact .kept rfl rfl (.inl rfl)
    · exact .arrives rfl rfl rfl
  | hangup => exact .kept rfl rfl (.inl rfl)
  | take =>
    unfold World.step
    dsimp only
    split
    · rename_i id c line rest hwaiting hchannel
      split
      · exact .skips hchannel rfl rfl
      · rename_i outcome hline
        exact .returns hwaiting hchannel rfl hline rfl
    · split
      · exact .kept rfl rfl (.inr ⟨_, _, _, rfl⟩)
      · exact .kept rfl rfl (.inl rfl)
    · exact .kept rfl rfl (.inl rfl)
  | expire =>
    unfold World.step
    dsimp only
    split
    · exact .kept rfl rfl (.inr ⟨_, _, _, rfl⟩)
    · exact .kept rfl rfl (.inl rfl)

theorem Numbered.step {w w' : World} {e : Event} (h : Numbered w) (hm : Moves parse w e w') : Numbered w' := by
  cases hm with
  | kept hchannel harrived hreturned =>
    have hnumbers : w'.numbers = w.numbers := by
      unfold World.numbers
      rcases hreturned with hreturned | ⟨id, c, e, hreturned⟩ <;> simp [hchannel, hreturned]
    exact ⟨by rw [hnumbers, harrived]; exact h.fresh, hnumbers ▸ h.nodup⟩
  | arrives hchannel harrived hreturned =>
    have hnumbers : w'.numbers = w.numbers ++ [w.arrived] := by simp [World.numbers, hchannel, hreturned]
    have hnew : w.arrived ∉ w.numbers := fun hmem => Nat.lt_irrefl _ (h.fresh _ hmem)
    constructor
    · rw [hnumbers, harrived]
      intro n hn
      rcases List.mem_append.1 hn with hn | hn
      · exact Nat.lt_succ_of_lt (h.fresh n hn)
      · exact List.mem_singleton.1 hn ▸ Nat.lt_succ_self _
    · rw [hnumbers]
      refine List.nodup_append.2 ⟨h.nodup, by simp, ?_⟩
      rintro a ha b hb rfl
      exact hnew (List.mem_singleton.1 hb ▸ ha)
  | skips hchannel harrived hreturned =>
    have hsub : w'.numbers.Sublist w.numbers := by
      unfold World.numbers
      rw [hreturned, hchannel, List.map_cons]
      exact (List.sublist_cons_self _ _).append_left _
    exact ⟨fun n hn => harrived ▸ h.fresh n (hsub.subset hn), h.nodup.sublist hsub⟩
  | returns hwaiting hchannel harrived hline hreturned =>
    have hnumbers : w'.numbers = w.numbers := by simp [World.numbers, hchannel, hreturned]
    exact ⟨by rw [hnumbers, harrived]; exact h.fresh, hnumbers ▸ h.nodup⟩

/-- The lines in flight say what the server meant, and what was returned is matched. -/
structure Orderly (parse : List Char → Except String Json) (w : World) : Prop where
  meant : ∀ line ∈ w.channel, Says parse line.text line.origin
  matched : ∀ r ∈ w.returned, r.Matched

theorem Orderly.step {w w' : World} {e : Event} (h : Orderly parse w) (hm : Moves parse w e w')
    (hserver : ServerStep parse w e) (htakes : TakesNoRequest w e) : Orderly parse w' := by
  cases hm with
  | kept hchannel harrived hreturned =>
    refine ⟨hchannel ▸ h.meant, ?_⟩
    rcases hreturned with hreturned | ⟨id, c, e, hreturned⟩
    · exact hreturned ▸ h.matched
    · rw [hreturned]
      intro r hr
      rcases List.mem_append.1 hr with hr | hr
      · exact h.matched r hr
      · obtain rfl := List.mem_singleton.1 hr
        exact fun v hv => (nomatch hv)
  | arrives hchannel harrived hreturned =>
    refine ⟨?_, hreturned ▸ h.matched⟩
    rw [hchannel]
    intro line hline
    rcases List.mem_append.1 hline with hline | hline
    · exact h.meant line hline
    · obtain rfl := List.mem_singleton.1 hline
      exact hserver.1
  | skips hchannel harrived hreturned =>
    exact ⟨fun line hline => h.meant line (hchannel ▸ List.mem_cons_of_mem _ hline), hreturned ▸ h.matched⟩
  | @returns _ line id c outcome hwaiting hchannel harrived hline hreturned =>
    refine ⟨fun l hl => h.meant l (hchannel ▸ List.mem_cons_of_mem _ hl), ?_⟩
    rw [hreturned]
    intro r hr
    rcases List.mem_append.1 hr with hr | hr
    · exact h.matched r hr
    · obtain rfl := List.mem_singleton.1 hr
      have hmeant := h.meant line (by simp [hchannel])
      intro v hv
      refine ⟨line, rfl, (recvLine_matched_iff hmeant).2 (fun rid method horigin => ?_) v (hline.trans (congrArg some hv))⟩
      exact htakes id c line _ rid method hwaiting hchannel horigin

theorem numbered_run {w : World} {events : List Event} (h : Numbered w) :
    Numbered (w.run parse version secs events) := by
  induction events generalizing w with
  | nil => exact h
  | cons e events ih => exact ih (h.step (step_moves w e : Moves parse w e _))

theorem orderly_run {w : World} {events : List Event} (h : Orderly parse w)
    (hserver : Serves parse version secs w events) (htakes : NeverTakesRequest parse version secs w events) :
    Orderly parse (w.run parse version secs events) := by
  induction events generalizing w with
  | nil => exact h
  | cons e events ih => exact ih (h.step (step_moves w e) hserver.1 htakes.1) hserver.2 htakes.2

theorem numbered_start : Numbered .start := ⟨fun _ hn => (nomatch hn), List.nodup_nil⟩

theorem orderly_start : Orderly parse .start := ⟨fun _ hl => (nomatch hl), fun _ hr => (nomatch hr)⟩

/-- Where no waiting call comes upon a request with its id, a value returned is the result of the response to the
call's own request, and no line is returned to two calls. -/
theorem replies_matched {events : List Event} (hserver : Serves parse version secs .start events)
    (htakes : NeverTakesRequest parse version secs .start events) :
    (∀ r ∈ (World.start.run parse version secs events).returned, r.Matched) ∧
      ((World.start.run parse version secs events).returned.filterMap fun r => r.line.map (·.number)).Nodup :=
  ⟨(orderly_run orderly_start hserver htakes).matched,
    ((numbered_run numbered_start).nodup.sublist (List.sublist_append_left _ _))⟩

end

/-! ## Two runs -/

namespace Sample

def pingText : String := "\x7b\"jsonrpc\":\"2.0\",\"id\":1,\"method\":\"ping\"\x7d"

def ping : Json := .obj [("jsonrpc", .str "2.0"), ("id", .int 1), ("method", .str "ping")]

def replyText : String := "\x7b\"jsonrpc\":\"2.0\",\"id\":1,\"result\":true\x7d"

def reply : Json := .obj [("jsonrpc", .str "2.0"), ("id", .int 1), ("result", .bool true)]

/-- The parser on the two texts that occur. -/
def parse (s : List Char) : Except String Json :=
  if s = pingText.toList then .ok ping
  else if s = replyText.toList then .ok reply
  else .error "expected value at line 1 column 1"

theorem parse_ping : parse (trim pingText.toList) = .ok ping := by
  have htrim : trim pingText.toList = pingText.toList := by decide +kernel
  rw [htrim]
  exact if_pos rfl

theorem parse_reply : parse (trim replyText.toList) = .ok reply := by
  have htrim : trim replyText.toList = replyText.toList := by decide +kernel
  have hne : replyText.toList ≠ pingText.toList := by decide +kernel
  rw [htrim]
  exact (if_neg hne).trans (if_pos rfl)

def answered : List Event := [.call .toolsList none, .arrive (.ok replyText) (.response 1 (.bool true)), .take]

def pinged : List Event := [.call .toolsList none, .arrive (.ok pingText) (.request (.int 1) "ping"), .take]

end Sample

theorem replies_matched_answered :
    (∀ r ∈ (World.start.run Sample.parse "0.9.0" 30 Sample.answered).returned, r.Matched) ∧
      ((World.start.run Sample.parse "0.9.0" 30 Sample.answered).returned.filterMap fun r =>
        r.line.map (·.number)).Nodup := by
  refine replies_matched ?_ ?_
  · refine ⟨trivial, ⟨⟨Sample.replyText, Sample.reply, rfl, Sample.parse_reply, by decide +kernel, ?_⟩, ?_⟩, trivial,
      trivial⟩
    · exact ⟨rfl, rfl, rfl, rfl⟩
    · intro id hid
      cases hid
      exact ⟨_, List.mem_singleton_self _, rfl⟩
  · refine ⟨trivial, trivial, ?_, trivial⟩
    intro id c line rest rid method hwaiting hchannel horigin
    cases hchannel
    cases horigin

/-- The server asks for a sign of life under the id of the call, and the call returns `null`. -/
theorem ping_returned :
    Serves Sample.parse "0.9.0" 30 .start Sample.pinged ∧
      ∃ r ∈ (World.start.run Sample.parse "0.9.0" 30 Sample.pinged).returned, r.outcome = .ok .null ∧ ¬ r.Matched := by
  have hempty : (trim Sample.pingText.toList).isEmpty = false := by decide +kernel
  have hline : recvLine Sample.parse 1 "tools/list" (.ok Sample.pingText) = some (.ok .null) := by
    unfold recvLine
    simp only [hempty, Sample.parse_ping, Bool.false_eq_true, if_false]
    rfl
  constructor
  · refine ⟨trivial, ⟨⟨Sample.pingText, Sample.ping, rfl, Sample.parse_ping, hempty, rfl, rfl, rfl, rfl⟩, ?_⟩, trivial,
      trivial⟩
    exact fun id hid => (nomatch hid)
  · refine ⟨⟨1, .toolsList, some ⟨.ok Sample.pingText, .request (.int 1) "ping", 0⟩, .ok .null⟩, ?_, rfl, ?_⟩
    · simp [World.run, Sample.pinged, World.step, World.start, World.finish, Call.phase, hline]
    · intro hmatched
      obtain ⟨line, hsome, horigin⟩ := hmatched .null rfl
      cases hsome
      cases horigin

end Metalogos.Mcp
