import Metalogos.Approval.Mandate
import Metalogos.Grants.Granted
import Metalogos.Lib.TopK

/-!
# The capability gate

`authorize_call` of `src/capability.rs` with `authorize_overseen_call` behind it: the decision before a builtin runs. A
carrier that needs a permit gets it from the roster of its program, from a flag of its host or from the baseline; else
an active grant that covers it pays with one use. The gate looks the grant up and uses it in two steps, each under the
lock of the ledger, and asks for a mandate in a third.

Any number of dispatches and of other calls on grants and mandates run at the same time (`Gates`): an interleaving is
a list of events. `gate_sound` is what stands before a builtin that ran; `gate_quota` is that each use in the ledger was
asked for by name or pays for one dispatch that was not refused, and that the quotas hold over both.
-/
namespace Metalogos.Gate

open Metalogos.Grants

/-! ## Carriers -/

/-- The builtins whose class is `Irreversible`.
mirrors src/builtins_classification.rs:117-122 -/
def irreversible : List String :=
  ["db_insert", "print", "delete_file", "exec", "exec_argv", "git_push", "respond", "respond_html",
    "respond_html_status", "respond_html_doc", "http_post", "http_post_multipart", "session_clear", "send_message",
    "send_photo", "answer_callback_query", "tts_send", "db_execute", "kv_delete", "mem_delete", "memory_export",
    "memory_forget_cascade", "forget", "sleep", "memory_prune", "mtree_forget", "cron_remove", "cron_run",
    "ask_approval", "human_delete", "human_forget", "human_respond", "send_document", "smtp_send", "smtp_send_html",
    "cal_create", "cal_delete", "card_create", "card_delete", "memory_forget", "ledger_rotate", "ledger_snapshot",
    "voice_delete"]

/-- mirrors src/capability.rs:167-167 -/
def grantAlways : List String := ["memory_forget_cascade", "forget"]

/-- mirrors src/capability.rs:173-186 -/
def profilePermitSharp : List String :=
  ["exec", "exec_argv", "delete_file", "git_push", "http_post", "http_post_multipart", "send_message", "send_photo",
    "send_document", "smtp_send", "smtp_send_html", "tts_send"]

/-- mirrors src/capability.rs:195-225 -/
def baselineStandard : List String :=
  ["print", "respond", "respond_html", "respond_html_status", "respond_html_doc", "human_respond", "ask_approval",
    "answer_callback_query", "sleep", "db_insert", "db_execute", "kv_delete", "mem_delete", "session_clear",
    "memory_export", "memory_prune", "memory_forget", "mtree_forget", "voice_delete", "human_delete", "human_forget",
    "cron_remove", "cron_run", "cal_create", "cal_delete", "card_create", "card_delete", "ledger_rotate",
    "ledger_snapshot"]

/-- mirrors src/capability.rs:156-163 -/
inductive Disposition where
  | grantAlways
  | profilePermit
  deriving DecidableEq

/-- mirrors src/capability.rs:230-244 -/
def disposition (name : String) : Option Disposition :=
  if !irreversible.contains name then none
  else if grantAlways.contains name then some .grantAlways
  else if profilePermitSharp.contains name then some .profilePermit
  else some .profilePermit

/-- mirrors src/builtins/io.rs:879-884 -/
inductive ExecContext where
  | process
  | serveRoute
  deriving DecidableEq

/-- A call of a builtin, with the roster of its program and the environment of its host. -/
structure Dispatch where
  name : String
  permits : List String
  context : ExecContext
  env : String → Option String

/-- mirrors src/capability.rs:340-358 -/
def hostPermitted (d : Dispatch) : Bool :=
  if d.name ≠ "exec" ∧ d.name ≠ "exec_argv" then false
  else
    match d.context with
    | .serveRoute => d.env "METALOGOS_SERVE_ALLOW_EXEC" = some "1"
    | .process => d.env "METALOGOS_ALLOW_EXEC" = some "1"

/-- mirrors src/capability.rs:364-385 -/
def refusal (d : Dispatch) : String :=
  let hostNote :=
    if d.name = "exec" ∨ d.name = "exec_argv" then
      match d.context with
      | .serveRoute => ", or the named host permit (METALOGOS_SERVE_ALLOW_EXEC=1 — the " ++
          "process-level METALOGOS_ALLOW_EXEC does NOT apply to route bodies, №253)"
      | .process => ", or the named host permit (METALOGOS_ALLOW_EXEC=1)"
    else ""
  "IRREVERSIBLE_NO_GRANT: capability gate: '" ++ d.name ++ "' is an irreversible carrier — no covering " ++
    "capability grant (issue one with scope \"builtin:" ++ d.name ++ "\" or wider), no 'profile capability " ++
    "\x7b allow_carrier: \"" ++ d.name ++ "\" \x7d' permit" ++ hostNote ++ "; the refusal is BEFORE the action " ++
    "(ADR-0203 §2.4, №845 — fail-closed, the profile cannot weaken the GrantAlways classes)"

/-- The gate lets the call through without a grant.
mirrors src/capability.rs:408-428 -/
def Dispatch.free (d : Dispatch) : Bool :=
  disposition d.name ≠ some .profilePermit ∨ d.permits.contains d.name ∨ hostPermitted d ∨
    baselineStandard.contains d.name

def actionScope (name : String) : String := "builtin:" ++ name

/-! ## The covering grant -/

/-- A query without `ORDER BY` gives its rows in any order. -/
abbrev ScanOrder := Lib.Listing (GrantId × GrantRow)

def activeRows (rows : Rows) : List (GrantId × GrantRow) :=
  (rows.select fun _ r => r.state = .active).filterMap fun id => (rows.get id).map fun r => (id, r)

/-- mirrors src/grants.rs:650-661 -/
def usable (scope : String) (now : Nat) (r : GrantRow) : Bool :=
  now < toU64 r.expiresAt && scopeAttenuates r.scope scope &&
    (.fromLedgerStr r.cls = GrantClass.unlimited || 0 < r.remaining)

/-- mirrors src/grants.rs:663-666 -/
def better (power : Nat) (id : GrantId) : Option (Nat × GrantHandle) → Bool
  | none => true
  | some (p, best) => power > p || (power = p && id.text < best.grantId.text)

def handleOf (x : GrantId × GrantRow) : GrantHandle :=
  ⟨x.1, x.2.scope, .fromLedgerStr x.2.cls, toU64 x.2.expiresAt, "program"⟩

/-- The row `x.2` of the scan; the clock is read for each row.
mirrors src/grants.rs:647-680 -/
def pick (scope : String) (t : Clock) (best : Option (Nat × GrantHandle)) (x : (GrantId × GrantRow) × Nat) :
    Option (Nat × GrantHandle) :=
  let power := (handleOf x.1).cls.power
  if usable scope (t x.2) x.1.2 && better power x.1.1 best then some (power, handleOf x.1) else best

/-- mirrors src/grants.rs:626-687 -/
def lookupActiveCovering (o : ScanOrder) (t : Clock) (rows : Rows) (scope : String) : Option GrantHandle :=
  ((o.list (activeRows rows)).zipIdx.foldl (pick scope t) none).map (·.2)

/-! ## Dispatches at work -/

/-- How far a dispatch has come. -/
inductive Stage where
  | start (d : Dispatch)
  | looked (d : Dispatch) (h : GrantHandle)
  | cleared (d : Dispatch) (paid : Option GrantId)
  | authorized (d : Dispatch) (paid : Option GrantId)
  | ran (d : Dispatch) (paid : Option GrantId)
  | refused (d : Dispatch) (e : String)

def Stage.dispatch : Stage → Dispatch
  | .start d => d
  | .looked d _ => d
  | .cleared d _ => d
  | .authorized d _ => d
  | .ran d _ => d
  | .refused d _ => d

/-- The grant one use of which the dispatch holds. -/
def Stage.paid : Stage → Option GrantId
  | .cleared _ paid => paid
  | .authorized _ paid => paid
  | .ran _ paid => paid
  | _ => none

structure Gates where
  ledger : GrantLedger
  mandates : Approval.MandateStore
  stages : List Stage

def Gates.start (ds : List Dispatch) : Gates := ⟨.empty, [], ds.map .start⟩

def Gates.moveTo (v : Gates) (i : Nat) (s : Stage) : Gates := { v with stages := v.stages.set i s }

inductive Event where
  | look (i : Nat) (o : ScanOrder) (t : Clock)
  | consume (i : Nat) (t : Clock)
  | oversee (i : Nat) (lock : Option String) (now : UInt64)
  | execute (i : Nat)
  | grant (c : Call)
  | mandate (c : Approval.Call)

/-- mirrors src/capability.rs:407-437 -/
def lookStage (o : ScanOrder) (t : Clock) (rows : Rows) (d : Dispatch) : Stage :=
  if d.free then .cleared d none
  else
    match lookupActiveCovering o t rows (actionScope d.name) with
    | some h => .looked d h
    | none => .refused d (refusal d)

/-- mirrors src/capability.rs:437-444 -/
def Gates.consume (v : Gates) (i : Nat) (t : Clock) (d : Dispatch) (h : GrantHandle) : Gates :=
  match grantUse v.ledger t h with
  | (.ok _, l) => { v.moveTo i (.cleared d (some h.grantId)) with ledger := l }
  | (.error _, l) => { v.moveTo i (.refused d (refusal d)) with ledger := l }

section

variable (sha256Hex : String → String)

/-- mirrors src/capability.rs:398-405 -/
def overseeStage (lock : Option String) (now : UInt64) (mandates : Approval.MandateStore) (d : Dispatch)
    (paid : Option GrantId) : Stage :=
  match Approval.authorizeOverseenCall sha256Hex lock now d.name mandates with
  | .ok _ => .authorized d paid
  | .error e => .refused d e

/-- An event of a dispatch that stands elsewhere does nothing. -/
def Gates.step (v : Gates) : Event → Gates
  | .look i o t =>
    match v.stages[i]? with
    | some (.start d) => v.moveTo i (lookStage o t v.ledger.rows d)
    | _ => v
  | .consume i t =>
    match v.stages[i]? with
    | some (.looked d h) => v.consume i t d h
    | _ => v
  | .oversee i lock now =>
    match v.stages[i]? with
    | some (.cleared d paid) => v.moveTo i (overseeStage sha256Hex lock now v.mandates d paid)
    | _ => v
  | .execute i =>
    match v.stages[i]? with
    | some (.authorized d paid) => v.moveTo i (.ran d paid)
    | _ => v
  | .grant c => { v with ledger := Grants.step v.ledger c }
  | .mandate c => { v with mandates := c.exec sha256Hex v.mandates }

def Gates.run (v : Gates) (es : List Event) : Gates := es.foldl (Gates.step sha256Hex) v

/-- The calls on the ledger, those of the gate among them. -/
def Gates.calls (v : Gates) : Event → List Call
  | .consume i t =>
    match v.stages[i]? with
    | some (.looked _ h) => [.use t [.grant h]]
    | _ => []
  | .grant c => [c]
  | _ => []

def ledgerCalls (v : Gates) : List Event → List Call
  | [] => []
  | e :: es => v.calls e ++ ledgerCalls (v.step sha256Hex e) es

/-- The uses asked for by name. -/
def Gates.asked (v : Gates) : Event → List GrantId
  | .grant c => (usedBy v.ledger c).toList
  | _ => []

def explicitUses (v : Gates) : List Event → List GrantId
  | [] => []
  | e :: es => v.asked e ++ explicitUses (v.step sha256Hex e) es

end

/-- The uses that dispatches hold. -/
def Gates.payments (v : Gates) : List GrantId := v.stages.filterMap Stage.paid

/-! ## What a lookup finds -/

/-- The grant is in the ledger and its scope covers the builtin. -/
def Covers (rows : Rows) (g : GrantId) (name : String) : Prop :=
  ∃ desc, descOf rows g = some desc ∧ scopeAttenuates desc.scope (actionScope name) = true

/-- The best pick among the rows that were seen, at `now`. -/
structure Strongest (scope : String) (now : Nat) (seen : List (GrantId × GrantRow)) (best : Option (Nat × GrantHandle)) :
    Prop where
  found : ∀ b ∈ best, ∃ x ∈ seen, usable scope now x.2 = true ∧ b = ((handleOf x).cls.power, handleOf x)
  beaten : ∀ x ∈ seen, usable scope now x.2 = true → ∃ b ∈ best, better (handleOf x).cls.power x.1 (some b) = false

theorem better_self (x : GrantId × GrantRow) :
    better (handleOf x).cls.power x.1 (some ((handleOf x).cls.power, handleOf x)) = false := by
  simp [better, handleOf]

/-- What does not beat the old pick does not beat the one that does. -/
theorem better_trans {p : Nat} {id : GrantId} {b : Nat × GrantHandle} {y : GrantId × GrantRow}
    (hx : better p id (some b) = false) (hy : better (handleOf y).cls.power y.1 (some b) = true) :
    better p id (some ((handleOf y).cls.power, handleOf y)) = false := by
  simp only [better, Bool.or_eq_false_iff, decide_eq_false_iff_not, Bool.and_eq_false_iff, Bool.or_eq_true,
    Bool.and_eq_true, decide_eq_true_eq] at hx hy ⊢
  obtain ⟨hle, hid⟩ := hx
  refine ⟨by omega, ?_⟩
  rcases hy with hlt | ⟨heq, hlt⟩
  · exact .inl (by omega)
  · rcases hid with hne | hid
    · exact .inl (by omega)
    · exact .inr fun hbefore => hid (String.lt_trans hbefore hlt)

theorem Strongest.pick {scope : String} {t : Clock} {now : Nat} (ht : ∀ i, t i = now)
    {seen : List (GrantId × GrantRow)} {best : Option (Nat × GrantHandle)} (h : Strongest scope now seen best)
    (x : (GrantId × GrantRow) × Nat) : Strongest scope now (seen ++ [x.1]) (Gate.pick scope t best x) := by
  have hlast : x.1 ∈ seen ++ [x.1] := List.mem_append_right _ List.mem_cons_self
  unfold Gate.pick
  rw [ht]
  by_cases hpick : (usable scope now x.1.2 && better (handleOf x.1).cls.power x.1.1 best) = true
  · simp only [if_pos hpick]
    rw [Bool.and_eq_true] at hpick
    refine ⟨fun b hb => ?_, fun y hy husable => ⟨_, rfl, ?_⟩⟩
    · exact ⟨x.1, hlast, hpick.1, (Option.mem_some_iff.1 hb).symm⟩
    · rcases List.mem_append.1 hy with hy | hy
      · obtain ⟨b, hb, hbeaten⟩ := h.beaten y hy husable
        rw [Option.mem_def.1 hb] at hpick
        exact better_trans hbeaten hpick.2
      · rw [List.mem_singleton.1 hy]
        exact better_self x.1
  · simp only [if_neg hpick]
    refine ⟨fun b hb => ?_, fun y hy husable => ?_⟩
    · obtain ⟨y, hy, hfound⟩ := h.found b hb
      exact ⟨y, List.mem_append_left _ hy, hfound⟩
    · rcases List.mem_append.1 hy with hy | hy
      · exact h.beaten y hy husable
      · obtain rfl := List.mem_singleton.1 hy
        rw [husable, Bool.true_and, Bool.not_eq_true] at hpick
        cases best with
        | none => cases hpick
        | some b => exact ⟨b, rfl, hpick⟩

theorem Strongest.foldl {scope : String} {t : Clock} {now : Nat} (ht : ∀ i, t i = now)
    (l : List ((GrantId × GrantRow) × Nat)) {seen : List (GrantId × GrantRow)} {best : Option (Nat × GrantHandle)}
    (h : Strongest scope now seen best) :
    Strongest scope now (seen ++ l.map Prod.fst) (l.foldl (Gate.pick scope t) best) := by
  induction l generalizing seen best with
  | nil => rwa [List.map_nil, List.append_nil]
  | cons x l ih =>
    rw [List.map_cons, List.append_cons]
    exact ih (h.pick ht x)

theorem mem_activeRows {rows : Rows} {id : GrantId} {r : GrantRow} :
    (id, r) ∈ activeRows rows ↔ rows.get id = some r ∧ r.state = .active := by
  rw [activeRows, List.mem_filterMap]
  constructor
  · rintro ⟨id', hid, hx⟩
    obtain ⟨r', hr, hactive⟩ := (rows.mem_select id').1 hid
    rw [hr, Option.map_some, Option.some.injEq, Prod.mk.injEq] at hx
    obtain ⟨rfl, rfl⟩ := hx
    exact ⟨hr, of_decide_eq_true hactive⟩
  · rintro ⟨hr, hactive⟩
    exact ⟨id, (rows.mem_select id).2 ⟨r, hr, decide_eq_true hactive⟩, by rw [hr, Option.map_some]⟩

/-- While the clock stands still, and in whatever order the rows come, the lookup finds a grant exactly when an active
one is usable for the scope; it is of the strongest class there is, and the first of these by its id. -/
theorem lookup_strongest {o : ScanOrder} {t : Clock} {rows : Rows} {scope : String} {now : Nat}
    (ht : ∀ i, t i = now) :
    (lookupActiveCovering o t rows scope = none ↔
      ∀ id r, rows.get id = some r → r.state = .active → usable scope now r = false) ∧
      ∀ h, lookupActiveCovering o t rows scope = some h →
        (∃ r, rows.get h.grantId = some r ∧ r.state = .active ∧ usable scope now r = true ∧
          h.cls = .fromLedgerStr r.cls) ∧
        ∀ id r, rows.get id = some r → r.state = .active → usable scope now r = true →
          (GrantClass.fromLedgerStr r.cls).power < h.cls.power ∨
            (GrantClass.fromLedgerStr r.cls).power = h.cls.power ∧ h.grantId.text ≤ id.text := by
  have hempty : Strongest scope now [] none := ⟨fun b hb => (by cases hb), fun x hx => (by cases hx)⟩
  have hscan := hempty.foldl ht (o.list (activeRows rows)).zipIdx
  have hseen : ∀ x, x ∈ [] ++ (o.list (activeRows rows)).zipIdx.map Prod.fst ↔ x ∈ activeRows rows := by
    intro x
    rw [List.nil_append, List.zipIdx_map_fst, o.mem_list]
  unfold lookupActiveCovering
  generalize ((o.list (activeRows rows)).zipIdx.foldl (pick scope t) none) = best at hscan
  refine ⟨?_, fun h hh => ?_⟩
  · rw [Option.map_eq_none_iff]
    constructor
    · rintro rfl id r hr hactive
      by_contra husable
      obtain ⟨b, hb, -⟩ := hscan.beaten _ ((hseen _).2 (mem_activeRows.2 ⟨hr, hactive⟩)) (by simpa using husable)
      cases hb
    · intro hnone
      cases best with
      | none => rfl
      | some b =>
        obtain ⟨⟨id, r⟩, hx, husable, -⟩ := hscan.found b rfl
        obtain ⟨hr, hactive⟩ := mem_activeRows.1 ((hseen _).1 hx)
        rw [hnone id r hr hactive] at husable
        cases husable
  · obtain ⟨b, rfl, rfl⟩ := Option.map_eq_some_iff.1 hh
    obtain ⟨⟨id, r⟩, hx, husable, rfl⟩ := hscan.found b rfl
    obtain ⟨hr, hactive⟩ := mem_activeRows.1 ((hseen _).1 hx)
    refine ⟨⟨r, hr, hactive, husable, rfl⟩, fun id' r' hr' hactive' husable' => ?_⟩
    obtain ⟨b, hb, hbeaten⟩ := hscan.beaten (id', r') ((hseen _).2 (mem_activeRows.2 ⟨hr', hactive'⟩)) husable'
    obtain rfl := Option.mem_some_iff.1 hb
    simp only [better, Bool.or_eq_false_iff, decide_eq_false_iff_not, Bool.and_eq_false_iff] at hbeaten
    obtain ⟨hle, hid⟩ := hbeaten
    rcases Nat.lt_or_ge (GrantClass.fromLedgerStr r'.cls).power (GrantClass.fromLedgerStr r.cls).power with hlt | hge
    · exact .inl hlt
    · have heq : (GrantClass.fromLedgerStr r'.cls).power = (GrantClass.fromLedgerStr r.cls).power :=
        Nat.le_antisymm (Nat.not_lt.1 hle) hge
      exact .inr ⟨heq, hid.elim (fun hne => absurd heq hne) String.not_lt.1⟩

/-- One use for `exec`. -/
def Sample.issued : Rows :=
  (Grants.run .empty [.issue (fun _ => 10) 1 [.string "builtin:exec", .number (.whole 100)]]).rows

theorem lookup_strongest_issued :
    lookupActiveCovering .asGiven (fun _ => 20) Sample.issued (actionScope "exec") ≠ none := by
  have hrow : (Sample.issued.get ⟨1, 0⟩).any (fun r => r.state = .active && usable (actionScope "exec") 20 r) = true := by
    decide +kernel
  obtain ⟨r, hr, htest⟩ := (Option.any_eq_true _ _).1 hrow
  rw [Bool.and_eq_true, decide_eq_true_eq] at htest
  intro hnone
  have hunusable := (lookup_strongest fun _ => rfl).1.1 hnone ⟨1, 0⟩ r hr htest.1
  rw [htest.2] at hunusable
  cases hunusable

/-- What a lookup finds is in the ledger and covers the builtin, whatever the clock does meanwhile. -/
theorem lookup_covers {o : ScanOrder} {t : Clock} {rows : Rows} {name : String} {h : GrantHandle}
    (hfound : lookupActiveCovering o t rows (actionScope name) = some h) : Covers rows h.grantId name := by
  unfold lookupActiveCovering at hfound
  have hrows : ∀ x ∈ (o.list (activeRows rows)).zipIdx, rows.get x.1.1 = some x.1.2 := fun x hx =>
    (mem_activeRows.1 (o.mem_list.1 (List.fst_mem_of_mem_zipIdx hx))).1
  have hscan : ∀ (l : List ((GrantId × GrantRow) × Nat)) best, (∀ x ∈ l, rows.get x.1.1 = some x.1.2) →
      (∀ b ∈ best, Covers rows b.2.grantId name) →
      ∀ b ∈ l.foldl (pick (actionScope name) t) best, Covers rows b.2.grantId name := by
    intro l
    induction l with
    | nil => exact fun best _ hbest => hbest
    | cons x l ih =>
      intro best hl hbest
      refine ih _ (fun y hy => hl y (List.mem_cons_of_mem _ hy)) ?_
      have hx := hl x List.mem_cons_self
      obtain ⟨⟨id, r⟩, n⟩ := x
      simp only [pick]
      split_ifs with hpick
      · rw [Bool.and_eq_true, usable, Bool.and_eq_true, Bool.and_eq_true] at hpick
        intro b hb
        obtain rfl := Option.mem_some_iff.1 hb
        have hdesc : descOf rows id = some r.desc := congrArg (Option.map GrantRow.desc) hx
        exact ⟨r.desc, hdesc, hpick.1.1.2⟩
      · exact hbest
  obtain ⟨b, hb, rfl⟩ := Option.map_eq_some_iff.1 hfound
  exact hscan _ none hrows (fun b hb => by cases hb) b hb

/-! ## What an event can do -/

theorem checkActive_live {rows : Rows} {id : GrantId} {now : Nat} {rec : GrantRecord}
    (h : checkActive rows id now = .ok rec) : ∃ r, Passes rows id r ∧ now < toU64 r.expiresAt := by
  obtain ⟨r, hpass, rfl⟩ := checkActive_ok h
  refine ⟨r, hpass, Nat.lt_of_not_le fun hlate => ?_⟩
  have hcheck : checkRecord (r.record id) now = .error ("GRANT_EXPIRED: " ++ id.text ++ " expired at unix " ++
      toString (toU64 r.expiresAt)) := by
    have hactive : (r.record id).state = .active := hpass.active
    rw [checkRecord, hactive]
    exact if_pos hlate
  have hload : loadRecord rows id = .ok (r.record id) := by rw [loadRecord, hpass.row]
  rw [checkActive, hload] at h
  simp only [bind, Except.bind, hcheck] at h
  cases h

section

variable {sha256Hex : String → String}

/-- The moves of one dispatch, with the ledger behind them. -/
inductive Moves (sha256Hex : String → String) (v : Gates) (i : Nat) : Event → Stage → Stage → GrantLedger → Prop
  | free {o : ScanOrder} {t : Clock} {d : Dispatch} (hfree : d.free = true) :
    Moves sha256Hex v i (.look i o t) (.start d) (.cleared d none) v.ledger
  | found {o : ScanOrder} {t : Clock} {d : Dispatch} {h : GrantHandle} (hneeds : d.free = false)
    (hcovers : Covers v.ledger.rows h.grantId d.name) :
    Moves sha256Hex v i (.look i o t) (.start d) (.looked d h) v.ledger
  | missing {o : ScanOrder} {t : Clock} {d : Dispatch} :
    Moves sha256Hex v i (.look i o t) (.start d) (.refused d (refusal d)) v.ledger
  | pays {t : Clock} {d : Dispatch} {h : GrantHandle} {r : GrantRow} (hpass : Passes v.ledger.rows h.grantId r)
    (hlive : t 0 < toU64 r.expiresAt) (hused : usedBy v.ledger (.use t [.grant h]) = some h.grantId) :
    Moves sha256Hex v i (.consume i t) (.looked d h) (.cleared d (some h.grantId))
      (Grants.step v.ledger (.use t [.grant h]))
  | raced {t : Clock} {d : Dispatch} {h : GrantHandle} (hused : usedBy v.ledger (.use t [.grant h]) = none) :
    Moves sha256Hex v i (.consume i t) (.looked d h) (.refused d (refusal d))
      (Grants.step v.ledger (.use t [.grant h]))
  | overseen {lock : Option String} {now : UInt64} {d : Dispatch} {paid : Option GrantId}
    (hok : Approval.authorizeOverseenCall sha256Hex lock now d.name v.mandates = .ok ()) :
    Moves sha256Hex v i (.oversee i lock now) (.cleared d paid) (.authorized d paid) v.ledger
  | unseen {lock : Option String} {now : UInt64} {d : Dispatch} {paid : Option GrantId} {e : String}
    (hover : d.name ∈ Approval.humanOversight) :
    Moves sha256Hex v i (.oversee i lock now) (.cleared d paid) (.refused d e) v.ledger
  | runs {d : Dispatch} {paid : Option GrantId} :
    Moves sha256Hex v i (.execute i) (.authorized d paid) (.ran d paid) v.ledger

/-- An event leaves everything alone, is a call on grants or on mandates, or moves one dispatch. -/
inductive Happens (sha256Hex : String → String) (v : Gates) : Event → Gates → Prop
  | idle {e : Event} (hcalls : v.calls e = []) (hasked : v.asked e = []) : Happens sha256Hex v e v
  | grant (c : Call) : Happens sha256Hex v (.grant c) { v with ledger := Grants.step v.ledger c }
  | mandate (c : Approval.Call) : Happens sha256Hex v (.mandate c) { v with mandates := c.exec sha256Hex v.mandates }
  | moves {e : Event} {i : Nat} {s s' : Stage} {l : GrantLedger} (hs : v.stages[i]? = some s)
    (hmoves : Moves sha256Hex v i e s s' l) : Happens sha256Hex v e { v.moveTo i s' with ledger := l }

theorem step_happens (v : Gates) (e : Event) : Happens sha256Hex v e (v.step sha256Hex e) := by
  cases e with
  | look i o t =>
    simp only [Gates.step]
    split
    next d hs =>
      have hsame : ∀ s, v.moveTo i s = { v.moveTo i s with ledger := v.ledger } := fun _ => rfl
      rw [hsame, lookStage]
      cases hfree : d.free with
      | true => exact .moves hs (.free hfree)
      | false =>
        cases hfound : lookupActiveCovering o t v.ledger.rows (actionScope d.name) with
        | some h => exact .moves hs (.found hfree (lookup_covers hfound))
        | none => exact .moves hs .missing
    next => exact .idle rfl rfl
  | consume i t =>
    simp only [Gates.step]
    split
    next d h hs =>
      unfold Gates.consume
      have hstep : Grants.step v.ledger (.use t [.grant h]) = (grantUse v.ledger t h).2 := rfl
      cases hc : checkActive v.ledger.rows h.grantId (t 0) with
      | ok rec =>
        obtain ⟨r, hpass, hlive⟩ := checkActive_live hc
        have hused : usedBy v.ledger (.use t [.grant h]) = some h.grantId := by
          simp only [usedBy, handleArg, builtinGrantUse, expectGrantArg, grantUse, hc, List.length_singleton, ne_eq,
            not_true_eq_false, if_false, List.getElem?_cons_zero]
        have hmoves : Moves sha256Hex v i (.consume i t) (.looked d h) _ _ := .pays hpass hlive hused
        rw [hstep] at hmoves
        simp only [grantUse, hc] at hmoves ⊢
        exact .moves hs hmoves
      | error e =>
        have hused : usedBy v.ledger (.use t [.grant h]) = none := by
          simp only [usedBy, handleArg, builtinGrantUse, expectGrantArg, grantUse, hc, List.length_singleton, ne_eq,
            not_true_eq_false, if_false, List.getElem?_cons_zero]
        have hmoves : Moves sha256Hex v i (.consume i t) (.looked d h) _ _ := .raced hused
        rw [hstep] at hmoves
        simp only [grantUse, hc] at hmoves ⊢
        exact .moves hs hmoves
    next hs =>
      refine .idle ?_ rfl
      simp only [Gates.calls]
  | oversee i lock now =>
    simp only [Gates.step]
    split
    next d paid hs =>
      have hsame : ∀ s, v.moveTo i s = { v.moveTo i s with ledger := v.ledger } := fun _ => rfl
      rw [hsame, overseeStage]
      cases hok : Approval.authorizeOverseenCall sha256Hex lock now d.name v.mandates with
      | ok u => exact .moves hs (.overseen hok)
      | error e =>
        refine .moves hs (.unseen ?_)
        unfold Approval.authorizeOverseenCall at hok
        split_ifs at hok with hover
        simpa using hover
    next => exact .idle rfl rfl
  | execute i =>
    simp only [Gates.step]
    split
    next d paid hs => exact .moves hs .runs
    next => exact .idle rfl rfl
  | grant c => exact .grant c
  | mandate c => exact .mandate c

/-! ## The ledger behind the gate -/

theorem descOf_change {l l' : GrantLedger} {call : Call} {used : Option GrantId} (h : Lawful l)
    (hc : Change l call used l') {id : GrantId} {d : Desc} (hd : descOf l.rows id = some d) :
    descOf l'.rows id = some d := by
  have hold (nanos : Nat) : id ≠ ⟨nanos, l.seq⟩ := by
    rintro rfl
    exact absurd (h.fresh hd) (Nat.lt_irrefl _)
  cases hc with
  | none => exact hd
  | issue => rwa [descOf_set, if_neg (hold _)]
  | subgrant => rwa [descOf_set, if_neg (hold _), descOf_debitParent]
  | use =>
    refine Eq.trans (descOf_modify _ _ _ ?_) hd
    exact fun _ => rfl
  | revoke => exact ((revokeLoop_spec _ _ 0).1 id).trans hd

theorem descOf_run {l : GrantLedger} (h : Lawful l) {id : GrantId} {d : Desc} (hd : descOf l.rows id = some d)
    (calls : List Call) : Lawful (Grants.run l calls) ∧ descOf (Grants.run l calls).rows id = some d :=
  run_invariant (P := fun l => Lawful l ∧ descOf l.rows id = some d) ⟨h, hd⟩
    (fun _ _ _ _ hl hc => ⟨lawful_change hl.1 hc, descOf_change hl.1 hc hl.2⟩) calls

theorem Covers.run {l : GrantLedger} (h : Lawful l) {g : GrantId} {name : String} (hg : Covers l.rows g name)
    (calls : List Call) : Covers (Grants.run l calls).rows g name := by
  obtain ⟨d, hd, hscope⟩ := hg
  exact ⟨d, (descOf_run h hd calls).2, hscope⟩

theorem uses_append (l : GrantLedger) (as bs : List Call) :
    uses l (as ++ bs) = uses l as ++ uses (Grants.run l as) bs := by
  induction as generalizing l with
  | nil => rfl
  | cons a as ih =>
    rw [List.cons_append, uses, ih, uses, List.append_assoc]
    rfl

variable {v v' : Gates} {e : Event}

theorem Happens.ledger (h : Happens sha256Hex v e v') : v'.ledger = Grants.run v.ledger (v.calls e) := by
  cases h with
  | idle hcalls =>
    rw [hcalls]
    rfl
  | grant => rfl
  | mandate => rfl
  | moves hs hmoves =>
    cases hmoves with
    | pays => simp only [Gates.calls, hs, Grants.run, List.foldl_cons, List.foldl_nil]
    | raced => simp only [Gates.calls, hs, Grants.run, List.foldl_cons, List.foldl_nil]
    | free => rfl
    | found => rfl
    | missing => rfl
    | overseen => rfl
    | unseen => rfl
    | runs => rfl

theorem Happens.dispatches (h : Happens sha256Hex v e v') :
    v'.stages.map Stage.dispatch = v.stages.map Stage.dispatch := by
  cases h with
  | idle => rfl
  | grant => rfl
  | mandate => rfl
  | @moves e i s s' l hs hmoves =>
    have hsame : s'.dispatch = s.dispatch := by cases hmoves <;> rfl
    change (v.stages.set i s').map Stage.dispatch = _
    refine List.ext_getElem? fun j => ?_
    rw [List.getElem?_map, List.getElem?_map, List.getElem?_set]
    split_ifs with hij hlen
    · rw [← hij, hs, Option.map_some, Option.map_some, hsame]
    · rw [← hij, List.getElem?_eq_none (Nat.not_lt.1 hlen)]
    · rfl

/-- What stands behind a stage: a grant that was found covers the call, and a call is let through with a use exactly
when it needs one. -/
def Stage.Sound (rows : Rows) : Stage → Prop
  | .looked d h => d.free = false ∧ Covers rows h.grantId d.name
  | .cleared d paid => paid.isNone = d.free
  | .authorized d paid => paid.isNone = d.free
  | .ran d paid => paid.isNone = d.free
  | _ => True

structure Sound (v : Gates) : Prop where
  lawful : Lawful v.ledger
  stages : ∀ s ∈ v.stages, s.Sound v.ledger.rows

theorem sound_start (ds : List Dispatch) : Sound (Gates.start ds) where
  lawful := lawful_empty
  stages s hs := by
    obtain ⟨d, -, rfl⟩ := List.mem_map.1 hs
    trivial

theorem Stage.Sound.run {l : GrantLedger} (hl : Lawful l) {s : Stage} (h : s.Sound l.rows) (calls : List Call) :
    s.Sound (Grants.run l calls).rows := by
  cases s with
  | looked d g => exact ⟨h.1, h.2.run hl calls⟩
  | start d => trivial
  | cleared d paid => exact h
  | authorized d paid => exact h
  | ran d paid => exact h
  | refused d e => trivial

theorem Sound.happens (h : Sound v) (hv : Happens sha256Hex v e v') : Sound v' := by
  have hrows : ∀ s ∈ v.stages, s.Sound v'.ledger.rows := fun s hs => by
    rw [hv.ledger]
    exact (h.stages s hs).run h.lawful _
  refine ⟨?_, ?_⟩
  · rw [hv.ledger]
    exact run_invariant h.lawful (fun _ _ _ _ => lawful_change) _
  · cases hv with
    | idle => exact hrows
    | grant => exact hrows
    | mandate => exact hrows
    | @moves e i s s' l hs hmoves =>
      intro x hx
      rcases List.mem_or_eq_of_mem_set hx with hx | rfl
      · exact hrows x hx
      · have hbefore := h.stages s (List.mem_of_getElem? hs)
        cases hmoves with
        | free hfree => exact hfree.symm
        | found hneeds hcovers => exact ⟨hneeds, hcovers⟩
        | missing => trivial
        | pays => exact hbefore.1.symm
        | raced => trivial
        | overseen => exact hbefore
        | unseen => trivial
        | runs => exact hbefore

theorem free_of_overseen {d : Dispatch} (h : d.name ∈ Approval.humanOversight) : d.free = true := by
  have hname : d.name = "cron_run" := List.mem_singleton.1 h
  have hbaseline : baselineStandard.contains d.name = true := by
    rw [hname]
    decide
  rw [Dispatch.free, decide_eq_true_eq]
  exact .inr (.inr (.inr hbaseline))

theorem count_payments (v : Gates) (g : GrantId) :
    v.payments.count g = v.stages.countP fun s => s.paid == some g := List.count_filterMap

/-- An event pays for what it uses: each use it takes from the ledger was asked for by name, or a dispatch holds it. -/
theorem Happens.accounts (h : Sound v) (hv : Happens sha256Hex v e v') (g : GrantId) :
    (uses v.ledger (v.calls e)).count g + v.payments.count g = (v.asked e).count g + v'.payments.count g := by
  cases hv with
  | idle hcalls hasked =>
    rw [hcalls, hasked]
    rfl
  | grant c =>
    change ((usedBy v.ledger c).toList ++ []).count g + _ = _
    rw [List.append_nil]
    rfl
  | mandate c => rfl
  | @moves e i s s' l hs hmoves =>
    have hset := countP_set_add (p := fun s : Stage => s.paid == some g) (y := s') hs
    have hkeep (hpaid : s'.paid = s.paid) : (v.stages.set i s').countP (fun s => s.paid == some g) =
        v.stages.countP fun s => s.paid == some g := by
      rw [hpaid] at hset
      exact Nat.add_right_cancel hset
    have hbefore := h.stages s (List.mem_of_getElem? hs)
    rw [count_payments, count_payments]
    change _ + _ = _ + (v.stages.set i s').countP _
    cases hmoves with
    | @pays t d hg r hpass hlive hused =>
      have hcalls : uses v.ledger (v.calls (.consume i t)) = [hg.grantId] := by
        simp only [Gates.calls, hs, uses, hused, Option.toList_some, List.append_nil]
      rw [hcalls]
      simp only [Stage.paid, Gates.asked, List.count_nil, List.count_singleton] at hset ⊢
      simp only [beq_iff_eq, Option.some.injEq, reduceCtorEq, if_false] at hset ⊢
      omega
    | @raced t d hg hused =>
      have hcalls : uses v.ledger (v.calls (.consume i t)) = [] := by
        simp only [Gates.calls, hs, uses, hused, Option.toList_none, List.append_nil]
      rw [hcalls, hkeep rfl]
      rfl
    | @unseen lock now d paid e hover =>
      obtain rfl : paid = none := by
        have hnone : paid.isNone = d.free := hbefore
        rw [free_of_overseen hover] at hnone
        exact Option.isNone_iff_eq_none.1 hnone
      rw [hkeep rfl]
      rfl
    | free =>
      rw [hkeep rfl]
      rfl
    | found =>
      rw [hkeep rfl]
      rfl
    | missing =>
      rw [hkeep rfl]
      rfl
    | overseen =>
      rw [hkeep rfl]
      rfl
    | runs =>
      rw [hkeep rfl]
      rfl

/-! ## Whole runs -/

theorem sound_run (h : Sound v) (es : List Event) : Sound (v.run sha256Hex es) := by
  induction es generalizing v with
  | nil => exact h
  | cons e es ih => exact ih (h.happens (step_happens v e))

theorem dispatches_run (v : Gates) (es : List Event) :
    (v.run sha256Hex es).stages.map Stage.dispatch = v.stages.map Stage.dispatch := by
  induction es generalizing v with
  | nil => rfl
  | cons e es ih => exact (ih _).trans (step_happens v e).dispatches

theorem ledger_run (v : Gates) (es : List Event) :
    (v.run sha256Hex es).ledger = Grants.run v.ledger (ledgerCalls sha256Hex v es) := by
  induction es generalizing v with
  | nil => rfl
  | cons e es ih =>
    rw [ledgerCalls, Grants.run, List.foldl_append]
    exact (ih _).trans (congrArg (Grants.run · _) (step_happens v e).ledger)

theorem accounts_run (h : Sound v) (es : List Event) (g : GrantId) :
    (uses v.ledger (ledgerCalls sha256Hex v es)).count g + v.payments.count g =
      (explicitUses sha256Hex v es).count g + (v.run sha256Hex es).payments.count g := by
  induction es generalizing v with
  | nil => rfl
  | cons e es ih =>
    have hv : Happens sha256Hex v e _ := step_happens v e
    have hone := hv.accounts h g
    have hrest := ih (h.happens hv)
    rw [hv.ledger] at hrest
    rw [ledgerCalls, explicitUses, uses_append, List.count_append, List.count_append]
    change _ = _ + ((v.step sha256Hex e).run sha256Hex es).payments.count g
    omega

theorem dispatch_start {ds : List Dispatch} {es : List Event} {i : Nat} {s : Stage}
    (hs : ((Gates.start ds).run sha256Hex es).stages[i]? = some s) : ds[i]? = some s.dispatch := by
  have hmap : ((Gates.start ds).run sha256Hex es).stages.map Stage.dispatch = ds := by
    rw [dispatches_run, Gates.start, List.map_map]
    exact List.map_id _
  rw [← hmap, List.getElem?_map, hs, Option.map_some]

/-- What did not hold at first came to hold with some event. -/
theorem first_event {P : Gates → Prop} {es : List Event} (h0 : ¬P v) (h1 : P (v.run sha256Hex es)) :
    ∃ before e after, es = before ++ e :: after ∧ ¬P (v.run sha256Hex before) ∧
      P ((v.run sha256Hex before).step sha256Hex e) := by
  induction es generalizing v with
  | nil => exact absurd h1 h0
  | cons e es ih =>
    by_cases h : P (v.step sha256Hex e)
    · exact ⟨[], e, es, rfl, h0, h⟩
    · obtain ⟨before, e', after, rfl, hbefore, hafter⟩ := ih h h1
      exact ⟨e :: before, e', after, rfl, hbefore, hafter⟩

theorem Happens.stage (h : Happens sha256Hex v e v') {i : Nat} {s' : Stage} (hs' : v'.stages[i]? = some s') :
    v.stages[i]? = some s' ∨ ∃ s l, v.stages[i]? = some s ∧ Moves sha256Hex v i e s s' l := by
  cases h with
  | idle => exact .inl hs'
  | grant => exact .inl hs'
  | mandate => exact .inl hs'
  | @moves e j s x l hs hmoves =>
    change (v.stages.set j x)[i]? = some s' at hs'
    rw [List.getElem?_set] at hs'
    split_ifs at hs' with hij hlen
    · obtain rfl := Option.some.inj hs'
      subst hij
      exact .inr ⟨s, l, hs, hmoves⟩
    · exact .inl hs'

/-- Before a builtin ran, its dispatch was let through: without a grant where it needs none, else by one use of a grant
that was active, not expired, not used up and wide enough at that moment; and where a human has to oversee it, by a
mandate that was live. -/
theorem gate_sound {ds : List Dispatch} {es : List Event} {i : Nat} {d : Dispatch} {paid : Option GrantId}
    (hran : ((Gates.start ds).run sha256Hex es).stages[i]? = some (.ran d paid)) :
    ds[i]? = some d ∧
      (d.free = true ∧ paid = none ∨ d.free = false ∧ ∃ g before t after r, paid = some g ∧
        es = before ++ .consume i t :: after ∧
        ((Gates.start ds).run sha256Hex before).ledger.rows.get g = some r ∧ r.state = .active ∧ r.remaining ≠ 0 ∧
        t 0 < toU64 r.expiresAt ∧ scopeAttenuates r.scope (actionScope d.name) = true) ∧
      (d.name ∈ Approval.humanOversight → ∃ before lock now after, es = before ++ .oversee i lock now :: after ∧
        Approval.authorizeOverseenCall sha256Hex lock now d.name
          ((Gates.start ds).run sha256Hex before).mandates = .ok ()) := by
  have hd : ds[i]? = some d := dispatch_start hran
  have hstart : ∀ s, (Gates.start ds).stages[i]? = some s → ∃ d, s = .start d := by
    intro s hs
    obtain ⟨d, -, rfl⟩ := List.mem_map.1 (List.mem_of_getElem? hs)
    exact ⟨d, rfl⟩
  refine ⟨hd, ?_, fun _ => ?_⟩
  · have hsound : paid.isNone = d.free :=
      (sound_run (sound_start ds) es).stages _ (List.mem_of_getElem? hran)
    cases paid with
    | none => exact .inl ⟨hsound.symm, rfl⟩
    | some g =>
      refine .inr ⟨hsound.symm, g, ?_⟩
      have hnot : ¬∃ s, (Gates.start ds).stages[i]? = some s ∧ s.paid = some g := by
        rintro ⟨s, hs, hpaid⟩
        obtain ⟨d, rfl⟩ := hstart s hs
        cases hpaid
      obtain ⟨before, e, after, rfl, hbefore, s', hs', hpaid⟩ :=
        first_event (P := fun v => ∃ s, v.stages[i]? = some s ∧ s.paid = some g) hnot ⟨_, hran, rfl⟩
      rcases (step_happens _ e).stage hs' with hs | ⟨s, l, hs, hmoves⟩
      · exact absurd ⟨s', hs, hpaid⟩ hbefore
      · have hlooked := (sound_run (sound_start ds) before).stages s (List.mem_of_getElem? hs)
        have hsame := dispatch_start hs
        cases hmoves with
        | @pays t d' h r hpass hlive =>
          obtain rfl : d = d' := Option.some.inj (hd.symm.trans hsame)
          obtain rfl : h.grantId = g := Option.some.inj hpaid
          obtain ⟨desc, hdesc, hscope⟩ := hlooked.2
          rw [descOf, hpass.row, Option.map_some, Option.some.injEq] at hdesc
          subst hdesc
          exact ⟨before, t, after, r, rfl, rfl, hpass.row, hpass.active, hpass.remaining, hlive, hscope⟩
        | free => cases hpaid
        | found => cases hpaid
        | missing => cases hpaid
        | raced => cases hpaid
        | overseen => exact absurd ⟨_, hs, hpaid⟩ hbefore
        | unseen => cases hpaid
        | runs => exact absurd ⟨_, hs, hpaid⟩ hbefore
  · have hnot : ¬∃ d paid, (Gates.start ds).stages[i]? = some (.authorized d paid) ∨
        (Gates.start ds).stages[i]? = some (.ran d paid) := by
      rintro ⟨d, paid, hs | hs⟩
      · obtain ⟨d, h⟩ := hstart _ hs
        cases h
      · obtain ⟨d, h⟩ := hstart _ hs
        cases h
    obtain ⟨before, e, after, rfl, hbefore, d', paid', hs'⟩ :=
      first_event (P := fun v => ∃ d paid, v.stages[i]? = some (.authorized d paid) ∨ v.stages[i]? = some (.ran d paid))
        hnot ⟨d, paid, .inr hran⟩
    rcases hs' with hs' | hs'
    · rcases (step_happens _ e).stage hs' with hs | ⟨s, l, hs, hmoves⟩
      · exact absurd ⟨d', paid', .inl hs⟩ hbefore
      · have hsame := dispatch_start hs
        cases hmoves with
        | @overseen lock now _ _ hok =>
          obtain rfl : d = d' := Option.some.inj (hd.symm.trans hsame)
          exact ⟨before, lock, now, after, rfl, hok⟩
    · rcases (step_happens _ e).stage hs' with hs | ⟨s, l, hs, hmoves⟩
      · exact absurd ⟨d', paid', .inr hs⟩ hbefore
      · cases hmoves with
        | runs => exact absurd ⟨d', paid', .inl hs⟩ hbefore

theorem budgeted_recount {rows : Rows} {us us' : List GrantId} {owed : GrantId → Nat} (h : Budgeted rows us owed)
    (hcount : ∀ g, us'.count g = us.count g) : Budgeted rows us' owed where
  column := h.column
  known hid := (hcount _).trans (h.known hid)
  law hr hq := by
    rw [hcount]
    exact h.law hr hq

/-- Each use in the ledger was asked for by name or is held by one dispatch that was not refused, and both together
keep within the quota of every tree of grants. -/
theorem gate_quota {ds : List Dispatch} {es : List Event}
    (hfits : RunFits .empty (ledgerCalls sha256Hex (Gates.start ds) es)) :
    (∀ g, (uses .empty (ledgerCalls sha256Hex (Gates.start ds) es)).count g =
      (explicitUses sha256Hex (Gates.start ds) es).count g +
        ((Gates.start ds).run sha256Hex es).payments.count g) ∧
      ∀ g rec q, loadRecord ((Gates.start ds).run sha256Hex es).ledger.rows g = .ok rec → rec.cls.quota = some q →
        treeUses ((Gates.start ds).run sha256Hex es).ledger.rows
          (explicitUses sha256Hex (Gates.start ds) es ++ ((Gates.start ds).run sha256Hex es).payments) g ≤ q := by
  have hcount (g : GrantId) : (uses .empty (ledgerCalls sha256Hex (Gates.start ds) es)).count g =
      (explicitUses sha256Hex (Gates.start ds) es).count g +
        ((Gates.start ds).run sha256Hex es).payments.count g := by
    have hnone : (Gates.start ds).payments = [] := by
      rw [Gates.payments, Gates.start, List.filterMap_map]
      exact List.filterMap_eq_nil_iff.2 fun _ _ => rfl
    rw [← accounts_run (sound_start ds) es g, hnone]
    rfl
  refine ⟨hcount, fun g rec q hg hq => ?_⟩
  have hsound : Sound ((Gates.start ds).run sha256Hex es) := sound_run (sound_start ds) es
  have hbudget := budgeted_run lawful_empty budgeted_empty _ hfits
  rw [List.nil_append] at hbudget
  have hledger : ((Gates.start ds).run sha256Hex es).ledger =
      Grants.run .empty (ledgerCalls sha256Hex (Gates.start ds) es) := ledger_run _ es
  rw [← hledger] at hbudget
  have hrecount := budgeted_recount hbudget fun g => (List.count_append.trans (hcount g).symm)
  obtain ⟨r, hr, rfl⟩ := loadRecord_ok hg
  have hd : descOf ((Gates.start ds).run sha256Hex es).ledger.rows g = some r.desc := by simp [descOf, hr]
  have hrq : r.desc.quota = some q := hq
  have htree := hrecount.tree hsound.lawful ⟨r.desc, q, hd, hrq⟩
  have hquota : quotaOf ((Gates.start ds).run sha256Hex es).ledger.rows g = q := by simp [quotaOf, hd, hrq]
  rwa [hquota] at htree

end

/-! ## Two calls and one use -/

def Sample.exec : Dispatch := ⟨"exec", [], .process, fun _ => none⟩

/-- Both calls find the grant of one use before either takes it. -/
def Sample.race : List Event :=
  [.grant (.issue (fun _ => 10) 1 [.string "builtin:exec", .number (.whole 100)]),
    .look 0 .asGiven fun _ => 20, .look 1 .asGiven fun _ => 20, .consume 0 fun _ => 21,
    .consume 1 fun _ => 21, .oversee 0 none 21, .execute 0]

def Sample.hasRun : Stage → Bool
  | .ran _ _ => true
  | _ => false

theorem Sample.race_ran :
    (((Gates.start [Sample.exec, Sample.exec]).run id Sample.race).stages[0]?).any Sample.hasRun = true := by
  decide +kernel

theorem gate_sound_race : ∃ before t after, Sample.race = before ++ .consume 0 t :: after := by
  obtain ⟨s, hs, hran⟩ := (Option.any_eq_true _ _).1 Sample.race_ran
  cases s with
  | ran d paid =>
    obtain ⟨hd, ⟨hfree, -⟩ | ⟨-, g, before, t, after, r, -, hes, -⟩, -⟩ := gate_sound hs
    · obtain rfl : Sample.exec = d := Option.some.inj hd
      exact absurd hfree (by decide)
    · exact ⟨before, t, after, hes⟩
  | start => cases hran
  | looked => cases hran
  | cleared => cases hran
  | authorized => cases hran
  | refused => cases hran

def Sample.plain : Call → Bool
  | .subgrant _ _ _ => false
  | _ => true

theorem Sample.fits_plain {l : GrantLedger} {calls : List Call} (h : calls.all Sample.plain = true) :
    RunFits l calls := by
  induction calls generalizing l with
  | nil => trivial
  | cons c cs ih =>
    rw [List.all_cons, Bool.and_eq_true] at h
    refine ⟨?_, ih h.2⟩
    cases c with
    | subgrant => cases h.1
    | issue => trivial
    | use => trivial
    | revoke => trivial

theorem gate_quota_race :
    (uses .empty (ledgerCalls id (Gates.start [Sample.exec, Sample.exec]) Sample.race)).count ⟨1, 0⟩ =
      (explicitUses id (Gates.start [Sample.exec, Sample.exec]) Sample.race).count ⟨1, 0⟩ +
        ((Gates.start [Sample.exec, Sample.exec]).run id Sample.race).payments.count ⟨1, 0⟩ := by
  have hfits : RunFits .empty (ledgerCalls id (Gates.start [Sample.exec, Sample.exec]) Sample.race) := by
    have hcalls : (ledgerCalls id (Gates.start [Sample.exec, Sample.exec]) Sample.race).all Sample.plain = true := by
      decide +kernel
    exact Sample.fits_plain hcalls
  exact (gate_quota hfits).1 ⟨1, 0⟩

end Metalogos.Gate
