import Metalogos.Decision.Trace
import Metalogos.Lib.Fallible

/-!
# The replay gate

`verify_replay` and `replay_gate` of `src/decision_trace.rs`: a claimed trace passes when its outputs can be
checked, every row of the log re-derives its digest, and a row of the log has the digest of the claim; that row
is the evidence returned. The gate does not look at the decision it is asked about once a claim is given, and
a row of the claim's digest has the claim's text, which it may cut elsewhere (`gate_returns_another`).

`gate_sound_iff`: what the gate returns is the claim, recorded for the decision asked about, exactly when the
claim is for that decision and the row cuts the text where the claim does.
-/
namespace Metalogos.Decision

open Metalogos.Lib

/-- mirrors src/decision_trace.rs:249-251 -/
structure DecisionTraceLog where
  rows : List DecisionTrace

/-- The log and the place of the new row.
mirrors src/decision_trace.rs:262-275 -/
def DecisionTraceLog.append (log : DecisionTraceLog) (trace : DecisionTrace) : Except String (DecisionTraceLog × Nat) :=
  if log.rows.any (·.traceDigest = trace.traceDigest) then
    .error ("decision trace log: the exact trace " ++ trace.traceDigest ++
      " is already in the log (append-only, no duplicates)")
  else .ok (⟨log.rows ++ [trace]⟩, log.rows.length)

/-- mirrors src/decision_trace.rs:291-296 -/
def DecisionTraceLog.rowsFor (log : DecisionTraceLog) (decision : String) : List DecisionTrace :=
  log.rows.filter (·.decision = decision)

/-- The fields a report can name; the decision itself is never one it does.
mirrors src/decision_trace.rs:320-329 -/
inductive ReplayField where
  | decision
  | carrier
  | inputs
  | contractLine
  | grants
  | refusals
  | degradations
  | outputs
  deriving DecidableEq, Repr

/-- mirrors src/decision_trace.rs:332-343 -/
def ReplayField.asStr : ReplayField → String
  | .decision => "decision"
  | .carrier => "carrier"
  | .inputs => "inputs"
  | .contractLine => "contract-line"
  | .grants => "grants"
  | .refusals => "refusals"
  | .degradations => "degradations"
  | .outputs => "outputs"

/-- The first field on which a row differs from the claim.
mirrors src/decision_trace.rs:424-443 -/
def divergence (recorded trace : DecisionTrace) : Option ReplayField :=
  if recorded.carrier ≠ trace.carrier then some .carrier
  else if recorded.inputs ≠ trace.inputs then some .inputs
  else if recorded.contractName ≠ trace.contractName ∨ recorded.modelVersion ≠ trace.modelVersion ∨
      recorded.providerVersion ≠ trace.providerVersion then some .contractLine
  else if recorded.grants ≠ trace.grants then some .grants
  else if recorded.refusals ≠ trace.refusals then some .refusals
  else if recorded.degradations ≠ trace.degradations then some .degradations
  else if recorded.outputs ≠ trace.outputs then some .outputs
  else none

/-- The check of one recorded row.
mirrors src/decision_trace.rs:391-405 -/
def checkRow (sha256Hex : List Char → String) (row : DecisionTrace) : Except String Unit :=
  if canonicalTraceDigest sha256Hex row ≠ row.traceDigest then
    .error ("REPLAY_MATCH: the recorded trace " ++ row.traceDigest ++ " does not re-derive its digest — the record " ++
      "was altered after the write (UNTRUSTED_EXEC_DECISION, fail-closed)")
  else if row.outputs.isEmpty then
    .error ("REPLAY_MATCH: the recorded trace " ++ row.traceDigest ++ " of '" ++ row.decision ++ "' carries no " ++
      "verifiable output — the record cannot be reconciled (UNTRUSTED_EXEC_DECISION, fail-closed)")
  else .ok ()

/-- mirrors src/decision_trace.rs:364-456 -/
def verifyReplay (sha256Hex : List Char → String) (trace : DecisionTrace) (log : DecisionTraceLog) :
    Except String DecisionTrace :=
  if canonicalTraceDigest sha256Hex trace ≠ trace.traceDigest then
    .error ("REPLAY_MATCH: the claimed trace of '" ++ trace.decision ++ "' does not re-derive its digest — the claim " ++
      "was altered after the write (UNTRUSTED_EXEC_DECISION, fail-closed)")
  else if trace.outputs.isEmpty then
    .error ("REPLAY_MATCH: the claimed trace of '" ++ trace.decision ++ "' carries no verifiable output — the " ++
      "reconciliation refuses at verify (UNTRUSTED_EXEC_DECISION, fail-closed)")
  else do
    log.rows.forM (checkRow sha256Hex)
    match log.rows.find? (·.traceDigest = trace.traceDigest) with
    | some row => .ok row
    | none =>
      match (log.rowsFor trace.decision).getLast? with
      | none =>
        .error ("REPLAY_MATCH: no recorded trace covers decision '" ++ trace.decision ++ "' — the fail-closed " ++
          "coverage refuses a decision without a trace (SINK_CLEARANCE; the №845 form; ADR-0210)")
      | some recorded =>
        match divergence recorded trace with
        | some f =>
          .error ("REPLAY_MATCH: the claimed replay of '" ++ trace.decision ++ "' diverges from the recorded trace on " ++
            f.asStr ++ " — the record and the claim disagree (UNTRUSTED_EXEC_DECISION, fail-closed)")
        | none =>
          .error ("REPLAY_MATCH: the claimed replay of '" ++ trace.decision ++ "' carries an unrecorded trace " ++
            "digest — the record was superseded or the claim is foreign (UNTRUSTED_EXEC_DECISION, fail-closed)")

/-- What `ledger::record` is given. -/
structure LedgerCall where
  action : String
  actor : String
  scope : String
  args : String
  deriving DecidableEq, Repr

/-- The verdict, and what is recorded of it.
mirrors src/decision_trace.rs:491-505 -/
def replayGate (sha256Hex : List Char → String) (decision : String) (claim : Option DecisionTrace)
    (log : DecisionTraceLog) : Except String DecisionTrace × List LedgerCall :=
  let verdict :=
    match claim with
    | some claim => verifyReplay sha256Hex claim log
    | none =>
      .error ("REPLAY_MATCH: no recorded trace covers decision '" ++ decision ++ "' — the irreversible decision " ++
        "refuses BEFORE the effect (SINK_CLEARANCE, fail-closed; the №845/№874 form; ADR-0210)")
  match verdict with
  | .ok row => (.ok row, [])
  | .error e => (.error e, [⟨"deny.SINK_CLEARANCE", "replay-gate", "decision-trace", e⟩])

/-! ## When a claim passes -/

section

variable {sha256Hex : List Char → String} {claim row : DecisionTrace} {log : DecisionTraceLog}

/-- The claim and the rows can be reconciled. -/
structure Checked (sha256Hex : List Char → String) (claim : DecisionTrace) (log : DecisionTraceLog) : Prop where
  outputs : claim.outputs ≠ []
  rows : ∀ row ∈ log.rows, row.traceDigest = canonicalTraceDigest sha256Hex row ∧ row.outputs ≠ []

/-- The first row with the text of the claim. -/
def sameText (claim : DecisionTrace) (log : DecisionTraceLog) : Option DecisionTrace :=
  log.rows.find? fun row => canonicalTrace row = canonicalTrace claim

theorem checkRow_ok : checkRow sha256Hex row = .ok () ↔
    row.traceDigest = canonicalTraceDigest sha256Hex row ∧ row.outputs ≠ [] := by
  unfold checkRow
  by_cases hdigest : canonicalTraceDigest sha256Hex row = row.traceDigest
  · by_cases houtputs : row.outputs = []
    · simp [hdigest, houtputs]
    · simp [hdigest, houtputs]
  · simp [hdigest, Ne.symm hdigest]

theorem find?_congr {p q : DecisionTrace → Bool} {rows : List DecisionTrace} (h : ∀ row ∈ rows, p row = q row) :
    rows.find? p = rows.find? q := by
  induction rows with
  | nil => rfl
  | cons row rows ih =>
    rw [List.find?_cons, List.find?_cons, h row List.mem_cons_self, ih fun r hr => h r (List.mem_cons_of_mem row hr)]

/-- A claim passes when it can be reconciled and a row has its text; that row is returned. -/
theorem verifyReplay_ok (hinj : Function.Injective sha256Hex) (hclaim : Constructed sha256Hex claim) :
    verifyReplay sha256Hex claim log = .ok row ↔ Checked sha256Hex claim log ∧ sameText claim log = some row := by
  have hdigest := hclaim.wellFormed.digest
  have hfind (hrows : ∀ row ∈ log.rows, row.traceDigest = canonicalTraceDigest sha256Hex row ∧ row.outputs ≠ []) :
      log.rows.find? (fun r => decide (r.traceDigest = claim.traceDigest)) = sameText claim log := by
    refine find?_congr fun r hr => ?_
    rw [(hrows r hr).1, hdigest]
    exact decide_eq_decide.2 ⟨fun h => hinj h, congrArg sha256Hex⟩
  constructor
  · intro h
    unfold verifyReplay at h
    rw [if_neg (not_not.2 hdigest.symm)] at h
    split at h
    · cases h
    · rename_i houtputs
      rw [bind_ok] at h
      obtain ⟨u, hrows, h⟩ := h
      have hchecked : ∀ row ∈ log.rows, row.traceDigest = canonicalTraceDigest sha256Hex row ∧ row.outputs ≠ [] :=
        fun r hr => checkRow_ok.1 (forM_ok.1 hrows r hr)
      rw [hfind hchecked] at h
      split at h
      · rename_i hsome
        cases h
        exact ⟨⟨by simpa using houtputs, hchecked⟩, hsome⟩
      · split at h
        · cases h
        · split at h <;> cases h
  · rintro ⟨hchecked, hsome⟩
    unfold verifyReplay
    rw [if_neg (not_not.2 hdigest.symm), if_neg (by simpa using hchecked.outputs), bind_ok]
    refine ⟨(), forM_ok.2 fun r hr => checkRow_ok.2 (hchecked.rows r hr), ?_⟩
    rw [hfind hchecked.rows, hsome]

theorem replayGate_ok {decision : String} :
    (replayGate sha256Hex decision (some claim) log).1 = .ok row ↔ verifyReplay sha256Hex claim log = .ok row := by
  unfold replayGate
  dsimp only
  split <;> rename_i h <;> simp [h]

/-! ## Soundness -/

/-- What the gate returns is the claim, as the log has it, for the decision asked about. -/
def GateSound (sha256Hex : List Char → String) (decision : String) (claim : DecisionTrace) (log : DecisionTraceLog) :
    Prop :=
  ∀ row, (replayGate sha256Hex decision (some claim) log).1 = .ok row →
    row ∈ log.rows ∧ row.decision = decision ∧ row = claim

/-- A row of the claim's text that cuts it where the claim does is the claim. -/
theorem row_eq_claim (hclaim : Constructed sha256Hex claim) (hchecked : Checked sha256Hex claim log)
    (hrow : sameText claim log = some row) (hcuts : row.cuts = claim.cuts) : row ∈ log.rows ∧ row = claim := by
  have hmem := List.mem_of_find?_eq_some hrow
  have htext : canonicalTrace row = canonicalTrace claim := by simpa using List.find?_some hrow
  refine ⟨hmem, eq_of_cuts htext hcuts ?_⟩
  rw [(hchecked.rows row hmem).1, hclaim.wellFormed.digest, canonicalTraceDigest, canonicalTraceDigest, htext]

/-- The gate is sound exactly when the claim that passes is for the decision asked about, and the row of its text
cuts the text at the same places. -/
theorem gate_sound_iff (hinj : Function.Injective sha256Hex) (decision : String)
    (hclaim : Constructed sha256Hex claim) :
    GateSound sha256Hex decision claim log ↔ (Checked sha256Hex claim log →
      ∀ row, sameText claim log = some row → claim.decision = decision ∧ row.cuts = claim.cuts) := by
  constructor
  · intro h hchecked row hrow
    obtain ⟨-, hdecision, rfl⟩ := h row (replayGate_ok.2 ((verifyReplay_ok hinj hclaim).2 ⟨hchecked, hrow⟩))
    exact ⟨hdecision, rfl⟩
  · intro h row hok
    obtain ⟨hchecked, hrow⟩ := (verifyReplay_ok hinj hclaim).1 (replayGate_ok.1 hok)
    obtain ⟨hdecision, hcuts⟩ := h hchecked row hrow
    obtain ⟨hmem, heq⟩ := row_eq_claim hclaim hchecked hrow hcuts
    exact ⟨hmem, heq ▸ hdecision, heq⟩

end

/-! ## One text, two traces -/

namespace Paid

def input : String := "aaaaaaaaaaaaaaaaaaaaaaaaaaaaaaaaaaaaaaaaaaaaaaaaaaaaaaaaaaaaaaaa"

def output : String := "bbbbbbbbbbbbbbbbbbbbbbbbbbbbbbbbbbbbbbbbbbbbbbbbbbbbbbbbbbbbbbbb"

def text : List Char :=
  [sep].intercalate ["v1".toList, "pay".toList, "local".toList, input.toList, [], [], [], "g1,g2".toList, [], [],
    output.toList, ['7']]

/-- SHA-256 on the text that occurs, and no digest twice. -/
def sha256Hex (s : List Char) : String :=
  if s = text then "880c8fc93428287217feebe554a1c01c0708f374c58b5bc929df0a83141441bb" else String.ofList ('x' :: s)

theorem sha256Hex_injective : Function.Injective sha256Hex := by
  have hhead (s : List Char) : String.ofList ('x' :: s) ≠
      "880c8fc93428287217feebe554a1c01c0708f374c58b5bc929df0a83141441bb" := by
    intro h
    have hchars := congrArg (fun s => s.toList.head?) h
    simp only [String.toList_ofList, List.head?_cons] at hchars
    exact absurd hchars (by decide +kernel)
  intro s s' h
  unfold sha256Hex at h
  split at h
  · split at h
    · simp [*]
    · exact absurd h.symm (hhead s')
  · split at h
    · exact absurd h (hhead s)
    · exact (List.cons.inj (String.ofList_inj.1 h)).2

/-- The trace of one payment, under the grants given. -/
def paid (grants : List String) : DecisionTrace :=
  ⟨"pay", .onLocal, [input], "", "", "", grants, [], [], [output], 7,
    "880c8fc93428287217feebe554a1c01c0708f374c58b5bc929df0a83141441bb"⟩

def recorded : DecisionTrace := paid ["g1,g2"]

def claim : DecisionTrace := paid ["g1", "g2"]

def log : DecisionTraceLog :=
  match DecisionTraceLog.append ⟨[]⟩ recorded with
  | .ok p => p.1
  | .error _ => ⟨[]⟩

theorem recorded_constructed : Constructed sha256Hex recorded :=
  ⟨"pay", .onLocal, [input], "", "", "", ["g1,g2"], [], [], [output], 7, by decide +kernel⟩

theorem claim_constructed : Constructed sha256Hex claim :=
  ⟨"pay", .onLocal, [input], "", "", "", ["g1", "g2"], [], [], [output], 7, by decide +kernel⟩

/-- The row has the text of the claim. -/
theorem same_text : canonicalTrace recorded = canonicalTrace claim := by decide +kernel

theorem sameText_log {t : DecisionTrace} (h : canonicalTrace recorded = canonicalTrace t) :
    sameText t log = some recorded := List.find?_cons_of_pos (decide_eq_true h)

theorem checked : Checked sha256Hex claim log where
  outputs := List.cons_ne_nil _ _
  rows := fun row hrow => by
    obtain rfl : row = recorded := List.mem_singleton.1 hrow
    have hwell := recorded_constructed.wellFormed
    exact ⟨hwell.digest, List.cons_ne_nil _ _⟩

end Paid

theorem gate_sound_iff_paid : GateSound Paid.sha256Hex "pay" Paid.recorded Paid.log := by
  refine (gate_sound_iff Paid.sha256Hex_injective "pay" Paid.recorded_constructed).2 fun _ row hrow => ?_
  obtain rfl := Option.some.inj ((Paid.sameText_log rfl).symm.trans hrow)
  exact ⟨rfl, rfl⟩

/-- Asked about a refund, the gate returns a payment that was made under another grant. -/
theorem gate_returns_another :
    Function.Injective Paid.sha256Hex ∧ Constructed Paid.sha256Hex Paid.claim ∧
      (replayGate Paid.sha256Hex "refund" (some Paid.claim) Paid.log).1 = .ok Paid.recorded ∧
      Paid.recorded.decision ≠ "refund" ∧ Paid.recorded.grants ≠ Paid.claim.grants :=
  ⟨Paid.sha256Hex_injective, Paid.claim_constructed,
    replayGate_ok.2 ((verifyReplay_ok Paid.sha256Hex_injective Paid.claim_constructed).2
      ⟨Paid.checked, Paid.sameText_log Paid.same_text⟩), by decide, by decide⟩

end Metalogos.Decision
