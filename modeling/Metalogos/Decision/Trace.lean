import Metalogos.Approval.Mandate
import Metalogos.Lib.Text
import Mathlib.Data.List.Destutter
import Mathlib.Data.List.Sort

/-!
# Decision traces

`src/decision_trace.rs`: the trace of one decision, its constructor, and the canonical text that its digest is
taken over. The text joins lists with commas and fields with the unit separator, and the constructor excludes
neither from the names it is given. So the text alone does not say where it was cut: two traces with one text
are the same trace when they cut it at the same places (`eq_of_cuts`).
-/
namespace Metalogos.Decision

open Metalogos.Lib
open Metalogos.Approval (Reason)

/-- mirrors src/decision_trace.rs:36 -/
def sep : Char := '\x1f'

/-- `onLocal` is `Local`.
mirrors src/decision_trace.rs:49-52 -/
inductive DecisionCarrier where
  | language
  | onLocal
  deriving DecidableEq, Repr

/-- mirrors src/decision_trace.rs:55-60 -/
def DecisionCarrier.asStr : DecisionCarrier → String
  | .language => "language"
  | .onLocal => "local"

def isLowerHex (c : Char) : Bool := c.isDigit || ('a' ≤ c && c ≤ 'f')

/-- A string of 64 such characters has 64 bytes.
mirrors src/decision_trace.rs:66-69 -/
def isSha256Hex (s : String) : Bool := s.toList.length == 64 && s.toList.all isLowerHex

/-- mirrors src/decision_trace.rs:76-109 -/
structure DecisionTrace where
  decision : String
  carrier : DecisionCarrier
  inputs : List String
  contractName : String
  modelVersion : String
  providerVersion : String
  grants : List String
  refusals : List String
  degradations : List String
  outputs : List String
  ts : UInt64
  traceDigest : String
  deriving DecidableEq, Repr

/-! ## The canonical text -/

/-- `join(",")`. -/
def joinComma (l : List String) : List Char := [','].intercalate (l.map String.toList)

/-- mirrors src/decision_trace.rs:215-231 -/
def canonicalTrace (t : DecisionTrace) : List Char :=
  [sep].intercalate
    ["v1".toList, t.decision.toList, t.carrier.asStr.toList, joinComma t.inputs, t.contractName.toList,
      t.modelVersion.toList, t.providerVersion.toList, joinComma t.grants, joinComma t.refusals,
      joinComma t.degradations, joinComma t.outputs, Nat.toDigits 10 t.ts.toNat]

/-- mirrors src/decision_trace.rs:235-242 -/
def canonicalTraceDigest (sha256Hex : List Char → String) (t : DecisionTrace) : String :=
  sha256Hex (canonicalTrace t)

/-! ## The constructor -/

/-- `trim().is_empty()`. -/
def blank (s : String) : Bool := (trim s.toList).isEmpty

/-- `sort` and `dedup`. -/
def sortDedup (l : List String) : List String := (l.insertionSort (· ≤ ·)).destutter (· ≠ ·)

/-- mirrors src/decision_trace.rs:119-209 -/
def DecisionTrace.new (sha256Hex : List Char → String) (decision : String) (carrier : DecisionCarrier)
    (inputs : List String) (contractName modelVersion providerVersion : String)
    (grants refusals degradations outputs : List String) (ts : UInt64) : Except String DecisionTrace :=
  if blank decision then
    .error "decision trace: the decision name is empty — a trace names its decision"
  else if inputs.isEmpty then
    .error ("decision trace: '" ++ decision ++
      "' has no input digests — a trace without consumed inputs is not a trace (fail-closed, ADR-0210)")
  else if !inputs.all isSha256Hex then
    .error ("decision trace: '" ++ decision ++ "' carries an input that is not a SHA-256 digest — raw payloads " ++
      "never enter the trace (the privacy boundary, ADR-0210 §6)")
  else if !outputs.all isSha256Hex then
    .error ("decision trace: '" ++ decision ++ "' carries an output that is not a SHA-256 digest — raw payloads " ++
      "never enter the trace (the privacy boundary, ADR-0210 §6)")
  else if carrier = .language ∧ blank contractName then
    .error ("decision trace: '" ++ decision ++ "' runs on the language carrier without a contract name — the №879 " ++
      "version line is mandatory on the LLM carrier (fail-closed)")
  else if carrier = .language ∧ (blank modelVersion ∨ blank providerVersion) then
    .error ("decision trace: '" ++ decision ++ "' runs on the language carrier without the model/provider versions " ++
      "— a decision that consumed a model names the versions it consumed (№879, fail-closed)")
  else if grants.any blank then
    .error ("decision trace: '" ++ decision ++
      "' carries an empty grant reference — a grant line names the grant (ADR-0155)")
  else
    let refusalsSorted := sortDedup refusals
    match refusalsSorted.find? fun w => (Reason.parse w).isNone with
    | some w =>
      .error ("decision trace: '" ++ decision ++ "' records refusal '" ++ w ++
        "' outside the frozen vocabulary — the №385 set does not grow (fail-closed)")
    | none =>
      if degradations.any blank then
        .error ("decision trace: '" ++ decision ++
          "' carries an empty degradation marker — a Degraded(t) record names its subject")
      else
        let trace : DecisionTrace := ⟨decision, carrier, inputs, contractName, modelVersion, providerVersion, grants,
          refusalsSorted, degradations, outputs, ts, ""⟩
        .ok { trace with traceDigest := canonicalTraceDigest sha256Hex trace }

/-- A trace that the constructor returned. -/
def Constructed (sha256Hex : List Char → String) (t : DecisionTrace) : Prop :=
  ∃ decision carrier inputs contractName modelVersion providerVersion grants refusals degradations outputs ts,
    DecisionTrace.new sha256Hex decision carrier inputs contractName modelVersion providerVersion grants refusals
      degradations outputs ts = .ok t

/-- What the constructor makes sure of. -/
structure WellFormed (sha256Hex : List Char → String) (t : DecisionTrace) : Prop where
  digest : t.traceDigest = canonicalTraceDigest sha256Hex t
  inputs : ∀ d ∈ t.inputs, isSha256Hex d = true
  outputs : ∀ d ∈ t.outputs, isSha256Hex d = true
  grants : ∀ g ∈ t.grants, blank g = false
  refusals : ∀ w ∈ t.refusals, (Reason.parse w).isSome = true
  degradations : ∀ m ∈ t.degradations, blank m = false

variable {sha256Hex : List Char → String} {t t' : DecisionTrace}

theorem Constructed.wellFormed (h : Constructed sha256Hex t) : WellFormed sha256Hex t := by
  obtain ⟨decision, carrier, inputs, contractName, modelVersion, providerVersion, grants, refusals, degradations,
    outputs, ts, h⟩ := h
  unfold DecisionTrace.new at h
  dsimp only at h
  split at h
  · cases h
  split at h
  · cases h
  split at h
  · cases h
  split at h
  · cases h
  split at h
  · cases h
  split at h
  · cases h
  split at h
  · cases h
  split at h
  · cases h
  split at h
  · cases h
  rename_i _ _ hinputs houtputs _ _ hgrants _ hrefusals hdegradations
  cases h
  constructor
  · rfl
  · simpa using hinputs
  · simpa using houtputs
  · simpa using hgrants
  · intro w hw
    simpa [Option.isSome_iff_ne_none] using List.find?_eq_none.1 hrefusals w hw
  · simpa using hdegradations

/-! ## Where the text is cut -/

/-- The fields, each as the texts it is joined from. -/
def DecisionTrace.fields (t : DecisionTrace) : List (List (List Char)) :=
  [["v1".toList], [t.decision.toList], [t.carrier.asStr.toList], t.inputs.map String.toList,
    [t.contractName.toList], [t.modelVersion.toList], [t.providerVersion.toList], t.grants.map String.toList,
    t.refusals.map String.toList, t.degradations.map String.toList, t.outputs.map String.toList,
    [Nat.toDigits 10 t.ts.toNat]]

theorem canonicalTrace_eq (t : DecisionTrace) :
    canonicalTrace t = [sep].intercalate (t.fields.map [','].intercalate) := by
  simp only [canonicalTrace, DecisionTrace.fields, joinComma, List.map_cons, List.map_nil, List.intercalate_singleton]

/-- The lengths of the pieces of every field. -/
def DecisionTrace.cuts (t : DecisionTrace) : List (List Nat) := t.fields.map (·.map List.length)

theorem asStr_inj {c c' : DecisionCarrier} (h : c.asStr = c'.asStr) : c = c' := by
  cases c <;> cases c' <;> first | rfl | exact absurd h (by decide)

theorem toDigits_inj {n m : Nat} (h : Nat.toDigits 10 n = Nat.toDigits 10 m) : n = m := by
  rw [← Nat.ofDigitChars_ten_toDigits (n := n), h, Nat.ofDigitChars_ten_toDigits]

theorem map_toList_inj {l l' : List String} (h : l.map String.toList = l'.map String.toList) : l = l' :=
  List.map_injective_iff.2 (fun _ _ => String.toList_inj.1) h

theorem eq_of_fields (h : t.fields = t'.fields) (hdigest : t.traceDigest = t'.traceDigest) : t = t' := by
  simp only [DecisionTrace.fields, List.cons.injEq, and_true, true_and, String.toList_inj] at h
  obtain ⟨hdecision, hcarrier, hinputs, hcontract, hmodel, hprovider, hgrants, hrefusals, hdegradations, houtputs, hts⟩ := h
  obtain ⟨decision, carrier, inputs, contractName, modelVersion, providerVersion, grants, refusals, degradations,
    outputs, ts, traceDigest⟩ := t
  rw [DecisionTrace.mk.injEq]
  exact ⟨hdecision, asStr_inj hcarrier, map_toList_inj hinputs, hcontract, hmodel, hprovider, map_toList_inj hgrants,
    map_toList_inj hrefusals, map_toList_inj hdegradations, map_toList_inj houtputs,
    UInt64.toNat_inj.1 (toDigits_inj hts), hdigest⟩

theorem length_joined {fs fs' : List (List (List Char))}
    (hcuts : fs.map (·.map List.length) = fs'.map (·.map List.length)) :
    (fs.map [','].intercalate).map List.length = (fs'.map [','].intercalate).map List.length := by
  induction fs generalizing fs' with
  | nil =>
    obtain rfl : fs' = [] := by simpa using hcuts.symm
    rfl
  | cons f fs ih =>
    cases fs' with
    | nil => cases hcuts
    | cons f' fs' =>
      obtain ⟨hf, hfs⟩ := List.cons.inj hcuts
      simp only [List.map_cons, ih hfs, length_intercalate hf]

theorem joined_inj {fs fs' : List (List (List Char))}
    (hcuts : fs.map (·.map List.length) = fs'.map (·.map List.length))
    (h : fs.map [','].intercalate = fs'.map [','].intercalate) : fs = fs' := by
  induction fs generalizing fs' with
  | nil => simpa using h.symm
  | cons f fs ih =>
    cases fs' with
    | nil => cases h
    | cons f' fs' =>
      obtain ⟨hf, hfs⟩ := List.cons.inj hcuts
      obtain ⟨hjoin, hjoins⟩ := List.cons.inj h
      rw [intercalate_inj hf hjoin, ih hfs hjoins]

/-- Traces with one text that cut it at the same places are the same. -/
theorem eq_of_cuts (htext : canonicalTrace t = canonicalTrace t') (hcuts : t.cuts = t'.cuts)
    (hdigest : t.traceDigest = t'.traceDigest) : t = t' := by
  rw [canonicalTrace_eq, canonicalTrace_eq] at htext
  have hpieces := intercalate_inj (length_joined hcuts) htext
  exact eq_of_fields (joined_inj hcuts hpieces) hdigest

end Metalogos.Decision
