import Mathlib.Data.List.Chain
import Metalogos.Ledger.Threads

/-!
# Sequence numbers as machine integers, and archiving

`Verify.lean` counts sequence numbers without a bound. In the code they are `u64`, and the round of
the verifier ends with `expected_seq = r.seq + 1`: a panic in a build with overflow checks, a wrap
to 0 in a release build. `verifyRecordsU64` is the verifier with that addition; a chain that is
anchored at a snapshot may start at any number.

Acceptance is read as a property of the records alone: each is valid by itself (`SelfValid`) and
follows the one before it (`Follows`). From that:
* `verify_seq_iff`: the addition stays in range, and accepted records are numbered in order, exactly
  when no well-formed start of the chain ends in a record with the last number.
* `archive_iff`: a snapshot of an accepted chain can be archived at exactly when its number is not
  0, which only a wrapped chain has.
-/
namespace Metalogos.Ledger

open Metalogos.Lib

/-- `u64::MAX`. -/
def maxSeq : Nat := 2 ^ 64 - 1

/-- How the program was built: with overflow checks or without. -/
inductive Build where
  | checked | wrapping
  deriving DecidableEq

/-- `seq + 1` on `u64`; `none` is the panic. -/
def Build.succ (b : Build) (seq : Nat) : Option Nat :=
  if seq < maxSeq then some (seq + 1)
  else match b with
    | .checked => none
    | .wrapping => some 0

section

variable (C : Crypto) (J : Json) (b : Build)

/-- One round of the loop with its last statement; `none` is the panic.
mirrors src/ledger.rs:728-824 -/
def checkRecordU64 (st : VState) (n : Nat) (r : LedgerRecord) : Option (Except VerifyFault VState) :=
  match checkRecord C J st n r with
  | .error f => some (.error f)
  | .ok st' => (b.succ r.seq).map fun s => .ok { st' with seq := s }

def verifyLoopU64 : VState → Nat → List LedgerRecord → Option (Except VerifyFault VState)
  | st, _, [] => some (.ok st)
  | st, n, r :: rs =>
    match checkRecordU64 C J b st n r with
    | none => none
    | some (.error f) => some (.error f)
    | some (.ok st') => verifyLoopU64 st' (n + 1) rs

/-- The hash of the last record. -/
def lastHash (records : List LedgerRecord) : String := (records.getLast?.map (·.hash)).getD ""

/-- mirrors src/ledger.rs:671-844 -/
def verifyRecordsU64 (records : List LedgerRecord) (expectHead expectKey : Option String) :
    Option (Except VerifyFault VerifyReport) :=
  match records with
  | [] => some (.error ⟨none, "ledger is empty: no records to verify"⟩)
  | first :: rest =>
    match startRule first with
    | .error f => some (.error f)
    | .ok () =>
      match checkKey first expectKey with
      | .error f => some (.error f)
      | .ok () =>
        (verifyLoopU64 C J b ⟨first.pubkey, [first.keyId], first.prevHash, first.seq⟩ 1 (first :: rest)).map
          fun
          | .error f => .error f
          | .ok st => (checkHead (lastHash (first :: rest)) expectHead).map fun () =>
              { schemaVersion := 1, records := (first :: rest).length, headHash := lastHash (first :: rest),
                distinctKeys := st.keys.length, anchoredStart := decide (first.kind = "snapshot") }

/-- The snapshot `archive_file` looks for, and all that comes after it.
mirrors src/ledger.rs:999-1010 -/
def archiveSlice (records : List LedgerRecord) (atSeq : Nat) : Option (List LedgerRecord) :=
  (records.findIdx? fun r => r.seq = atSeq ∧ r.kind = "snapshot").map records.drop

/-- The report and what is written to `output`; `input` is in a message only.
mirrors src/ledger.rs:985-1025 -/
def archiveRecords (input : String) (records : List LedgerRecord) (atSeq : Nat) :
    Option (Except String (VerifyReport × String)) :=
  match archiveSlice records atSeq with
  | none => some (.error ("no snapshot record with seq " ++ toString atSeq ++ " in " ++ input
      ++ " (archive anchors only at snapshot records)"))
  | some slice => (verifyRecordsU64 C J b slice none none).map fun
    | .error f => .error ("archived slice does not verify: " ++ f.text)
    | .ok report => .ok (report, recordsToJsonl J slice)

end

/-! ## What acceptance says about the records -/

/-- The key that signs the next record. -/
def LedgerRecord.nextKey (r : LedgerRecord) : String :=
  if r.kind = "key_rotation" then r.newPubkey else r.pubkey

/-- What the verifier asks of a record by itself. -/
structure SelfValid (C : Crypto) (J : Json) (r : LedgerRecord) : Prop where
  hash : recordHash C J r = r.hash
  keyId : (keyIdOf C r.pubkey).getD "" = r.keyId
  signature : checkSignature C 0 r = .ok ()
  kind : r.kind = "key_rotation" ∧ r.newPubkey ≠ "" ∨
    (r.kind = "action" ∨ r.kind = "snapshot") ∧ r.newPubkey = ""

/-- What it asks of two neighbours. -/
structure Follows (succ : Nat → Option Nat) (r next : LedgerRecord) : Prop where
  seq : succ r.seq = some next.seq
  prevHash : next.prevHash = r.hash
  signer : next.pubkey = r.nextKey

/-- What it asks of a record in the state it is in. -/
structure Expects (st : VState) (r : LedgerRecord) : Prop where
  seq : r.seq = st.seq
  prevHash : r.prevHash = st.prev
  signer : r.pubkey = st.active

section

variable {C : Crypto} {J : Json} {b : Build} {st st' : VState} {n : Nat} {r : LedgerRecord}

/-- The position is in the fault only. -/
theorem checkSignature_ok (n m : Nat) (h : checkSignature C n r = .ok ()) : checkSignature C m r = .ok () := by
  unfold checkSignature at h ⊢
  cases hs : decodeExact 64 r.sig with
  | none => simp [hs] at h
  | some sig =>
    cases hk : decodeExact 32 r.pubkey with
    | none => simp [hs, hk] at h
    | some vk =>
      simp only [hs, hk] at h ⊢
      split_ifs at h ⊢
      rfl

theorem advance_ok_iff : (∃ st', advance C st n r = .ok st') ↔ r.kind = "key_rotation" ∧ r.newPubkey ≠ "" ∨
    (r.kind = "action" ∨ r.kind = "snapshot") ∧ r.newPubkey = "" := by
  unfold advance
  by_cases hrot : r.kind = "key_rotation" <;> by_cases hnew : r.newPubkey = "" <;>
    by_cases hact : r.kind = "action" <;> by_cases hsnap : r.kind = "snapshot" <;> simp_all

theorem checkRecord_ok_iff : (∃ st', checkRecord C J st n r = .ok st') ↔ Expects st r ∧ SelfValid C J r := by
  constructor
  · rintro ⟨st', h⟩
    obtain ⟨hhash, hprev, hseq, hkey, hadv⟩ := checkRecord_ok h
    unfold checkRecord at h
    split_ifs at h with _ _ _ hid
    cases hsig : checkSignature C n r with
    | error f =>
      rw [hsig] at h
      cases h
    | ok u => exact ⟨⟨hseq, hprev, hkey⟩, hhash, not_not.1 hid, checkSignature_ok n 0 hsig, advance_ok_iff.1 ⟨st', hadv⟩⟩
  · rintro ⟨⟨hseq, hprev, hkey⟩, hhash, hid, hsig, hkind⟩
    have hok : ∃ st', advance C st n r = .ok st' := advance_ok_iff.2 hkind
    obtain ⟨st', hadv⟩ := hok
    refine ⟨st', ?_⟩
    unfold checkRecord
    rw [if_neg (not_not.2 hseq), if_neg (not_not.2 hprev), if_neg (not_not.2 hhash), if_neg (not_not.2 hid),
      if_neg (not_not.2 hkey), checkSignature_ok 0 n hsig]
    exact hadv

theorem checkRecordU64_ok (h : checkRecordU64 C J b st n r = some (.ok st')) : Expects st r ∧ SelfValid C J r ∧
    b.succ r.seq = some st'.seq ∧ st'.prev = r.hash ∧ st'.active = r.nextKey := by
  unfold checkRecordU64 at h
  cases hc : checkRecord C J st n r with
  | error f => simp [hc] at h
  | ok st₁ =>
    obtain ⟨hexp, hself⟩ := checkRecord_ok_iff.1 ⟨st₁, hc⟩
    obtain ⟨-, -, -, hkey, hadv⟩ := checkRecord_ok hc
    rw [hc] at h
    obtain ⟨s, hs, hst⟩ := Option.map_eq_some_iff.1 h
    cases hst
    refine ⟨hexp, hself, hs, (advance_ok hadv).1, ?_⟩
    show st₁.active = _
    rw [advance_active hadv, LedgerRecord.nextKey, hkey]

/-- A round fails, overflows, or goes on. -/
theorem checkRecordU64_cases (C : Crypto) (J : Json) (b : Build) (st : VState) (n : Nat) (r : LedgerRecord) :
    (¬ (Expects st r ∧ SelfValid C J r) ∧ ∃ f, checkRecordU64 C J b st n r = some (.error f)) ∨
    (Expects st r ∧ SelfValid C J r ∧ b.succ r.seq = none ∧ checkRecordU64 C J b st n r = none) ∨
    ∃ st', checkRecordU64 C J b st n r = some (.ok st') := by
  unfold checkRecordU64
  cases hc : checkRecord C J st n r with
  | error f =>
    left
    refine ⟨fun h => ?_, f, rfl⟩
    obtain ⟨st', h'⟩ := checkRecord_ok_iff.2 h
    rw [hc] at h'
    cases h'
  | ok st₁ =>
    right
    obtain ⟨hexp, hself⟩ := checkRecord_ok_iff.1 ⟨st₁, hc⟩
    cases hs : b.succ r.seq with
    | none => exact .inl ⟨hexp, hself, rfl, rfl⟩
    | some s => exact .inr ⟨_, rfl⟩

theorem Expects.of_follows (hst : b.succ r.seq = some st'.seq ∧ st'.prev = r.hash ∧ st'.active = r.nextKey)
    {next : LedgerRecord} : Expects st' next ↔ Follows b.succ r next := by
  obtain ⟨hs, hp, ha⟩ := hst
  constructor
  · rintro ⟨hseq, hprev, hkey⟩
    exact ⟨by rw [hs, hseq], by rw [hprev, hp], by rw [hkey, ha]⟩
  · rintro ⟨hseq, hprev, hkey⟩
    exact ⟨by rw [hs] at hseq; exact (Option.some.inj hseq).symm, by rw [hprev, hp], by rw [hkey, ha]⟩

end

/-- The records form a chain in a build. -/
structure Chain (C : Crypto) (J : Json) (b : Build) (rs : List LedgerRecord) : Prop where
  self : ∀ r ∈ rs, SelfValid C J r
  follows : rs.IsChain (Follows b.succ)

section

variable {C : Crypto} {J : Json} {b : Build}

theorem chain_cons {r : LedgerRecord} {rs : List LedgerRecord} : Chain C J b (r :: rs) ↔
    SelfValid C J r ∧ Chain C J b rs ∧ ∀ next ∈ rs.head?, Follows b.succ r next := by
  constructor
  · rintro ⟨hself, hfol⟩
    obtain ⟨hr, hrs⟩ := List.isChain_cons.1 hfol
    exact ⟨hself r List.mem_cons_self, ⟨fun x hx => hself x (List.mem_cons_of_mem r hx), hrs⟩, hr⟩
  · rintro ⟨hr, ⟨hself, hrs⟩, hfol⟩
    exact ⟨List.forall_mem_cons.2 ⟨hr, hself⟩, List.isChain_cons.2 ⟨hfol, hrs⟩⟩

theorem Chain.suffix {rs rs' : List LedgerRecord} (h : Chain C J b rs) (hs : rs' <:+ rs) : Chain C J b rs' :=
  ⟨fun r hr => h.self r (hs.subset hr), h.follows.suffix hs⟩

/-- The loop accepts exactly the chains that start as expected and stay in range. -/
theorem verifyLoopU64_ok_iff {rs : List LedgerRecord} : ∀ {st : VState} {n : Nat},
    (∃ st', verifyLoopU64 C J b st n rs = some (.ok st')) ↔
      Chain C J b rs ∧ (∀ r ∈ rs, (b.succ r.seq).isSome) ∧ ∀ r ∈ rs.head?, Expects st r := by
  induction rs with
  | nil =>
    intro st n
    simp only [verifyLoopU64]
    exact ⟨fun _ => ⟨⟨by simp, List.isChain_nil⟩, by simp, by simp⟩, fun _ => ⟨st, rfl⟩⟩
  | cons r rs ih =>
    intro st n
    rw [chain_cons, List.forall_mem_cons]
    unfold verifyLoopU64
    rcases checkRecordU64_cases C J b st n r with ⟨hno, f, hf⟩ | ⟨-, -, hs, hnone⟩ | ⟨st₁, hok⟩
    · rw [hf]
      constructor
      · rintro ⟨_, h⟩
        cases h
      · rintro ⟨⟨hself, -⟩, -, hexp⟩
        exact absurd ⟨hexp r (by simp), hself⟩ hno
    · rw [hnone]
      constructor
      · rintro ⟨_, h⟩
        cases h
      · rintro ⟨-, ⟨h, -⟩, -⟩
        rw [hs] at h
        cases h
    · obtain ⟨hexp, hself, hst⟩ := checkRecordU64_ok hok
      have hhead : (∀ x ∈ rs.head?, Expects st₁ x) ↔ ∀ x ∈ rs.head?, Follows b.succ r x :=
        forall₂_congr fun x _ => Expects.of_follows hst
      simp only [hok]
      rw [ih, hhead]
      constructor
      · rintro ⟨hch, hin, hfol⟩
        refine ⟨⟨hself, hch, hfol⟩, ⟨by rw [hst.1]; rfl, hin⟩, fun x hx => ?_⟩
        obtain rfl : r = x := by simpa using hx
        exact hexp
      · rintro ⟨⟨-, hch, hfol⟩, ⟨-, hin⟩, -⟩
        exact ⟨hch, hin, hfol⟩

/-- The loop panics exactly where a chain that starts as expected reaches a record out of range. -/
theorem verifyLoopU64_none_iff {rs : List LedgerRecord} : ∀ {st : VState} {n : Nat},
    verifyLoopU64 C J b st n rs = none ↔ ∃ p r q, rs = p ++ r :: q ∧ Chain C J b (p ++ [r]) ∧
      (∀ x ∈ (p ++ [r]).head?, Expects st x) ∧ b.succ r.seq = none := by
  induction rs with
  | nil =>
    intro st n
    simp [verifyLoopU64]
  | cons x xs ih =>
    intro st n
    unfold verifyLoopU64
    rcases checkRecordU64_cases C J b st n x with ⟨hno, f, hf⟩ | ⟨hexp, hself, hs, hnone⟩ | ⟨st₁, hok⟩
    · rw [hf]
      constructor
      · intro h
        cases h
      · rintro ⟨p, r, q, heq, hch, hexp, -⟩
        have hx : x ∈ (p ++ [r]).head? := by cases p <;> simp_all
        exact absurd ⟨hexp x hx, hch.self x (List.mem_of_mem_head? hx)⟩ hno
    · rw [hnone]
      refine ⟨fun _ => ⟨[], x, xs, rfl, ?_, ?_, hs⟩, fun _ => rfl⟩
      · exact ⟨by simpa using hself, List.isChain_singleton x⟩
      · simpa using hexp
    · obtain ⟨hexp, hself, hst⟩ := checkRecordU64_ok hok
      simp only [hok]
      rw [ih]
      constructor
      · rintro ⟨p, r, q, rfl, hch, hhead, hnone⟩
        refine ⟨x :: p, r, q, rfl, ?_, by simpa using hexp, hnone⟩
        exact chain_cons.2 ⟨hself, hch, fun y hy => (Expects.of_follows hst).1 (hhead y hy)⟩
      · rintro ⟨p, r, q, heq, hch, hhead, hnone⟩
        cases p with
        | nil =>
          obtain ⟨rfl, -⟩ := List.cons.inj heq
          rw [hst.1] at hnone
          cases hnone
        | cons y p =>
          obtain ⟨rfl, rfl⟩ := List.cons.inj heq
          obtain ⟨-, hrest, hfol⟩ := chain_cons.1 hch
          exact ⟨p, r, q, rfl, hrest, fun y hy => (Expects.of_follows hst).2 (hfol y hy), hnone⟩

/-! ## The verifier as a whole -/

/-- The checks before the loop. -/
def Opens (first : LedgerRecord) (key : Option String) : Prop :=
  startRule first = .ok () ∧ checkKey first key = .ok ()

variable {eh ek : Option String} {first : LedgerRecord} {rest : List LedgerRecord}

theorem verifyRecordsU64_opens (h : Opens first ek) : verifyRecordsU64 C J b (first :: rest) eh ek =
    (verifyLoopU64 C J b ⟨first.pubkey, [first.keyId], first.prevHash, first.seq⟩ 1 (first :: rest)).map
      fun
      | .error f => .error f
      | .ok st => (checkHead (lastHash (first :: rest)) eh).map fun () =>
          { schemaVersion := 1, records := (first :: rest).length, headHash := lastHash (first :: rest),
            distinctKeys := st.keys.length, anchoredStart := decide (first.kind = "snapshot") } := by
  unfold verifyRecordsU64
  simp only [h.1, h.2]

theorem verifyRecordsU64_not_opens (h : ¬ Opens first ek) :
    ∃ f, verifyRecordsU64 C J b (first :: rest) eh ek = some (.error f) := by
  unfold verifyRecordsU64
  cases hs : startRule first with
  | error f => exact ⟨f, by simp only [hs]⟩
  | ok u =>
    cases hk : checkKey first ek with
    | error f => exact ⟨f, by simp only [hs, hk]⟩
    | ok u => exact absurd ⟨hs, hk⟩ h

theorem Expects.start {x : LedgerRecord} {keys : List String} (hx : x ∈ (first :: rest).head?) :
    Expects ⟨first.pubkey, keys, first.prevHash, first.seq⟩ x := by
  obtain rfl : first = x := by simpa using hx
  exact ⟨rfl, rfl, rfl⟩

/-- A chain of the right start and in range is accepted, and nothing else is. -/
theorem verifyRecordsU64_ok_iff : (∃ report, verifyRecordsU64 C J b (first :: rest) eh ek = some (.ok report)) ↔
    Opens first ek ∧ checkHead (lastHash (first :: rest)) eh = .ok () ∧ Chain C J b (first :: rest) ∧
      ∀ r ∈ first :: rest, (b.succ r.seq).isSome := by
  by_cases ho : Opens first ek
  · rw [verifyRecordsU64_opens ho]
    constructor
    · rintro ⟨report, h⟩
      obtain ⟨res, hl, hres⟩ := Option.map_eq_some_iff.1 h
      cases res with
      | error f => cases hres
      | ok st' =>
        obtain ⟨hch, hin, -⟩ := verifyLoopU64_ok_iff.1 ⟨st', hl⟩
        cases hh : checkHead (lastHash (first :: rest)) eh with
        | error f =>
          rw [hh] at hres
          cases hres
        | ok u => exact ⟨ho, rfl, hch, hin⟩
    · rintro ⟨-, hh, hch, hin⟩
      obtain ⟨st', hl⟩ := verifyLoopU64_ok_iff.2 ⟨hch, hin, fun x hx => Expects.start hx⟩
      rw [hl, Option.map_some, hh]
      exact ⟨_, rfl⟩
  · have hfault : ∃ f, verifyRecordsU64 C J b (first :: rest) eh ek = some (.error f) := verifyRecordsU64_not_opens ho
    obtain ⟨f, hf⟩ := hfault
    rw [hf]
    constructor
    · rintro ⟨report, h⟩
      cases h
    · rintro ⟨h, -⟩
      exact absurd h ho

theorem report_eq {report : VerifyReport} (h : verifyRecordsU64 C J b (first :: rest) eh ek = some (.ok report)) :
    report.headHash = lastHash (first :: rest) ∧ report.anchoredStart = decide (first.kind = "snapshot") := by
  obtain ⟨ho, -⟩ := verifyRecordsU64_ok_iff.1 ⟨report, h⟩
  rw [verifyRecordsU64_opens ho] at h
  obtain ⟨res, hl, hres⟩ := Option.map_eq_some_iff.1 h
  cases res with
  | error f => cases hres
  | ok st' =>
    cases hh : checkHead (lastHash (first :: rest)) eh with
    | error f =>
      rw [hh] at hres
      cases hres
    | ok u =>
      rw [hh] at hres
      cases hres
      exact ⟨rfl, rfl⟩

/-- The records have a well-formed start that ends in the last sequence number there is. -/
def ReachesMax (C : Crypto) (J : Json) (ek : Option String) (records : List LedgerRecord) : Prop :=
  ∃ p r q, records = p ++ r :: q ∧ (∀ first ∈ records.head?, Opens first ek) ∧
    Chain C J .checked (p ++ [r]) ∧ maxSeq ≤ r.seq

theorem succ_checked {seq s : Nat} (h : Build.checked.succ seq = some s) : s = seq + 1 := by
  unfold Build.succ at h
  split_ifs at h
  exact (Option.some.inj h).symm

theorem succ_none_iff {seq : Nat} : Build.checked.succ seq = none ↔ maxSeq ≤ seq := by
  unfold Build.succ
  split_ifs with hlt
  · simp [hlt]
  · simpa using hlt

theorem succ_of_lt {seq : Nat} (h : seq < maxSeq) (b : Build) : b.succ seq = some (seq + 1) := if_pos h

theorem verifyRecordsU64_none_iff {records : List LedgerRecord} :
    verifyRecordsU64 C J .checked records eh ek = none ↔ ReachesMax C J ek records := by
  cases records with
  | nil => simp [verifyRecordsU64, ReachesMax]
  | cons first rest =>
    by_cases ho : Opens first ek
    · rw [verifyRecordsU64_opens ho, Option.map_eq_none_iff, verifyLoopU64_none_iff]
      constructor
      · rintro ⟨p, r, q, heq, hch, -, hnone⟩
        exact ⟨p, r, q, heq, by simpa using ho, hch, succ_none_iff.1 hnone⟩
      · rintro ⟨p, r, q, heq, -, hch, hmax⟩
        refine ⟨p, r, q, heq, hch, fun x hx => ?_, succ_none_iff.2 hmax⟩
        have hfirst : x ∈ (first :: rest).head? := by
          rw [heq]
          cases p <;> simpa using hx
        exact Expects.start hfirst
    · have hfault : ∃ f, verifyRecordsU64 C J .checked (first :: rest) eh ek = some (.error f) :=
        verifyRecordsU64_not_opens ho
      obtain ⟨f, hf⟩ := hfault
      rw [hf]
      constructor
      · intro h
        cases h
      · rintro ⟨p, r, q, -, hopen, -⟩
        exact absurd (hopen first rfl) ho

/-- Below the last number every build counts alike. -/
theorem Chain.of_lt {rs : List LedgerRecord} (h : Chain C J b rs) (hlt : ∀ r ∈ rs, r.seq < maxSeq) (b' : Build) :
    Chain C J b' rs := by
  refine ⟨h.self, h.follows.imp_of_mem_imp fun r next hr _ hf => ⟨?_, hf.prevHash, hf.signer⟩⟩
  rw [← hf.seq, succ_of_lt (hlt r hr), succ_of_lt (hlt r hr)]

/-- The first record with the last number, if there is one, is reached in a checked build too. -/
theorem Chain.reaches {rs : List LedgerRecord} (h : Chain C J b rs) :
    (∃ p r q, rs = p ++ r :: q ∧ Chain C J .checked (p ++ [r]) ∧ maxSeq ≤ r.seq) ∨ ∀ r ∈ rs, r.seq < maxSeq := by
  induction rs with
  | nil => exact .inr (by simp)
  | cons r rs ih =>
    obtain ⟨hr, hrs, hfol⟩ := chain_cons.1 h
    by_cases hmax : maxSeq ≤ r.seq
    · exact .inl ⟨[], r, rs, rfl, ⟨by simpa using hr, List.isChain_singleton r⟩, hmax⟩
    · have hlt : r.seq < maxSeq := not_le.1 hmax
      rcases ih hrs with ⟨p, r', q, rfl, hch, hmax'⟩ | hall
      · refine .inl ⟨r :: p, r', q, rfl, chain_cons.2 ⟨hr, hch, fun next hnext => ?_⟩, hmax'⟩
        have hf : Follows b.succ r next := hfol next (by cases p <;> simpa using hnext)
        exact ⟨by rw [← hf.seq, succ_of_lt hlt, succ_of_lt hlt], hf.prevHash, hf.signer⟩
      · exact .inr (List.forall_mem_cons.2 ⟨hlt, hall⟩)

theorem Chain.seq_eq {i : Nat} : ∀ {first r : LedgerRecord} {rest : List LedgerRecord},
    Chain C J .checked (first :: rest) → (first :: rest)[i]? = some r → r.seq = first.seq + i := by
  induction i with
  | zero =>
    intro first r rest _ hr
    obtain rfl : first = r := by simpa using hr
    rfl
  | succ i ih =>
    intro first r rest h hr
    obtain ⟨-, hrest, hfol⟩ := chain_cons.1 h
    cases rest with
    | nil => simp at hr
    | cons next rest =>
      have hnext := succ_checked (hfol next rfl).seq
      have := ih hrest (by simpa using hr)
      omega

/-! ## Below the last number -/

theorem verifyLoopU64_of_lt {rs : List LedgerRecord} : ∀ {st : VState} {n : Nat}, (∀ r ∈ rs, r.seq < maxSeq) →
    verifyLoopU64 C J b st n rs = some (verifyLoop C J st n rs) := by
  induction rs with
  | nil => exact fun _ => rfl
  | cons r rs ih =>
    intro st n hlt
    obtain ⟨hr, hrs⟩ := List.forall_mem_cons.1 hlt
    rw [verifyLoopU64, verifyLoop, checkRecordU64]
    cases hc : checkRecord C J st n r with
    | error f => rfl
    | ok st₁ =>
      obtain ⟨-, -, -, -, hadv⟩ := checkRecord_ok hc
      -- the addition is the one the round without a bound makes
      have hseq : { st₁ with seq := r.seq + 1 } = st₁ := by rw [← (advance_ok hadv).2]
      simp only [succ_of_lt hr, Option.map_some, hseq]
      exact ih hrs

/-- Where no record has the last number, no build differs from the verifier without a bound. -/
theorem verifyRecordsU64_of_lt {records : List LedgerRecord} (hlt : ∀ r ∈ records, r.seq < maxSeq) :
    verifyRecordsU64 C J b records eh ek = some (verifyRecordsStructural C J records eh ek) := by
  cases records with
  | nil => rfl
  | cons first rest =>
    rw [verifyRecordsU64, verifyRecordsStructural]
    cases startRule first with
    | error f => rfl
    | ok u =>
      cases checkKey first ek with
      | error f => rfl
      | ok u =>
        dsimp only
        rw [verifyLoopU64_of_lt hlt, Option.map_some]
        cases verifyLoop C J ⟨first.pubkey, [first.keyId], first.prevHash, first.seq⟩ 1 (first :: rest) with
        | error f => rfl
        | ok st =>
          show some ((checkHead (lastHash (first :: rest)) eh).map _) = _
          cases hh : checkHead (lastHash (first :: rest)) eh with
          | error f =>
            unfold lastHash at hh
            show _ = some (checkHead _ eh >>= _)
            rw [hh]
            rfl
          | ok u =>
            unfold lastHash at hh
            show _ = some (checkHead _ eh >>= _)
            rw [hh]
            rfl

/-- Record `i` has the number of the first one plus `i`. -/
def Numbered (records : List LedgerRecord) : Prop :=
  ∀ first ∈ records.head?, ∀ i r, records[i]? = some r → r.seq = first.seq + i

end

/-- The verifier stays in range, and what it accepts is numbered in order. -/
theorem verify_seq_iff (C : Crypto) (J : Json) (records : List LedgerRecord) (eh ek : Option String) :
    (verifyRecordsU64 C J .checked records eh ek ≠ none ∧
      ∀ b report, verifyRecordsU64 C J b records eh ek = some (.ok report) → Numbered records) ↔
    ¬ ReachesMax C J ek records := by
  constructor
  · rintro ⟨hsome, -⟩ hmax
    exact hsome (verifyRecordsU64_none_iff.2 hmax)
  · intro hmax
    refine ⟨fun h => hmax (verifyRecordsU64_none_iff.1 h), fun b report h first hfirst i r hr => ?_⟩
    cases records with
    | nil => cases hfirst
    | cons a rest =>
      obtain rfl : a = first := by simpa using hfirst
      obtain ⟨ho, -, hch, -⟩ := verifyRecordsU64_ok_iff.1 ⟨report, h⟩
      rcases hch.reaches with ⟨p, r', q, heq, hch', hm⟩ | hlt
      · exact absurd ⟨p, r', q, heq, by simpa using ho, hch', hm⟩ hmax
      · exact (hch.of_lt hlt .checked).seq_eq hr

/-! ## Archiving -/

/-- What a `Vec` of parsed records is: `u64` numbers, and no more than the memory addresses. -/
structure InMemory (records : List LedgerRecord) : Prop where
  seq_le : ∀ r ∈ records, r.seq ≤ maxSeq
  length_le : records.length ≤ 2 ^ 64

section

variable {C : Crypto} {J : Json} {b : Build}

theorem succ_mod {seq s : Nat} (hle : seq ≤ maxSeq) (h : b.succ seq = some s) : s % 2 ^ 64 = (seq + 1) % 2 ^ 64 := by
  unfold Build.succ at h
  unfold maxSeq at h hle
  cases b with
  | checked =>
    split_ifs at h
    obtain rfl := Option.some.inj h
    rfl
  | wrapping =>
    split_ifs at h with hlt
    · obtain rfl := Option.some.inj h
      rfl
    · obtain rfl := Option.some.inj h
      omega

/-- Any build counts modulo the range. -/
theorem Chain.seq_mod {i : Nat} : ∀ {first r : LedgerRecord} {rest : List LedgerRecord},
    Chain C J b (first :: rest) → (∀ x ∈ first :: rest, x.seq ≤ maxSeq) → (first :: rest)[i]? = some r →
      r.seq % 2 ^ 64 = (first.seq + i) % 2 ^ 64 := by
  induction i with
  | zero =>
    intro first r rest _ _ hr
    obtain rfl : first = r := by simpa using hr
    rfl
  | succ i ih =>
    intro first r rest h hle hr
    obtain ⟨-, hrest, hfol⟩ := chain_cons.1 h
    cases rest with
    | nil => simp at hr
    | cons next rest =>
      have hnext := succ_mod (hle first List.mem_cons_self) (hfol next rfl).seq
      have := ih hrest (fun x hx => hle x (List.mem_cons_of_mem first hx)) (by simpa using hr)
      omega

/-- No earlier record has the number of a later one. -/
theorem Chain.seq_ne {p q : List LedgerRecord} {r x : LedgerRecord} (h : Chain C J b (p ++ r :: q))
    (hmem : InMemory (p ++ r :: q)) (hx : x ∈ p) : x.seq ≠ r.seq := by
  intro heq
  obtain ⟨i, hi, rfl⟩ := List.mem_iff_getElem.1 hx
  have hlen : p.length + 1 ≤ 2 ^ 64 := by
    have := hmem.length_le
    rw [List.length_append, List.length_cons] at this
    omega
  cases p with
  | nil => cases hx
  | cons first p =>
    have hi' : ((first :: p) ++ r :: q)[i]? = some (first :: p)[i] := by
      rw [List.getElem?_append_left hi, List.getElem?_eq_getElem hi]
    have hr : ((first :: p) ++ r :: q)[(first :: p).length]? = some r := by simp
    have h₁ := h.seq_mod hmem.seq_le hi'
    have h₂ := h.seq_mod hmem.seq_le hr
    rw [heq] at h₁
    omega

theorem archiveSlice_cons (r : LedgerRecord) (rs : List LedgerRecord) (atSeq : Nat) : archiveSlice (r :: rs) atSeq =
    if r.seq = atSeq ∧ r.kind = "snapshot" then some (r :: rs) else archiveSlice rs atSeq := by
  unfold archiveSlice
  rw [List.findIdx?_cons]
  by_cases hr : r.seq = atSeq ∧ r.kind = "snapshot"
  · simp [hr]
  · rw [if_neg hr, if_neg (by simpa using hr), Option.map_map]
    rfl

/-- The slice starts at the first snapshot of that number. -/
theorem archiveSlice_append {p q : List LedgerRecord} {r : LedgerRecord} (hp : ∀ x ∈ p, x.seq ≠ r.seq)
    (hsnap : r.kind = "snapshot") : archiveSlice (p ++ r :: q) r.seq = some (r :: q) := by
  induction p with
  | nil => rw [List.nil_append, archiveSlice_cons, if_pos ⟨rfl, hsnap⟩]
  | cons x p ih =>
    obtain ⟨hx, hp⟩ := List.forall_mem_cons.1 hp
    rw [List.cons_append, archiveSlice_cons, if_neg fun h => hx h.1, ih hp]

/-- A snapshot that is valid by itself opens a chain unless its number is 0. -/
theorem opens_snapshot_iff {r : LedgerRecord} (hself : SelfValid C J r) (hsnap : r.kind = "snapshot") :
    Opens r none ↔ r.seq ≠ 0 := by
  have hpub : r.pubkey ≠ "" := by
    intro h
    have hsig := hself.signature
    have hnone : decodeExact 32 "" = none := by simp [decodeExact, decodeHex32Plus]
    unfold checkSignature at hsig
    rw [h, hnone] at hsig
    cases hd : decodeExact 64 r.sig <;> simp [hd] at hsig
  unfold Opens startRule checkKey
  by_cases h0 : r.seq = 0 <;> simp [hsnap, h0, hpub]

end

/-- A snapshot of an accepted chain can be archived at, and again from the archive. -/
theorem archive_iff (C : Crypto) (J : Json) (b : Build) (records : List LedgerRecord) (eh ek : Option String)
    (report : VerifyReport) (p q : List LedgerRecord) (r : LedgerRecord) (hmem : InMemory records)
    (hver : verifyRecordsU64 C J b records eh ek = some (.ok report)) (hsplit : records = p ++ r :: q)
    (hsnap : r.kind = "snapshot") :
    ((∀ input, ∃ report', archiveRecords C J b input records r.seq = some (.ok (report', recordsToJsonl J (r :: q))) ∧
        report'.anchoredStart = true ∧ report'.headHash = report.headHash) ∧
      ∀ p₂ r₂ q₂, q = p₂ ++ r₂ :: q₂ → r₂.kind = "snapshot" → ∀ input input',
        archiveRecords C J b input (r :: q) r₂.seq = archiveRecords C J b input' records r₂.seq) ↔
    r.seq ≠ 0 := by
  obtain ⟨first, rest, rfl⟩ : ∃ first rest, records = first :: rest := by
    cases p with
    | nil => exact ⟨r, q, hsplit⟩
    | cons x p => exact ⟨x, p ++ r :: q, hsplit⟩
  obtain ⟨-, -, hch, hin⟩ := verifyRecordsU64_ok_iff.1 ⟨report, hver⟩
  rw [hsplit] at hch hin hmem
  have hsuffix : r :: q <:+ p ++ r :: q := ⟨p, rfl⟩
  have hopens := opens_snapshot_iff (hch.self r (by simp)) hsnap
  have hslice : archiveSlice (first :: rest) r.seq = some (r :: q) := by
    rw [hsplit]
    exact archiveSlice_append (fun x hx => hch.seq_ne hmem hx) hsnap
  have hhead : lastHash (first :: rest) = lastHash (r :: q) := by
    rw [hsplit, lastHash, lastHash, List.getLast?_append, List.getLast?_cons]
    rfl
  constructor
  · rintro ⟨harch, -⟩
    obtain ⟨report', h, -⟩ := harch ""
    unfold archiveRecords at h
    rw [hslice] at h
    obtain ⟨res, hres, hout⟩ := Option.map_eq_some_iff.1 h
    cases res with
    | error f => cases hout
    | ok report₂ => exact hopens.1 (verifyRecordsU64_ok_iff.1 ⟨report₂, hres⟩).1
  · intro h0
    constructor
    · intro input
      have hnohead : checkHead (lastHash (r :: q)) none = .ok () := rfl
      obtain ⟨report', hrep⟩ := verifyRecordsU64_ok_iff.2 ⟨hopens.2 h0, hnohead, hch.suffix hsuffix,
        fun x hx => hin x (hsuffix.subset hx)⟩
      obtain ⟨hh, ha⟩ := report_eq hrep
      refine ⟨report', ?_, by rw [ha]; exact decide_eq_true hsnap, by rw [hh, (report_eq hver).1, hhead]⟩
      unfold archiveRecords
      rw [hslice]
      simp only [hrep]
      rfl
    · intro p₂ r₂ q₂ hq hsnap₂ input input'
      subst hq
      have hlater : archiveSlice (first :: rest) r₂.seq = some (r₂ :: q₂) := by
        have hcut : p ++ r :: (p₂ ++ r₂ :: q₂) = (p ++ r :: p₂) ++ r₂ :: q₂ := by simp
        rw [hsplit, hcut]
        rw [hcut] at hch hmem
        exact archiveSlice_append (fun x hx => hch.seq_ne hmem hx) hsnap₂
      have hagain : archiveSlice (r :: (p₂ ++ r₂ :: q₂)) r₂.seq = some (r₂ :: q₂) := by
        have hcut : p ++ r :: (p₂ ++ r₂ :: q₂) = (p ++ r :: p₂) ++ r₂ :: q₂ := by simp
        rw [hcut] at hch hmem
        exact archiveSlice_append (p := r :: p₂)
          (fun x hx => hch.seq_ne hmem (List.mem_append_right p hx)) hsnap₂
      unfold archiveRecords
      rw [hlater, hagain]

/-- A build with overflow checks accepts no chain with a snapshot of number 0. -/
theorem snapshot_seq_ne_of_checked {C : Crypto} {J : Json} {records : List LedgerRecord} {eh ek : Option String}
    {report : VerifyReport} {r : LedgerRecord}
    (hver : verifyRecordsU64 C J .checked records eh ek = some (.ok report)) (hr : r ∈ records)
    (hsnap : r.kind = "snapshot") : r.seq ≠ 0 := by
  cases records with
  | nil => cases hr
  | cons first rest =>
    obtain ⟨ho, -, hch, -⟩ := verifyRecordsU64_ok_iff.1 ⟨report, hver⟩
    obtain ⟨i, hi⟩ := List.mem_iff_getElem?.1 hr
    have hseq := hch.seq_eq hi
    intro h0
    obtain rfl : i = 0 := by omega
    obtain rfl : first = r := by simpa using hi
    have hstart := ho.1
    simp [startRule, hsnap, h0] at hstart

/-! ## A chain that wraps -/

/-- The writer's records pass by themselves. -/
theorem selfValid_next {C : Crypto} {J : Json} (hC : C.Sound) (s : LedgerState C) (ts : Nat)
    (actor action scope h : String) : SelfValid C J (s.nextRecord J ts "snapshot" actor action scope h none) where
  hash := nextRecord_hash s ts "snapshot" actor action scope h none
  keyId := by simp only [LedgerState.nextRecord]
  signature := by
    unfold checkSignature
    simp only [LedgerState.nextRecord]
    rw [decodeExact_hex (hC.sign_length _ _) (by omega), decodeExact_hex (hC.publicKey_length _) (by omega)]
    simp [hC.publicKey_valid, hC.verify_sign]
  kind := .inr ⟨.inr rfl, rfl⟩

/-- A snapshot with the last number. -/
def Sample.lastSnapshot : LedgerRecord :=
  LedgerState.nextRecord (C := toyCrypto) serde
    { LedgerState.fresh (C := toyCrypto) (7 : UInt8) with headSeq := some (2 ^ 64 - 2) } 1 "snapshot" "runtime"
    "ledger.snapshot" "" "" none

/-- A snapshot with number 0 that follows it. -/
def Sample.wrapped : LedgerRecord :=
  LedgerState.nextRecord (C := toyCrypto) serde
    { LedgerState.fresh (C := toyCrypto) (7 : UInt8) with headHash := lastSnapshot.hash } 2 "snapshot" "runtime"
    "ledger.snapshot" "" "" none

open Sample in
theorem opens_lastSnapshot : Opens lastSnapshot none :=
  (opens_snapshot_iff (J := serde) (selfValid_next toyCrypto_sound _ _ _ _ _ _) rfl).2
    (Nat.succ_ne_zero (2 ^ 64 - 2))

open Sample in
/-- One snapshot at the end of the range panics. -/
theorem verify_seq_max : ¬ ∀ (records : List LedgerRecord) (eh ek : Option String),
    verifyRecordsU64 toyCrypto serde .checked records eh ek ≠ none ∧
      ∀ b report, verifyRecordsU64 toyCrypto serde b records eh ek = some (.ok report) → Numbered records := by
  intro h
  refine (h [lastSnapshot] none none).1 (verifyRecordsU64_none_iff.2 ⟨[], lastSnapshot, [], rfl, ?_, ?_, le_refl _⟩)
  · intro first hfirst
    obtain rfl : lastSnapshot = first := by simpa using hfirst
    exact opens_lastSnapshot
  · refine ⟨fun r hr => ?_, List.isChain_singleton _⟩
    obtain rfl : r = lastSnapshot := by simpa using hr
    exact selfValid_next toyCrypto_sound _ _ _ _ _ _

open Sample in
theorem wrapped_accepted : ∃ report,
    verifyRecordsU64 toyCrypto serde .wrapping [lastSnapshot, wrapped] none none = some (.ok report) := by
  refine verifyRecordsU64_ok_iff.2 ⟨opens_lastSnapshot, rfl, ⟨?_, ?_⟩, ?_⟩
  · intro r hr
    rcases List.mem_pair.1 hr with rfl | rfl <;> exact selfValid_next toyCrypto_sound _ _ _ _ _ _
  · exact List.isChain_pair.2 ⟨rfl, rfl, rfl⟩
  · intro r _
    unfold Build.succ
    split_ifs <;> rfl

open Sample in
theorem wrapped_inMemory : InMemory [lastSnapshot, wrapped] where
  seq_le r hr := by
    rcases List.mem_pair.1 hr with rfl | rfl
    · exact le_refl maxSeq
    · exact Nat.zero_le maxSeq
  length_le := by
    show 2 ≤ 2 ^ 64
    omega

open Sample in
/-- Accepted after the wrap, and refused as the start of an archive. -/
theorem archive_wrapped : ¬ ∀ (C : Crypto) (J : Json) (b : Build) (records : List LedgerRecord)
    (eh ek : Option String) (report : VerifyReport) (p q : List LedgerRecord) (r : LedgerRecord), InMemory records →
    verifyRecordsU64 C J b records eh ek = some (.ok report) → records = p ++ r :: q → r.kind = "snapshot" →
    ∀ input, ∃ report', archiveRecords C J b input records r.seq = some (.ok (report', recordsToJsonl J (r :: q))) ∧
      report'.anchoredStart = true ∧ report'.headHash = report.headHash := by
  intro h
  obtain ⟨report, hrep⟩ := wrapped_accepted
  obtain ⟨report', hout, -⟩ := h toyCrypto serde .wrapping [lastSnapshot, wrapped] none none report [lastSnapshot] []
    wrapped wrapped_inMemory hrep rfl rfl "ledger.jsonl"
  have hslice : archiveSlice [lastSnapshot, wrapped] wrapped.seq = some [wrapped] := by
    refine archiveSlice_append (p := [lastSnapshot]) (fun x hx => ?_) rfl
    obtain rfl : x = lastSnapshot := by simpa using hx
    exact Nat.succ_ne_zero (2 ^ 64 - 2)
  have hself : SelfValid toyCrypto serde wrapped := selfValid_next toyCrypto_sound _ _ _ _ _ _
  have hnot : ¬ Opens wrapped none := fun ho => (opens_snapshot_iff hself rfl).1 ho rfl
  have hfault : ∃ f, verifyRecordsU64 toyCrypto serde .wrapping [wrapped] none none = some (.error f) :=
    verifyRecordsU64_not_opens hnot
  obtain ⟨f, hf⟩ := hfault
  unfold archiveRecords at hout
  rw [hslice] at hout
  simp only [hf] at hout
  cases hout

/-! ## A chain with a rotation -/

/-- A record, a rotation to `k`, a snapshot, a record of the new key and a second snapshot. -/
def Sample.calls (C : Crypto) (k : C.Key) : List (Op C) :=
  [.record 1 "grant" "tw" "fs" "read", .rotate 2 k, .snapshot 3, .record 4 "deny" "vm" "db" "drop", .snapshot 5]

/-- The rows these calls leave. -/
def Sample.rows (C : Crypto) (k k' : C.Key) : List LedgerRecord :=
  ((run serde (.fresh k) (calls C k')).conn).getD []

section

variable {C : Crypto}

theorem chained_rows (hC : C.Sound) (k k' : C.Key) :
    Chained serde k (run serde (.fresh k) (Sample.calls C k')) (Sample.rows C k k') := by
  obtain ⟨rs, hch, -⟩ := chained_run hC (Sample.calls C k') (chained_fresh (J := serde) k)
  have hrows : Sample.rows C k k' = [] ++ rs := by rw [Sample.rows, hch.conn, Option.getD_some]
  rw [hrows]
  exact hch

theorem rows_eq (k k' : C.Key) : ∃ r₀ r₁ r₂ r₃ r₄, Sample.rows C k k' = [r₀, r₁, r₂, r₃, r₄] ∧
    [r₀, r₁, r₂, r₃, r₄].map (·.seq) = [0, 1, 2, 3, 4] ∧
    [r₀, r₁, r₂, r₃, r₄].map (·.kind) = ["action", "key_rotation", "snapshot", "action", "snapshot"] :=
  ⟨_, _, _, _, _, rfl, rfl, rfl⟩

theorem rows_inMemory (k k' : C.Key) : InMemory (Sample.rows C k k') := by
  obtain ⟨r₀, r₁, r₂, r₃, r₄, hrows, hseqs, -⟩ := rows_eq k k'
  rw [hrows]
  refine ⟨fun r hr => ?_, by simp⟩
  have hmem : r.seq ∈ [0, 1, 2, 3, 4] := hseqs ▸ List.mem_map_of_mem hr
  have hle : ∀ n ∈ [0, 1, 2, 3, 4], n ≤ maxSeq := by decide
  exact hle r.seq hmem

/-- Every build accepts them, with the head they have. -/
theorem rows_accepted (hC : C.Sound) (b : Build) (k k' : C.Key) : ∃ report,
    verifyRecordsU64 C serde b (Sample.rows C k k') (some (lastHash (Sample.rows C k k'))) none =
      some (.ok report) := by
  obtain ⟨r₀, r₁, r₂, r₃, r₄, hrows, hseqs, hkinds⟩ := rows_eq k k'
  have hch := chained_rows hC k k'
  rw [hrows] at hch ⊢
  have hlt : ∀ r ∈ [r₀, r₁, r₂, r₃, r₄], r.seq < maxSeq := by
    intro r hr
    have hmem : r.seq ∈ [0, 1, 2, 3, 4] := hseqs ▸ List.mem_map_of_mem hr
    have hall : ∀ n ∈ [0, 1, 2, 3, 4], n < maxSeq := by decide
    exact hall r.seq hmem
  have hhead : lastHash [r₀, r₁, r₂, r₃, r₄] = headHash (run serde (.fresh k) (Sample.calls C k')) := by
    rw [headHash, if_neg (by simpa using fun hn => by simpa using hch.headSeq.1 hn), ← hch.head]
    rfl
  obtain ⟨n, hv⟩ := hch.verify_eq (some (lastHash [r₀, r₁, r₂, r₃, r₄])) none
    (fun x hx => by rw [← hhead]; exact (Option.some.inj hx).symm) (by simp)
  obtain ⟨hpub, hprev⟩ := hch.first r₀ rfl
  have hkind : r₀.kind = "action" := (List.cons.inj hkinds).1
  have hstart : startRule r₀ = .ok () := by simp [startRule, hkind, hch.first_seq, hprev]
  rw [verifyRecordsU64_of_lt hlt, hv, hstart]
  exact ⟨_, rfl⟩

end

open Sample in
/-- Cut at the first snapshot, which the new key signed, and again at the second. -/
theorem archive_iff_rotated : ∃ r₀ r₁ r₂ r₃ r₄ report,
    rows toyCrypto (7 : UInt8) (9 : UInt8) = [r₀, r₁, r₂, r₃, r₄] ∧ r₁.kind = "key_rotation" ∧
    archiveRecords toyCrypto serde .wrapping "ledger.jsonl" [r₀, r₁, r₂, r₃, r₄] r₂.seq =
      some (.ok (report, recordsToJsonl serde [r₂, r₃, r₄])) ∧ report.anchoredStart = true ∧
    archiveRecords toyCrypto serde .wrapping "ledger.jsonl" [r₂, r₃, r₄] r₄.seq =
      archiveRecords toyCrypto serde .wrapping "ledger.jsonl" [r₀, r₁, r₂, r₃, r₄] r₄.seq := by
  obtain ⟨r₀, r₁, r₂, r₃, r₄, hrows, hseqs, hkinds⟩ := rows_eq (C := toyCrypto) (7 : UInt8) (9 : UInt8)
  obtain ⟨report, hrep⟩ := rows_accepted toyCrypto_sound .wrapping (7 : UInt8) (9 : UInt8)
  have hmem := rows_inMemory (C := toyCrypto) (7 : UInt8) (9 : UInt8)
  rw [hrows] at hrep hmem
  simp only [List.map_cons, List.map_nil, List.cons.injEq, and_true] at hseqs hkinds
  obtain ⟨-, -, hseq, -⟩ := hseqs
  obtain ⟨-, hrot, hsnap, -, hsnap'⟩ := hkinds
  have hne : r₂.seq ≠ 0 := by omega
  obtain ⟨harch, hagain⟩ := (archive_iff toyCrypto serde .wrapping [r₀, r₁, r₂, r₃, r₄] _ none report [r₀, r₁]
    [r₃, r₄] r₂ hmem hrep rfl hsnap).2 hne
  obtain ⟨report', hout, hanch, -⟩ := harch "ledger.jsonl"
  exact ⟨r₀, r₁, r₂, r₃, r₄, report', hrows, hrot, hout, hanch,
    hagain [r₃] r₄ [] rfl hsnap' "ledger.jsonl" "ledger.jsonl"⟩

end Metalogos.Ledger
