import Metalogos.Ledger.Serde

/-!
# The action ledger: the verifier

`verify_records_structural` (`src/ledger.rs:671-844`) is a loop over the records with the state
`VState`: the key that must sign next, the keys seen, the hash and the sequence number the next
record must have. `checkRecord` is one round.

A run of the writer keeps an invariant (`Chained`): the rows, checked from the genesis state, leave
the verifier exactly where the writer stands. `chained_run` carries it through every sequence of
calls. What the verifier adds to it is its start rule, which refuses a snapshot at sequence number 0
while the writer makes one on an empty chain: `ledger_verifies_iff`.
-/
namespace Metalogos.Ledger

open Metalogos.Lib

/-- mirrors src/ledger.rs:614-622 -/
structure VerifyFault where
  record : Option Nat
  reason : String
  deriving DecidableEq

/-- mirrors src/ledger.rs:625-632 -/
def VerifyFault.text (f : VerifyFault) : String :=
  match f.record with
  | some n => "record " ++ toString n ++ ": " ++ f.reason
  | none => f.reason

/-- mirrors src/ledger.rs:579-586 -/
structure VerifyReport where
  schemaVersion : Nat
  records : Nat
  headHash : String
  distinctKeys : Nat
  anchoredStart : Bool

/-- The mutable variables of the loop; `keys` is the set `distinct_keys`.
mirrors src/ledger.rs:723-727 -/
structure VState where
  active : String
  keys : List String
  prev : String
  seq : Nat

def insertKey (keys : List String) (k : String) : List String := if k ∈ keys then keys else keys ++ [k]

/-- `decode_hex_32_plus(..).and_then(|v| <[u8; n]>::try_from(v).ok())`. -/
def decodeExact (n : Nat) (s : String) : Option (List UInt8) :=
  (decodeHex32Plus s).bind fun v => if v.length = n then some v else none

section

variable (C : Crypto) (J : Json)

/-- mirrors src/ledger.rs:767-789 -/
def checkSignature (n : Nat) (r : LedgerRecord) : Except VerifyFault Unit :=
  match decodeExact 64 r.sig with
  | none => .error ⟨some n, "signature is not 64 bytes of hex"⟩
  | some sig =>
    match decodeExact 32 r.pubkey with
    | none => .error ⟨some n, "pubkey is not 32 bytes"⟩
    | some vk =>
      if !C.validKey vk then .error ⟨some n, "malformed pubkey: signature error"⟩
      else if !C.verify vk (bytes r.hash) sig then
        .error ⟨some n, "signature verification FAILED"⟩
      else .ok ()

/-- The rotation transition and the kind rules, after the record itself verified.
mirrors src/ledger.rs:791-818 -/
def advance (st : VState) (n : Nat) (r : LedgerRecord) : Except VerifyFault VState :=
  let unknown : Bool := r.kind ≠ "action" ∧ r.kind ≠ "key_rotation" ∧ r.kind ≠ "snapshot"
  if r.kind = "key_rotation" then
    if r.newPubkey = "" then .error ⟨some n, "key_rotation without new_pubkey"⟩
    else .ok
      { active := r.newPubkey,
        keys := insertKey (insertKey st.keys ((keyIdOf C r.newPubkey).getD "")) r.keyId,
        prev := r.hash, seq := r.seq + 1 }
  else if r.newPubkey ≠ "" then .error ⟨some n, "new_pubkey set on a " ++ r.kind ++ " record"⟩
  else if unknown then .error ⟨some n, "unknown kind '" ++ r.kind ++ "'"⟩
  else .ok { active := st.active, keys := insertKey st.keys r.keyId, prev := r.hash, seq := r.seq + 1 }

/-- One round of the loop; `n` is the 1-based position.
mirrors src/ledger.rs:728-819 -/
def checkRecord (st : VState) (n : Nat) (r : LedgerRecord) : Except VerifyFault VState :=
  if r.seq ≠ st.seq then
    .error ⟨some n, "seq gap (expected " ++ toString st.seq ++ ", got " ++ toString r.seq ++ ")"⟩
  else if r.prevHash ≠ st.prev then
    .error ⟨some n, "prev_hash chain break (expected " ++ st.prev ++ ", got " ++ r.prevHash ++ ")"⟩
  else if recordHash C J r ≠ r.hash then .error ⟨some n, "hash mismatch (body modified?)"⟩
  else if (keyIdOf C r.pubkey).getD "" ≠ r.keyId then
    .error ⟨some n, "key_id does not match pubkey"⟩
  else if r.pubkey ≠ st.active then
    .error ⟨some n, "signer continuity break (signed by " ++ r.keyId ++ " while active key is "
      ++ (keyIdOf C st.active).getD "" ++ ")"⟩
  else do
    checkSignature C n r
    advance C st n r

def verifyLoop : VState → Nat → List LedgerRecord → Except VerifyFault VState
  | st, _, [] => .ok st
  | st, n, r :: rs => do
    let st ← checkRecord C J st n r
    verifyLoop st (n + 1) rs

/-- Genesis, or a snapshot that pins a non-empty head.
mirrors src/ledger.rs:683-713 -/
def startRule (first : LedgerRecord) : Except VerifyFault Unit :=
  if first.kind = "snapshot" then
    if first.seq = 0 then
      .error ⟨some 1, "snapshot anchor at seq 0 is not a valid anchor (snapshots pin a non-empty head)"⟩
    else if first.newPubkey = "" ∧ first.pubkey = "" then
      .error ⟨some 1, "anchored start carries no signer key"⟩
    else .ok ()
  else if first.seq ≠ 0 then
    .error ⟨some 1, "chain must start at seq 0 or at a snapshot anchor, got seq " ++ toString first.seq⟩
  else if first.prevHash ≠ genesisPrevHash then
    .error ⟨some 1, "genesis prev_hash must be 64 zeros, got '" ++ first.prevHash ++ "'"⟩
  else .ok ()

def checkKey (first : LedgerRecord) : Option String → Except VerifyFault Unit
  | none => .ok ()
  | some key =>
    if first.pubkey ≠ key then
      .error ⟨some 1, "anchored signer key mismatch: expected " ++ key ++ ", got " ++ first.pubkey⟩
    else .ok ()

def checkHead (head : String) : Option String → Except VerifyFault Unit
  | none => .ok ()
  | some h =>
    if head ≠ h then .error ⟨none, "head anchor mismatch: expected " ++ h ++ ", got " ++ head⟩
    else .ok ()

/-- mirrors src/ledger.rs:671-844 -/
def verifyRecordsStructural (records : List LedgerRecord) (expectHead expectKey : Option String) :
    Except VerifyFault VerifyReport :=
  match records with
  | [] => .error ⟨none, "ledger is empty: no records to verify"⟩
  | first :: rest => do
    startRule first
    checkKey first expectKey
    let st ← verifyLoop C J ⟨first.pubkey, [first.keyId], first.prevHash, first.seq⟩ 1 (first :: rest)
    let head := ((first :: rest).getLast?.map (·.hash)).getD ""
    checkHead head expectHead
    .ok
      { schemaVersion := 1, records := (first :: rest).length, headHash := head,
        distinctKeys := st.keys.length, anchoredStart := decide (first.kind = "snapshot") }

/-- mirrors src/ledger.rs:594-600 -/
def verifyRecords (records : List LedgerRecord) (expectHead expectKey : Option String) :
    Except String VerifyReport :=
  (verifyRecordsStructural C J records expectHead expectKey).mapError VerifyFault.text

/-- mirrors src/ledger.rs:638-650 -/
structure LedgerVerdict where
  ok : Bool
  schemaVersion : Nat
  records : Nat
  headHash : String
  distinctKeys : Nat
  anchoredStart : Bool
  fault : Option VerifyFault

/-- On a JSONL source; a chain without records verifies unless an anchor is given.
mirrors src/ledger.rs:862-966 -/
def ledgerVerify (content : String) (expectHead expectKey : Option String) : LedgerVerdict :=
  match recordsFromJsonl J content with
  | .error e => ⟨false, 1, 0, "", 0, false, some ⟨none, e⟩⟩
  | .ok [] =>
    let fault : Option VerifyFault := match expectHead with
      | some h => some ⟨none, "head anchor mismatch on an empty ledger: expected " ++ h
          ++ ", got none (nothing to verify)"⟩
      | none => if expectKey.isSome then
          some ⟨none, "key anchor mismatch on an empty ledger: no records to carry the signer key"⟩
        else none
    ⟨fault.isNone, 1, 0, "", 0, false, fault⟩
  | .ok records =>
    match verifyRecordsStructural C J records expectHead expectKey with
    | .ok r => ⟨true, r.schemaVersion, r.records, r.headHash, r.distinctKeys, r.anchoredStart, none⟩
    | .error f => ⟨false, 1, records.length, "", 0, false, some f⟩

end

/-! ## What acceptance says -/

variable {C : Crypto} {J : Json}

theorem advance_ok {st st' : VState} {n : Nat} {r : LedgerRecord} (h : advance C st n r = .ok st') :
    st'.prev = r.hash ∧ st'.seq = r.seq + 1 := by
  unfold advance at h
  simp only at h
  split_ifs at h <;> cases h <;> exact ⟨rfl, rfl⟩

/-- One round of the verifier: what it found, and what it expects of the next record. -/
theorem checkRecord_ok {st st' : VState} {n : Nat} {r : LedgerRecord}
    (h : checkRecord C J st n r = .ok st') :
    recordHash C J r = r.hash ∧ r.prevHash = st.prev ∧ r.seq = st.seq ∧ r.pubkey = st.active ∧
      advance C st n r = .ok st' := by
  unfold checkRecord at h
  split_ifs at h with hseq hprev hhash hkey hpub
  cases hs : checkSignature C n r with
  | error f =>
    rw [hs] at h
    cases h
  | ok u =>
    rw [hs] at h
    exact ⟨not_not.1 hhash, not_not.1 hprev, not_not.1 hseq, not_not.1 hpub, h⟩

theorem verifyLoop_cons {st st' : VState} {n : Nat} {r : LedgerRecord} {rs : List LedgerRecord}
    (h : verifyLoop C J st n (r :: rs) = .ok st') :
    ∃ st₁, checkRecord C J st n r = .ok st₁ ∧ verifyLoop C J st₁ (n + 1) rs = .ok st' := by
  rw [verifyLoop] at h
  cases hc : checkRecord C J st n r with
  | error f =>
    rw [hc] at h
    cases h
  | ok st₁ =>
    rw [hc] at h
    exact ⟨st₁, rfl, h⟩

/-- What an accepted sequence went through: the loop from its own first record, and the head check. -/
theorem verifyRecords_ok {first : LedgerRecord} {rest : List LedgerRecord} {eh ek : Option String}
    {report : VerifyReport} (h : verifyRecords C J (first :: rest) eh ek = .ok report) :
    (∃ st, verifyLoop C J ⟨first.pubkey, [first.keyId], first.prevHash, first.seq⟩ 1 (first :: rest) =
      .ok st) ∧ checkHead (((first :: rest).getLast?.map (·.hash)).getD "") eh = .ok () := by
  unfold verifyRecords verifyRecordsStructural at h
  dsimp only at h
  cases hstart : startRule first with
  | error f =>
    rw [hstart] at h
    cases h
  | ok u =>
  cases hkey : checkKey first ek with
  | error f =>
    rw [hstart, hkey] at h
    cases h
  | ok u' =>
  cases hloop : verifyLoop C J ⟨first.pubkey, [first.keyId], first.prevHash, first.seq⟩ 1
      (first :: rest) with
  | error f =>
    rw [hstart, hkey, hloop] at h
    cases h
  | ok st =>
    refine ⟨⟨st, rfl⟩, ?_⟩
    cases hhead : checkHead (((first :: rest).getLast?.map (·.hash)).getD "") eh with
    | ok u'' => rfl
    | error f =>
      rw [hstart, hkey, hloop, hhead] at h
      cases h

/-! ## A record of the writer passes -/

/-- Where the verifier has to stand for the writer's next record. -/
def LedgerState.vstate (s : LedgerState C) (keys : List String) : VState where
  active := hex (C.publicKey s.signing)
  keys := keys
  prev := s.headHash
  seq := s.nextSeq

theorem hex_toList (bs : List UInt8) : (hex bs).toList = hexEncode bs := String.toList_ofList

theorem decodeExact_hex {bs : List UInt8} {n : Nat} (hn : bs.length = n) (h0 : 0 < n) :
    decodeExact n (hex bs) = some bs := by
  have hne : hex bs ≠ "" := by
    intro h
    have hl := congrArg (fun s => s.toList.length) h
    rw [hex_toList, length_hexEncode] at hl
    have : "".toList.length = 0 := rfl
    omega
  simp [decodeExact, decodeHex32Plus, hne, hex_toList, hexDecode_encode, hn]

theorem hex_publicKey_ne (hC : C.Sound) (k : C.Key) : hex (C.publicKey k) ≠ "" := by
  intro h
  have hd := decodeExact_hex (hC.publicKey_length k) (by omega)
  rw [h] at hd
  simp [decodeExact, decodeHex32Plus] at hd

section

variable (s : LedgerState C) (keys : List String) (ts n : Nat) (kind actor action scope h : String)
  (np : Option String)

theorem nextRecord_hash : recordHash C J (s.nextRecord J ts kind actor action scope h np) =
    (s.nextRecord J ts kind actor action scope h np).hash := rfl

/-- The checks before the rotation transition pass. -/
theorem checkRecord_next (hC : C.Sound) :
    checkRecord C J (s.vstate keys) n (s.nextRecord J ts kind actor action scope h np) =
      advance C (s.vstate keys) n (s.nextRecord J ts kind actor action scope h np) := by
  have hsig : checkSignature C n (s.nextRecord J ts kind actor action scope h np) = .ok () := by
    unfold checkSignature
    simp only [LedgerState.nextRecord]
    rw [decodeExact_hex (hC.sign_length _ _) (by omega),
      decodeExact_hex (hC.publicKey_length _) (by omega)]
    simp [hC.publicKey_valid, hC.verify_sign]
  unfold checkRecord
  rw [hsig, nextRecord_hash]
  simp only [LedgerState.nextRecord, LedgerState.vstate, ne_eq, not_true, if_false]
  rfl

theorem nextRecord_kind : (s.nextRecord J ts kind actor action scope h np).kind = kind := rfl

theorem nextRecord_newPubkey :
    (s.nextRecord J ts kind actor action scope h np).newPubkey = np.getD "" := rfl

end

/-! ## The invariant of a run -/

/-- The rows, checked from genesis with key `k`, leave the verifier where the writer stands. -/
structure Chained (J : Json) (k : C.Key) (s : LedgerState C) (rows : List LedgerRecord) : Prop where
  conn : s.conn = some rows
  seqs : rows.map (·.seq) = List.range rows.length
  nextSeq : s.nextSeq = rows.length
  headSeq : s.headSeq = none ↔ rows = []
  head : (rows.getLast?.map (·.hash)).getD genesisPrevHash = s.headHash
  first : ∀ r ∈ rows.head?, r.pubkey = hex (C.publicKey k) ∧ r.prevHash = genesisPrevHash
  start : rows = [] → s.signing = k
  loop : ∀ keys, ∃ keys', verifyLoop C J ⟨hex (C.publicKey k), keys, genesisPrevHash, 0⟩ 1 rows =
    .ok (s.vstate keys')

theorem chained_fresh (k : C.Key) : Chained J k (.fresh k) [] where
  conn := rfl
  seqs := rfl
  nextSeq := rfl
  headSeq := by simp [LedgerState.fresh]
  head := rfl
  first := by simp
  start := fun _ => rfl
  loop keys := ⟨keys, rfl⟩

theorem verifyLoop_concat {st : VState} {n : Nat} (rs : List LedgerRecord) (r : LedgerRecord) :
    verifyLoop C J st n (rs ++ [r]) =
      verifyLoop C J st n rs >>= fun st' => checkRecord C J st' (n + rs.length) r := by
  induction rs generalizing st n with
  | nil =>
    show (checkRecord C J st n r >>= fun st => .ok st) = checkRecord C J st n r
    cases checkRecord C J st n r <;> rfl
  | cons a rs ih =>
    simp only [List.cons_append, verifyLoop, List.length_cons]
    cases checkRecord C J st n a with
    | error f => rfl
    | ok st' =>
      show verifyLoop C J st' (n + 1) (rs ++ [r]) = _
      rw [ih, Nat.add_assoc n 1, Nat.add_comm 1]
      rfl

namespace Chained

variable {k : C.Key} {s : LedgerState C} {rows : List LedgerRecord}

/-- The next sequence number is not in the table. -/
theorem insertRow_next (h : Chained J k s rows) {r : LedgerRecord} (hr : r.seq = s.nextSeq) :
    insertRow rows r = .ok (rows ++ [r]) := by
  have hnew : rows.any (·.seq = r.seq) = false := by
    rw [List.any_eq_false]
    intro a ha hseq
    have hm : a.seq ∈ List.range rows.length := h.seqs ▸ List.mem_map_of_mem ha
    have hlt : a.seq < rows.length := List.mem_range.1 hm
    have heq : a.seq = r.seq := by simpa using hseq
    rw [heq, hr, h.nextSeq] at hlt
    omega
  simp [insertRow, hnew]

/-- A new row whose check leaves the verifier where the writer goes on. -/
theorem append (h : Chained J k s rows) (hC : C.Sound) {s' : LedgerState C} {ts : Nat}
    {kind actor action scope ah : String} {np : Option String}
    (hs' : s' = { s with
      conn := some (rows ++ [s.nextRecord J ts kind actor action scope ah np]),
      headSeq := some (s.nextRecord J ts kind actor action scope ah np).seq,
      headHash := (s.nextRecord J ts kind actor action scope ah np).hash,
      signing := s'.signing, activePubkey := s'.activePubkey })
    (hadv : ∀ keys n, ∃ keys', advance C (s.vstate keys) n
      (s.nextRecord J ts kind actor action scope ah np) = .ok (s'.vstate keys')) :
    Chained J k s' (rows ++ [s.nextRecord J ts kind actor action scope ah np]) where
  conn := by rw [hs']
  seqs := by
    rw [List.map_append, h.seqs, List.length_append, List.range_add]
    simp [LedgerState.nextRecord, h.nextSeq]
  nextSeq := by
    rw [hs']
    simp [LedgerState.nextSeq, LedgerState.nextRecord, ← h.nextSeq]
  headSeq := by
    rw [hs']
    simp
  head := by
    rw [hs']
    simp
  first r hr := by
    cases rows with
    | nil =>
      obtain rfl : s.nextRecord J ts kind actor action scope ah np = r := by simpa using hr
      have hsig : s.signing = k := h.start rfl
      have hh : genesisPrevHash = s.headHash := h.head
      exact ⟨by rw [← hsig]; rfl, by rw [hh]; rfl⟩
    | cons a rows => exact h.first r (by simpa using hr)
  start hnil := by simp at hnil
  loop keys := by
    obtain ⟨keys₁, h₁⟩ := h.loop keys
    obtain ⟨keys₂, h₂⟩ := hadv keys₁ (1 + rows.length)
    refine ⟨keys₂, ?_⟩
    rw [verifyLoop_concat, h₁]
    show checkRecord C J (s.vstate keys₁) (1 + rows.length) _ = _
    rw [checkRecord_next s keys₁ ts _ kind actor action scope ah np hC, h₂]

end Chained

/-- What one call does to the chain: it appends one record of its kind. -/
theorem chained_step (hC : C.Sound) {k : C.Key} {s : LedgerState C} {rows : List LedgerRecord}
    (h : Chained J k s rows) (op : Op C) : ∃ r, Chained J k (step J s op) (rows ++ [r]) ∧
      (r.kind = "snapshot" ↔ ∃ ts, op = .snapshot ts) := by
  cases op with
  | record ts action actor scope detail =>
    refine ⟨s.nextRecord J ts "action" actor action scope (argsHashOf C detail) none, ?_, by
      simp [nextRecord_kind]⟩
    have hins := h.insertRow_next (r := s.nextRecord J ts "action" actor action scope
      (argsHashOf C detail) none) rfl
    refine h.append hC ?_ fun keys n => ?_
    · simp only [step, record, appendRecord, h.conn, hins]
    · simp only [step, record, appendRecord, h.conn, hins]
      exact ⟨_, rfl⟩
  | rotate ts key =>
    refine ⟨s.nextRecord J ts "key_rotation" "runtime" "ledger.rotate" ""
      (argsHashOf C (hex (C.publicKey key))) (some (hex (C.publicKey key))), ?_, by
      simp [nextRecord_kind]⟩
    have hins := h.insertRow_next (r := s.nextRecord J ts "key_rotation" "runtime" "ledger.rotate" ""
      (argsHashOf C (hex (C.publicKey key))) (some (hex (C.publicKey key)))) rfl
    refine h.append hC ?_ fun keys n => ?_
    · simp only [step, rotate, appendRecord, h.conn, hins]
    · have hne := hex_publicKey_ne hC key
      simp only [step, rotate, appendRecord, h.conn, hins, advance, nextRecord_kind,
        nextRecord_newPubkey, Option.getD_some, hne, if_true, if_false]
      exact ⟨_, rfl⟩
  | snapshot ts =>
    refine ⟨s.nextRecord J ts "snapshot" "runtime" "ledger.snapshot" "" (argsHashOf C "snapshot") none,
      ?_, by simp [nextRecord_kind]⟩
    have hins := h.insertRow_next (r := s.nextRecord J ts "snapshot" "runtime" "ledger.snapshot" ""
      (argsHashOf C "snapshot") none) rfl
    refine h.append hC ?_ fun keys n => ?_
    · simp only [step, snapshot, appendRecord, h.conn, hins]
    · simp only [step, snapshot, appendRecord, h.conn, hins]
      exact ⟨_, rfl⟩

theorem chained_run (hC : C.Sound) {k : C.Key} : ∀ (ops : List (Op C)) {s : LedgerState C}
    {rows : List LedgerRecord}, Chained J k s rows →
    ∃ rs, Chained J k (run J s ops) (rows ++ rs) ∧ rs.length = ops.length
  | [], _, rows, h => ⟨[], by simpa [run] using h, rfl⟩
  | op :: ops, s, rows, h => by
    obtain ⟨r, hr, -⟩ := chained_step hC h op
    obtain ⟨rs, hrs, hlen⟩ := chained_run hC ops hr
    exact ⟨r :: rs, by simpa [run] using hrs, by simp [hlen]⟩

/-! ## Runs verify -/

namespace Chained

variable {k : C.Key} {s : LedgerState C} {first : LedgerRecord} {rest : List LedgerRecord}

/-- The table hands the rows back as they were appended. -/
theorem allRecords_eq {rows : List LedgerRecord} (h : Chained J k s rows) :
    allRecords s = .ok rows := by
  have hsorted : rows.Pairwise (·.seq ≤ ·.seq) := by
    rw [← List.pairwise_map (f := LedgerRecord.seq) (R := (· ≤ ·)), h.seqs]
    exact List.pairwise_le_range
  rw [allRecords, h.conn]
  simp only
  rw [hsorted.insertionSort_eq]

theorem first_seq (h : Chained J k s (first :: rest)) : first.seq = 0 := by
  have hseqs := h.seqs
  simp only [List.map_cons, List.length_cons, List.range_succ_eq_map, List.cons.injEq] at hseqs
  exact hseqs.1

/-- The verifier's verdict on a chain of the writer is that of its start rule. -/
theorem verify_eq (h : Chained J k s (first :: rest)) (eh ek : Option String)
    (heh : ∀ x ∈ eh, x = headHash s) (hek : ∀ x ∈ ek, x = first.pubkey) :
    ∃ n, verifyRecordsStructural C J (first :: rest) eh ek =
      startRule first >>= fun _ => .ok
        { schemaVersion := 1, records := (first :: rest).length, headHash := headHash s,
          distinctKeys := n, anchoredStart := decide (first.kind = "snapshot") } := by
  obtain ⟨hpub, hprev⟩ := h.first first (by simp)
  obtain ⟨keys, hloop⟩ := h.loop [first.keyId]
  have hhead : ((first :: rest).getLast?.map (·.hash)).getD "" = headHash s := by
    have hh := h.head
    have hs : s.headSeq ≠ none := fun hn => by simpa using h.headSeq.1 hn
    rw [headHash, if_neg (by simpa using hs), ← hh]
    cases hl : (first :: rest).getLast? with
    | none => simp at hl
    | some r => rfl
  have hkey : checkKey first ek = .ok () := by
    cases ek with
    | none => rfl
    | some x => simp [checkKey, hek x rfl]
  have hck : checkHead (headHash s) eh = .ok () := by
    cases eh with
    | none => rfl
    | some x => simp [checkHead, heh x rfl]
  refine ⟨keys.length, ?_⟩
  unfold verifyRecordsStructural
  simp only [hkey, hhead, hck]
  rw [hpub, hprev, h.first_seq, hloop]
  cases startRule first <;> rfl

end Chained

/-- On a fresh ledger, a non-empty sequence of calls leaves a chain that verifies, in memory and
exported, with as many records as calls: exactly when the first call is not a snapshot. -/
theorem ledger_verifies_iff (hC : C.Sound) (hJ : J.Sound) (k : C.Key) (op : Op C)
    (ops : List (Op C)) :
    (∃ records first report content, allRecords (run J (.fresh k) (op :: ops)) = .ok records ∧
      records.head? = some first ∧
      verifyRecords C J records (some (headHash (run J (.fresh k) (op :: ops))))
        (some first.pubkey) = .ok report ∧
      report.records = (op :: ops).length ∧
      exportJsonl J (run J (.fresh k) (op :: ops)) = .ok content ∧
      (ledgerVerify C J content none none).ok = true) ↔ ∀ ts, op ≠ .snapshot ts := by
  obtain ⟨first, hfirst, hkind⟩ := chained_step hC (chained_fresh (J := J) k) op
  obtain ⟨rest, hch, hlen⟩ := chained_run hC ops hfirst
  rw [List.nil_append, List.singleton_append] at hch
  have hch' : Chained J k (run J (.fresh k) (op :: ops)) (first :: rest) := hch
  have hseq : first.seq = 0 := hch'.first_seq
  obtain ⟨-, hprev⟩ := hch'.first first (by simp)
  have hstart : startRule first = .ok () ↔ ∀ ts, op ≠ .snapshot ts := by
    by_cases hs : first.kind = "snapshot"
    · obtain ⟨ts, hts⟩ := hkind.1 hs
      simp [startRule, hs, hseq, hts]
    · have hno : ∀ ts, op ≠ .snapshot ts := fun ts hts => hs (hkind.2 ⟨ts, hts⟩)
      simp [startRule, hs, hseq, hprev, hno]
  rw [← hstart]
  obtain ⟨n, hv⟩ := hch'.verify_eq (some (headHash (run J (.fresh k) (op :: ops))))
    (some first.pubkey) (by simp) (by simp)
  obtain ⟨n', hv'⟩ := hch'.verify_eq none none (by simp) (by simp)
  constructor
  · rintro ⟨records, fst, report, content, hall, hhd, hver, -⟩
    obtain rfl : first :: rest = records := Except.ok.inj (hch'.allRecords_eq.symm.trans hall)
    obtain rfl : first = fst := by simpa using hhd
    rw [verifyRecords, hv] at hver
    cases hr : startRule first with
    | ok u => rfl
    | error f => simp [hr, Except.mapError, Bind.bind, Except.bind] at hver
  · intro hok
    have hver : verifyRecords C J (first :: rest) (some (headHash (run J (.fresh k) (op :: ops))))
        (some first.pubkey) = .ok
          { schemaVersion := 1, records := (first :: rest).length,
            headHash := headHash (run J (.fresh k) (op :: ops)), distinctKeys := n,
            anchoredStart := decide (first.kind = "snapshot") } := by
      rw [verifyRecords, hv, hok]
      rfl
    have hexp : exportJsonl J (run J (.fresh k) (op :: ops)) = .ok (recordsToJsonl J (first :: rest)) := by
      rw [exportJsonl, hch'.allRecords_eq]
      rfl
    have hjsonl : (ledgerVerify C J (recordsToJsonl J (first :: rest)) none none).ok = true := by
      simp only [ledgerVerify, recordsFromJsonl_toJsonl hJ, hv', hok]
      rfl
    exact ⟨_, _, _, _, hch'.allRecords_eq, rfl, hver, by simp [hlen], hexp, hjsonl⟩

/-! ## A concrete scheme -/

/-- Keys are bytes, a signature repeats the key: enough to be sound. -/
def toyCrypto : Crypto where
  Key := UInt8
  sha256 data := data.take 32
  publicKey k := List.replicate 32 k
  validKey _ := true
  sign k _ := List.replicate 64 k
  verify pk _ sig := sig = List.replicate 64 (pk.headD 0)

theorem toyCrypto_sound : toyCrypto.Sound where
  publicKey_length _ := List.length_replicate
  sign_length _ _ := List.length_replicate
  publicKey_valid _ := rfl
  verify_sign _ _ := decide_eq_true rfl

/-- Records, a rotation and a snapshot after it. -/
def mixedOps : List (Op toyCrypto) :=
  [.rotate 2 (9 : UInt8), .snapshot 3, .record 4 "deny" "vm" "db" "drop"]

theorem ledger_verifies_iff_mixed : ∃ records first report content,
    allRecords (run serde (.fresh (7 : UInt8)) (.record 1 "grant" "tw" "fs" "read" :: mixedOps)) =
      .ok records ∧ records.head? = some first ∧
    verifyRecords toyCrypto serde records (some (headHash
      (run serde (.fresh (7 : UInt8)) (.record 1 "grant" "tw" "fs" "read" :: mixedOps))))
      (some first.pubkey) = .ok report ∧ report.records = 4 ∧
    exportJsonl serde (run serde (.fresh (7 : UInt8)) (.record 1 "grant" "tw" "fs" "read" :: mixedOps)) =
      .ok content ∧ (ledgerVerify toyCrypto serde content none none).ok = true :=
  (ledger_verifies_iff toyCrypto_sound serde_sound (7 : UInt8) (.record 1 "grant" "tw" "fs" "read")
    mixedOps).2 nofun

/-- A snapshot on an empty chain is appended and not accepted. -/
theorem snapshot_first_refused :
    (∃ r, allRecords (run serde (.fresh (7 : UInt8)) [Op.snapshot (C := toyCrypto) 0]) = .ok [r] ∧
      verifyRecords toyCrypto serde [r]
        (some (headHash (run serde (.fresh (7 : UInt8)) [Op.snapshot (C := toyCrypto) 0])))
        (some r.pubkey) = .error ("record 1: snapshot anchor at seq 0 is not a valid anchor "
          ++ "(snapshots pin a non-empty head)") ∧
      (ledgerVerify toyCrypto serde (recordsToJsonl serde [r]) none none).ok = false) := by
  obtain ⟨r, hch, hkind⟩ := chained_step (J := serde) toyCrypto_sound (chained_fresh (7 : UInt8))
    (.snapshot 0)
  have hstart : startRule r = .error ⟨some 1, "snapshot anchor at seq 0 is not a valid anchor "
      ++ "(snapshots pin a non-empty head)"⟩ := by
    rw [startRule, if_pos (hkind.2 ⟨0, rfl⟩), if_pos hch.first_seq]
    rfl
  obtain ⟨n, hv⟩ := hch.verify_eq
    (some (headHash (step serde (LedgerState.fresh (C := toyCrypto) (7 : UInt8)) (.snapshot 0))))
    (some r.pubkey) (by simp) (by simp)
  obtain ⟨n', hv'⟩ := hch.verify_eq none none (by simp) (by simp)
  refine ⟨r, hch.allRecords_eq, ?_, ?_⟩
  · rw [run, List.foldl_cons, List.foldl_nil, verifyRecords, hv, hstart]
    rfl
  · rw [ledgerVerify, recordsFromJsonl_toJsonl serde_sound]
    simp only [hv', hstart]
    rfl

end Metalogos.Ledger
