import Mathlib.Data.List.Sort
import Metalogos.Lib.Text

/-!
# The action ledger: records and the writer

`src/ledger.rs`: a signed, append-only chain of records. Every record carries the hash of the one
before it, the hash of its own body and a signature of that hash; a rotation names the key that
takes over.

What is outside the repository is a parameter: `Crypto` is SHA-256 and Ed25519, `Json` is
`serde_json` on the two record shapes. `Crypto.Sound`, `Json.Sound` and `Json.Canonical` list what the
ledger relies on. The SQLite table is a list of rows with its primary key.
-/
namespace Metalogos.Ledger

open Metalogos.Lib

/-! ## Primitives -/

/-- SHA-256 on bytes, Ed25519 keys and signatures; `validKey` is `VerifyingKey::from_bytes`. -/
structure Crypto where
  Key : Type
  sha256 : List UInt8 → List UInt8
  publicKey : Key → List UInt8
  validKey : List UInt8 → Bool
  sign : Key → List UInt8 → List UInt8
  verify : List UInt8 → List UInt8 → List UInt8 → Bool

structure Crypto.Sound (C : Crypto) : Prop where
  publicKey_length (k : C.Key) : (C.publicKey k).length = 32
  sign_length (k : C.Key) (msg : List UInt8) : (C.sign k msg).length = 64
  publicKey_valid (k : C.Key) : C.validKey (C.publicKey k) = true
  verify_sign (k : C.Key) (msg : List UInt8) : C.verify (C.publicKey k) msg (C.sign k msg) = true

/-- mirrors src/ledger.rs:36-37 -/
def genesisPrevHash : String := String.ofList (List.replicate 64 '0')

/-- mirrors src/ledger.rs:51-74 -/
structure LedgerRecord where
  seq : Nat
  ts : Nat
  kind : String
  actor : String
  action : String
  scope : String
  argsHash : String
  prevHash : String
  newPubkey : String
  keyId : String
  pubkey : String
  hash : String
  sig : String
  deriving DecidableEq

/-- Everything but `hash` and `sig`; an empty `new_pubkey` is left out.
mirrors src/ledger.rs:79-93 -/
structure LedgerBody where
  seq : Nat
  ts : Nat
  kind : String
  actor : String
  action : String
  scope : String
  argsHash : String
  prevHash : String
  newPubkey : Option String
  keyId : String
  pubkey : String

/-- `serde_json` on bodies and records. -/
structure Json where
  body : LedgerBody → String
  record : LedgerRecord → String
  parse : String → Except String LedgerRecord

/-- A record is written as one object on one line, and read back. -/
structure Json.Sound (J : Json) : Prop where
  parse_record (r : LedgerRecord) : J.parse (J.record r) = .ok r
  noNewline (r : LedgerRecord) : '\n' ∉ (J.record r).toList
  opens (r : LedgerRecord) : (J.record r).toList.head? = some '\x7b'
  closes (r : LedgerRecord) : (J.record r).toList.getLast? = some '\x7d'

/-- Bodies with one text are one body. -/
structure Json.Canonical (J : Json) : Prop where
  body_injective : Function.Injective J.body

section

variable (C : Crypto) (J : Json)

def bytes (s : String) : List UInt8 := s.toUTF8.toList

/-- `hex::encode`. The crate is a dependency of the source: the digits are as it documents them, lower case, two to a
byte, and read back in either case. -/
def hex (bs : List UInt8) : String := String.ofList (hexEncode bs)

/-- mirrors src/ledger.rs:120-124 -/
def sha256Hex (data : List UInt8) : String := hex (C.sha256 data)

/-- mirrors src/ledger.rs:96-116 -/
def canonicalBody (r : LedgerRecord) : String :=
  J.body
    { seq := r.seq, ts := r.ts, kind := r.kind, actor := r.actor, action := r.action,
      scope := r.scope, argsHash := r.argsHash, prevHash := r.prevHash,
      newPubkey := if r.newPubkey = "" then none else some r.newPubkey,
      keyId := r.keyId, pubkey := r.pubkey }

/-- mirrors src/ledger.rs:127-129 -/
def recordHash (r : LedgerRecord) : String := sha256Hex C (bytes (canonicalBody J r))

/-- mirrors src/ledger.rs:138-143 -/
def decodeHex32Plus (s : String) : Option (List UInt8) :=
  if s = "" then none else hexDecode s.toList

/-- mirrors src/ledger.rs:132-135 -/
def keyIdOf (pubkeyHex : String) : Option String :=
  (decodeHex32Plus pubkeyHex).map fun bs => String.ofList ((sha256Hex C bs).toList.take 16)

/-- mirrors src/ledger.rs:147-149 -/
def argsHashOf (detail : String) : String := sha256Hex C (bytes detail)

end

/-! ## The writer -/

/-- mirrors src/ledger.rs:153-168; `conn` holds the rows of `action_ledger`. -/
structure LedgerState (C : Crypto) where
  conn : Option (List LedgerRecord)
  signing : C.Key
  activePubkey : String
  headSeq : Option Nat
  headHash : String
  writeFailures : Nat

variable {C : Crypto}

/-- A process that starts with an empty table.
mirrors src/ledger.rs:170-241 -/
def LedgerState.fresh (k : C.Key) : LedgerState C where
  conn := some []
  signing := k
  activePubkey := hex (C.publicKey k)
  headSeq := none
  headHash := genesisPrevHash
  writeFailures := 0

/-- `INSERT` under the primary key `seq`. -/
def insertRow (rows : List LedgerRecord) (r : LedgerRecord) : Except String (List LedgerRecord) :=
  if rows.any (·.seq = r.seq) then
    .error "action ledger insert: UNIQUE constraint failed: action_ledger.seq"
  else .ok (rows ++ [r])

variable (J : Json)

/-- The first record takes sequence number 0.
mirrors src/ledger.rs:288-291 -/
def LedgerState.nextSeq (s : LedgerState C) : Nat :=
  match s.headSeq with
  | none => 0
  | some n => n + 1

/-- The record the next append stores.
mirrors src/ledger.rs:286-312 -/
def LedgerState.nextRecord (s : LedgerState C) (ts : Nat) (kind actor action scope argsHash : String)
    (newPubkey : Option String) : LedgerRecord :=
  let pubkey := hex (C.publicKey s.signing)
  let r : LedgerRecord :=
    { seq := s.nextSeq, ts := ts, kind := kind, actor := actor, action := action,
      scope := scope, argsHash := argsHash, prevHash := s.headHash, newPubkey := newPubkey.getD "",
      keyId := (keyIdOf C pubkey).getD "", pubkey := pubkey, hash := "", sig := "" }
  let hash := recordHash C J r
  { r with hash := hash, sig := hex (C.sign s.signing (bytes hash)) }

/-- mirrors src/ledger.rs:271-334 -/
def appendRecord (s : LedgerState C) (ts : Nat) (kind actor action scope argsHash : String)
    (newPubkey : Option String) : Except String LedgerRecord × LedgerState C :=
  match s.conn with
  | none => (.error "action ledger unavailable (in-memory sqlite failed to initialize)", s)
  | some rows =>
    let r := s.nextRecord J ts kind actor action scope argsHash newPubkey
    match insertRow rows r with
    | .error e => (.error e, s)
    | .ok rows => (.ok r, { s with conn := some rows, headSeq := some r.seq, headHash := r.hash })

/-- A call on the ledger; `ts` is the clock, `key` the key a rotation draws. -/
inductive Op (C : Crypto) where
  | record (ts : Nat) (action actor scope detail : String)
  | rotate (ts : Nat) (key : C.Key)
  | snapshot (ts : Nat)

/-- mirrors src/ledger.rs:338-347 -/
def record (s : LedgerState C) (ts : Nat) (action actor scope detail : String) : LedgerState C :=
  match appendRecord J s ts "action" actor action scope (argsHashOf C detail) none with
  | (.ok _, s) => s
  | (.error _, s) => { s with writeFailures := s.writeFailures + 1 }

/-- The rotation is signed by the key that is still active; the new one takes over after it.
mirrors src/ledger.rs:386-410 -/
def rotate (s : LedgerState C) (ts : Nat) (key : C.Key) : Except String String × LedgerState C :=
  let newPubkey := hex (C.publicKey key)
  match appendRecord J s ts "key_rotation" "runtime" "ledger.rotate" "" (argsHashOf C newPubkey)
      (some newPubkey) with
  | (.error e, s) => (.error e, s)
  | (.ok _, s) =>
    (.ok ((keyIdOf C newPubkey).getD ""), { s with signing := key, activePubkey := newPubkey })

/-- mirrors src/ledger.rs:414-424 -/
def snapshot (s : LedgerState C) (ts : Nat) : Except String String × LedgerState C :=
  match appendRecord J s ts "snapshot" "runtime" "ledger.snapshot" "" (argsHashOf C "snapshot")
      none with
  | (.error e, s) => (.error e, s)
  | (.ok r, s) => (.ok r.hash, s)

def step (s : LedgerState C) : Op C → LedgerState C
  | .record ts action actor scope detail => record J s ts action actor scope detail
  | .rotate ts key => (rotate J s ts key).2
  | .snapshot ts => (snapshot J s ts).2

/-- Calls one after another. -/
def run (s : LedgerState C) (ops : List (Op C)) : LedgerState C := ops.foldl (step J) s

/-- mirrors src/ledger.rs:363-372 -/
def headHash (s : LedgerState C) : String := if s.headSeq.isNone then "" else s.headHash

/-- `SELECT .. ORDER BY seq`.
mirrors src/ledger.rs:429-451 -/
def allRecords (s : LedgerState C) : Except String (List LedgerRecord) :=
  match s.conn with
  | none => .error "action ledger unavailable"
  | some rows => .ok (rows.insertionSort (·.seq ≤ ·.seq))

/-- mirrors src/ledger.rs:508-518 -/
def recordsToJsonl (rs : List LedgerRecord) : String :=
  String.ofList (rs.flatMap fun r => (J.record r).toList ++ ['\n'])

/-- mirrors src/ledger.rs:502-505 -/
def exportJsonl (s : LedgerState C) : Except String String :=
  (allRecords s).map (recordsToJsonl J)

/-- `i` counts the lines read.
mirrors src/ledger.rs:521-533 -/
def recordsFromLines : Nat → List (List Char) → Except String (List LedgerRecord)
  | _, [] => .ok []
  | i, l :: ls =>
    if trim l = [] then recordsFromLines (i + 1) ls
    else match J.parse (String.ofList (trim l)) with
      | .error e => .error ("line " ++ toString (i + 1) ++ ": not a ledger record: " ++ e)
      | .ok r => (recordsFromLines (i + 1) ls).map (r :: ·)

def recordsFromJsonl (content : String) : Except String (List LedgerRecord) :=
  recordsFromLines J 0 (lines content.toList)

variable {J}

/-- What is exported is read back. -/
theorem recordsFromJsonl_toJsonl (hJ : J.Sound) (rs : List LedgerRecord) :
    recordsFromJsonl J (recordsToJsonl J rs) = .ok rs := by
  have hlines : lines (recordsToJsonl J rs).toList = rs.map fun r => (J.record r).toList := by
    rw [recordsToJsonl, String.toList_ofList,
      show rs.flatMap (fun r => (J.record r).toList ++ ['\n']) =
        (rs.map fun r => (J.record r).toList).flatMap (· ++ ['\n']) by rw [List.flatMap_map]]
    refine lines_terminated ?_ ?_
    · intro l hl
      obtain ⟨r, -, rfl⟩ := List.mem_map.1 hl
      exact hJ.noNewline r
    · intro l hl
      obtain ⟨r, -, rfl⟩ := List.mem_map.1 hl
      rw [hJ.closes r]
      decide
  have hread : ∀ (i : Nat) (rs : List LedgerRecord),
      recordsFromLines J i (rs.map fun r => (J.record r).toList) = .ok rs := by
    intro i rs
    induction rs generalizing i with
    | nil => rfl
    | cons r rs ih =>
      have htrim : trim (J.record r).toList = (J.record r).toList := by
        refine trim_of_solid (fun c hc => ?_) fun c hc => ?_
        · rw [hJ.opens r] at hc
          obtain rfl : '\x7b' = c := by simpa using hc
          decide
        · rw [hJ.closes r] at hc
          obtain rfl : '\x7d' = c := by simpa using hc
          decide
      have hne : (J.record r).toList ≠ [] := by
        intro h
        have ho := hJ.opens r
        simp [h] at ho
      rw [List.map_cons, recordsFromLines, htrim, if_neg hne, String.ofList_toList,
        hJ.parse_record r, ih]
      rfl
  rw [recordsFromJsonl, hlines, hread]

end Metalogos.Ledger
