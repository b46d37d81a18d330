import Metalogos.Ledger.Archive

/-!
# The head anchor

`verify_records` with an `expect_head` is meant to pin a whole chain by one published hash. Two
accepted chains with the same head agree backwards from it: the head hash fixes the body of the last
record, its `prev_hash` fixes the hash of the one before it, and so on until the shorter chain ends
(`agree_from_head`). What a body fixes is every field of the record but the hash and the signature, as
two bodies have one text only if they are the same (`Json.Canonical`).

That two chains from genesis are of one length is a matter of the numbers, which a release build counts
modulo 2^64: no list in memory is long enough to come back to the same one.
-/
namespace Metalogos.Ledger

open Metalogos.Lib

/-- Every field but `sig`. -/
def LedgerRecord.unsigned (r : LedgerRecord) : LedgerRecord := { r with sig := "" }

variable {C : Crypto} {J : Json} {b b' : Build}

/-! ## The canonical body fixes the record -/

theorem unsigned_eq_of_body (hJ : J.Canonical) {r r' : LedgerRecord}
    (hbody : canonicalBody J r = canonicalBody J r') (hhash : r.hash = r'.hash) : r.unsigned = r'.unsigned := by
  obtain ⟨hseq, hts, hkind, hactor, haction, hscope, hargs, hprev, hnew, hkey, hpub⟩ := by
    simpa only [LedgerBody.mk.injEq] using hJ.body_injective hbody
  -- an empty new key is one that is left out
  have hnew' : r.newPubkey = r'.newPubkey := by
    split_ifs at hnew with h h' h'
    · rw [h, h']
    · exact Option.some.inj hnew
  simp only [LedgerRecord.unsigned, hseq, hts, hkind, hactor, haction, hscope, hargs, hprev, hnew', hkey, hpub, hhash]

/-! ## Accepted under a head -/

/-- A chain that ends in the head. -/
structure Accepted (C : Crypto) (J : Json) (b : Build) (records : List LedgerRecord) (head : String) : Prop where
  chain : Chain C J b records
  last : ∃ r, records.getLast? = some r ∧ r.hash = head

theorem accepted_of_verify {records : List LedgerRecord} {head : String} {key : Option String}
    {report : VerifyReport} (h : verifyRecordsU64 C J b records (some head) key = some (.ok report)) :
    Accepted C J b records head := by
  cases records with
  | nil => cases h
  | cons first rest =>
    obtain ⟨-, hhead, hchain, -⟩ := verifyRecordsU64_ok_iff.1 ⟨report, h⟩
    obtain ⟨r, hr⟩ : ∃ r, (first :: rest).getLast? = some r :=
      ⟨_, List.getLast?_eq_some_getLast (List.cons_ne_nil first rest)⟩
    refine ⟨hchain, r, hr, ?_⟩
    by_contra hne
    rw [lastHash, hr] at hhead
    simp [checkHead, hne] at hhead

/-! ## Agreement backwards from the head -/

/-- Two chains, newest record first, whose newest records have one hash. -/
theorem agree_from_head {succ succ' : Nat → Option Nat} {xs : List LedgerRecord} :
    ∀ {ys : List LedgerRecord} {head : String},
    (∀ r ∈ xs, ∀ r' ∈ ys, r.hash = r'.hash → r.unsigned = r'.unsigned) →
    xs.IsChain (fun r before => Follows succ before r) → ys.IsChain (fun r before => Follows succ' before r) →
    (∀ r ∈ xs.head?, r.hash = head) → (∀ r ∈ ys.head?, r.hash = head) → xs.length ≤ ys.length →
    xs.map (·.unsigned) = (ys.take xs.length).map (·.unsigned) := by
  induction xs with
  | nil => simp
  | cons x xs ih =>
    intro ys head hinj hx hy hxh hyh hlen
    cases ys with
    | nil => simp at hlen
    | cons y ys =>
      have hxy : x.hash = y.hash := (hxh x (by simp)).trans (hyh y (by simp)).symm
      have hsame : x.unsigned = y.unsigned := hinj x (by simp) y (by simp) hxy
      have hprev : x.unsigned.prevHash = y.unsigned.prevHash := by rw [hsame]
      rw [List.isChain_cons] at hx hy
      have hrest := @ih ys x.prevHash
        (fun r hr r' hr' => hinj r (List.mem_cons_of_mem _ hr) r' (List.mem_cons_of_mem _ hr'))
        hx.2 hy.2 (fun r hr => (hx.1 r hr).prevHash.symm)
        (fun r hr => (hy.1 r hr).prevHash.symm.trans hprev.symm) (by simpa using hlen)
      simp [hsame, hrest]

/-- SHA-256 does not collide on the bodies of these records. -/
def CollisionFree (C : Crypto) (J : Json) (as bs : List LedgerRecord) : Prop :=
  ∀ r ∈ as, ∀ r' ∈ bs, recordHash C J r = recordHash C J r' → canonicalBody J r = canonicalBody J r'

namespace Accepted

variable {as bs : List LedgerRecord} {hd : String}

/-- Records of one hash are the same but for their signatures. -/
theorem unsigned_eq (ha : Accepted C J b as hd) (hb : Accepted C J b' bs hd) (hJ : J.Canonical)
    (hinj : CollisionFree C J as bs) {r r' : LedgerRecord} (hr : r ∈ as) (hr' : r' ∈ bs) (heq : r.hash = r'.hash) :
    r.unsigned = r'.unsigned :=
  unsigned_eq_of_body hJ
    (hinj r hr r' hr' (by rw [(ha.chain.self r hr).hash, (hb.chain.self r' hr').hash, heq])) heq

theorem head_reverse (ha : Accepted C J b as hd) : ∀ r ∈ as.reverse.head?, r.hash = hd := by
  intro r hr
  obtain ⟨l, hl, hh⟩ := ha.last
  rw [List.head?_reverse, hl] at hr
  obtain rfl : l = r := by simpa using hr
  exact hh

theorem suffix_agrees (ha : Accepted C J b as hd) (hb : Accepted C J b' bs hd) (hJ : J.Canonical)
    (hinj : CollisionFree C J as bs) (hlen : as.length ≤ bs.length) :
    as.map (·.unsigned) = (bs.drop (bs.length - as.length)).map (·.unsigned) := by
  have hrev := @agree_from_head b.succ b'.succ as.reverse bs.reverse hd
    (fun r hr r' hr' heq => ha.unsigned_eq hb hJ hinj (List.mem_reverse.1 hr) (List.mem_reverse.1 hr') heq)
    (List.isChain_reverse.2 ha.chain.follows) (List.isChain_reverse.2 hb.chain.follows) ha.head_reverse
    hb.head_reverse (by simpa using hlen)
  rw [List.length_reverse, List.take_reverse, List.map_reverse, List.map_reverse] at hrev
  exact List.reverse_injective hrev

/-- The number of the last record counts the records before it. -/
theorem last_seq (ha : Accepted C J b as hd) (hmem : InMemory as) (h0 : ∀ r ∈ as.head?, r.seq = 0) :
    ∃ l ∈ as, l.hash = hd ∧ as.length = l.seq + 1 := by
  obtain ⟨l, hl, hh⟩ := ha.last
  have hin : l ∈ as := List.mem_of_getLast? hl
  refine ⟨l, hin, hh, ?_⟩
  cases as with
  | nil => cases hl
  | cons first rest =>
    rw [List.getLast?_eq_getElem?, List.length_cons, Nat.add_sub_cancel] at hl
    have hmod : l.seq % 2 ^ 64 = (first.seq + rest.length) % 2 ^ 64 := ha.chain.seq_mod hmem.seq_le hl
    have hle := hmem.seq_le l hin
    have hlen := hmem.length_le
    have hfirst := h0 first rfl
    rw [List.length_cons] at hlen ⊢
    unfold maxSeq at hle
    omega

/-- Two chains from genesis with one head are of one length. -/
theorem length_eq_of_genesis (ha : Accepted C J b as hd) (hb : Accepted C J b' bs hd) (hJ : J.Canonical)
    (hinj : CollisionFree C J as bs) (hma : InMemory as) (hmb : InMemory bs)
    (ha0 : ∀ r ∈ as.head?, r.seq = 0) (hb0 : ∀ r ∈ bs.head?, r.seq = 0) : as.length = bs.length := by
  obtain ⟨l, hl, hlh, hlen⟩ := ha.last_seq hma ha0
  obtain ⟨l', hl', hlh', hlen'⟩ := hb.last_seq hmb hb0
  have hsame : l.unsigned = l'.unsigned := ha.unsigned_eq hb hJ hinj hl hl' (hlh.trans hlh'.symm)
  have hseq : l.unsigned.seq = l'.unsigned.seq := by rw [hsame]
  rw [hlen, hlen']
  exact congrArg (· + 1) hseq

end Accepted

/-- The head anchor binds the chain, whatever builds verify the two. -/
theorem head_anchor_binds (C : Crypto) (J : Json) (hJ : J.Canonical) (b b' : Build) (as bs : List LedgerRecord)
    (hd : String) (ka kb : Option String) (ra rb : VerifyReport) (hma : InMemory as) (hmb : InMemory bs)
    (hinj : CollisionFree C J as bs) (ha : verifyRecordsU64 C J b as (some hd) ka = some (.ok ra))
    (hb : verifyRecordsU64 C J b' bs (some hd) kb = some (.ok rb)) :
    (as.length ≤ bs.length →
      as.map (·.unsigned) = (bs.drop (bs.length - as.length)).map (·.unsigned)) ∧
    ((∀ r ∈ as.head?, r.seq = 0) → (∀ r ∈ bs.head?, r.seq = 0) →
      as.map (·.unsigned) = bs.map (·.unsigned)) := by
  have ha := accepted_of_verify ha
  have hb := accepted_of_verify hb
  refine ⟨ha.suffix_agrees hb hJ hinj, fun ha0 hb0 => ?_⟩
  have hlen := ha.length_eq_of_genesis hb hJ hinj hma hmb ha0 hb0
  have h := ha.suffix_agrees hb hJ hinj hlen.le
  simpa [hlen] using h

/-! ## One chain under two signatures -/

/-- As `toyCrypto`, but a digest keeps its input, and a signature has a nonce in its first half: one message has many. -/
def nonceCrypto : Crypto :=
  { toyCrypto with sha256 := fun data => data, verify := fun pk _ sig => decide (sig.drop 32 = pk) }

theorem nonceCrypto_sound : nonceCrypto.Sound where
  publicKey_length _ := List.length_replicate
  sign_length _ _ := List.length_replicate
  publicKey_valid _ := rfl
  verify_sign _ _ := decide_eq_true List.drop_replicate

section

variable {r : LedgerRecord} {rs : List LedgerRecord}

/-- The record signed again, with the nonce 0. -/
def Sample.resign (r : LedgerRecord) : LedgerRecord :=
  { r with sig := String.ofList (List.replicate 64 '0' ++ r.pubkey.toList) }

theorem hexDecode_zeros (n : Nat) (s : List Char) :
    hexDecode (List.replicate (2 * n) '0' ++ s) = (hexDecode s).map (List.replicate n 0 ++ ·) := by
  induction n with
  | zero => simp
  | succ n ih =>
    rw [show 2 * (n + 1) = 2 * n + 1 + 1 by omega, List.replicate_succ, List.replicate_succ, List.cons_append,
      List.cons_append, hexDecode, ih]
    cases hexDecode s <;> rfl

theorem selfValid_resign (h : SelfValid nonceCrypto J r) : SelfValid nonceCrypto J (Sample.resign r) := by
  refine ⟨h.hash, h.keyId, ?_, h.kind⟩
  have hsig := h.signature
  unfold checkSignature at hsig ⊢
  cases hs : decodeExact 64 r.sig with
  | none => simp [hs] at hsig
  | some sig =>
  cases hk : decodeExact 32 r.pubkey with
  | none => simp [hs, hk] at hsig
  | some vk =>
    have hpub : hexDecode r.pubkey.toList = some vk ∧ vk.length = 32 := by
      unfold decodeExact decodeHex32Plus at hk
      split_ifs at hk with hempty
      · cases hk
      · obtain ⟨v, hv, hlen⟩ := Option.bind_eq_some_iff.1 hk
        split_ifs at hlen with h32
        obtain rfl := Option.some.inj hlen
        exact ⟨hv, h32⟩
    have hnew : decodeExact 64 (Sample.resign r).sig = some (List.replicate 32 0 ++ vk) := by
      have hdec := hexDecode_zeros 32 r.pubkey.toList
      rw [hpub.1] at hdec
      have hne : (Sample.resign r).sig ≠ "" := by
        intro h
        have hl := congrArg (fun s => s.toList.length) h
        simp [Sample.resign] at hl
      unfold decodeExact decodeHex32Plus
      rw [if_neg hne, Sample.resign, String.toList_ofList, hdec]
      simp [hpub.2]
    have hkey : decodeExact 32 (Sample.resign r).pubkey = some vk := hk
    rw [hnew, hkey]
    simp [nonceCrypto, toyCrypto]

theorem chain_resign (h : Chain nonceCrypto J b rs) : Chain nonceCrypto J b (rs.map Sample.resign) := by
  refine ⟨fun r hr => ?_, ?_⟩
  · obtain ⟨x, hx, rfl⟩ := List.mem_map.1 hr
    exact selfValid_resign (h.self x hx)
  · exact List.isChain_map_of_isChain Sample.resign (fun _ _ hf => ⟨hf.seq, hf.prevHash, hf.signer⟩) h.follows

end

/-! A digest that keeps its input does not collide. -/

theorem toList_loop (bs : ByteArray) (k : Nat) : ∀ (i : Nat) (r : List UInt8), bs.size - i = k →
    ByteArray.toList.loop bs i r = r.reverse ++ bs.data.toList.drop i := by
  have hlen : bs.data.toList.length = bs.size := rfl
  induction k with
  | zero =>
    intro i r h
    rw [ByteArray.toList.loop, if_neg (by omega), List.drop_eq_nil_of_le (by omega), List.append_nil]
  | succ k ih =>
    intro i r h
    have hi : i < bs.data.toList.length := by omega
    have hget : bs.get! i = bs.data.toList[i] := by
      show bs.data[i]! = _
      rw [getElem!_pos bs.data i (by simpa using hi), Array.getElem_toList]
    rw [ByteArray.toList.loop, if_pos (by omega), ih (i + 1) _ (by omega), List.drop_eq_getElem_cons hi, hget]
    simp

theorem bytes_inj {s t : String} (h : bytes s = bytes t) : s = t := by
  have hdata (bs : ByteArray) : bs.toList = bs.data.toList := toList_loop bs _ 0 [] rfl
  rw [bytes, bytes, hdata, hdata] at h
  exact String.toByteArray_inj.1 (ByteArray.ext (Array.toList_inj.1 h))

theorem nonceCrypto_collisionFree (as bs : List LedgerRecord) : CollisionFree nonceCrypto J as bs := by
  intro r _ r' _ h
  have hdec := congrArg (fun s => hexDecode s.toList) h
  simp only [recordHash, sha256Hex, hex_toList, hexDecode_encode, Option.some.injEq] at hdec
  exact bytes_inj hdec

section

variable (b : Build)

/-- The rows of a writer with a rotation, all signed again. -/
theorem resigned_accepted : ∃ report, verifyRecordsU64 nonceCrypto serde b
    ((Sample.rows nonceCrypto (7 : UInt8) (9 : UInt8)).map Sample.resign)
    (some (lastHash (Sample.rows nonceCrypto (7 : UInt8) (9 : UInt8)))) none = some (.ok report) := by
  obtain ⟨report, h⟩ := rows_accepted nonceCrypto_sound b (7 : UInt8) (9 : UInt8)
  obtain ⟨r₀, r₁, r₂, r₃, r₄, hrows, -⟩ := rows_eq (C := nonceCrypto) (7 : UInt8) (9 : UInt8)
  rw [hrows] at h ⊢
  obtain ⟨hopens, hhead, hch, hin⟩ := verifyRecordsU64_ok_iff.1 ⟨report, h⟩
  refine verifyRecordsU64_ok_iff.2 ⟨hopens, hhead, chain_resign hch, fun x hx => ?_⟩
  obtain ⟨r, hr, rfl⟩ := List.mem_map.1 (show x ∈ [r₀, r₁, r₂, r₃, r₄].map Sample.resign from hx)
  exact hin r hr

/-- What they are from the first snapshot on. -/
theorem resigned_suffix_accepted : ∃ report, verifyRecordsU64 nonceCrypto serde b
    (((Sample.rows nonceCrypto (7 : UInt8) (9 : UInt8)).map Sample.resign).drop 2)
    (some (lastHash (Sample.rows nonceCrypto (7 : UInt8) (9 : UInt8)))) none = some (.ok report) := by
  obtain ⟨report, h⟩ := resigned_accepted b
  obtain ⟨r₀, r₁, r₂, r₃, r₄, hrows, hseqs, hkinds⟩ := rows_eq (C := nonceCrypto) (7 : UInt8) (9 : UInt8)
  rw [hrows] at h ⊢
  obtain ⟨-, hhead, hch, hin⟩ := verifyRecordsU64_ok_iff.1 ⟨report, h⟩
  simp only [List.map_cons, List.map_nil, List.cons.injEq, and_true] at hseqs hkinds
  have hsuffix : [r₂, r₃, r₄].map Sample.resign <:+ [r₀, r₁, r₂, r₃, r₄].map Sample.resign :=
    ⟨[r₀, r₁].map Sample.resign, rfl⟩
  have hself : SelfValid nonceCrypto serde (Sample.resign r₂) := hch.self _ (by simp)
  have hne : (Sample.resign r₂).seq ≠ 0 := by
    show r₂.seq ≠ 0
    omega
  exact verifyRecordsU64_ok_iff.2 ⟨(opens_snapshot_iff hself hkinds.2.2.1).2 hne, hhead, hch.suffix hsuffix,
    fun x hx => hin x (hsuffix.subset hx)⟩

theorem resigned_inMemory :
    InMemory ((Sample.rows nonceCrypto (7 : UInt8) (9 : UInt8)).map Sample.resign) := by
  have h := rows_inMemory (C := nonceCrypto) (7 : UInt8) (9 : UInt8)
  refine ⟨fun x hx => ?_, by simpa using h.length_le⟩
  obtain ⟨r, hr, rfl⟩ := List.mem_map.1 hx
  exact h.seq_le r hr

end

open Sample in
/-- The chain of the writer against what is left of it after its first snapshot, and against all of it, signed
again. -/
theorem head_anchor_binds_resigned :
    (((rows nonceCrypto (7 : UInt8) (9 : UInt8)).map resign).drop 2).map (·.unsigned) =
        ((rows nonceCrypto (7 : UInt8) (9 : UInt8)).drop 2).map (·.unsigned) ∧
      ((rows nonceCrypto (7 : UInt8) (9 : UInt8)).map resign).map (·.unsigned) =
        (rows nonceCrypto (7 : UInt8) (9 : UInt8)).map (·.unsigned) := by
  obtain ⟨r, hr⟩ := rows_accepted nonceCrypto_sound .checked (7 : UInt8) (9 : UInt8)
  obtain ⟨ra, ha⟩ := resigned_suffix_accepted .wrapping
  obtain ⟨rb, hb⟩ := resigned_accepted .wrapping
  have hmem := rows_inMemory (C := nonceCrypto) (7 : UInt8) (9 : UInt8)
  have hmem' := resigned_inMemory
  obtain ⟨r₀, r₁, r₂, r₃, r₄, hrows, hseqs, -⟩ := rows_eq (C := nonceCrypto) (7 : UInt8) (9 : UInt8)
  rw [hrows] at hr ha hb hmem hmem' ⊢
  have hshort : InMemory (([r₀, r₁, r₂, r₃, r₄].map resign).drop 2) :=
    ⟨fun x hx => hmem'.seq_le x (List.mem_of_mem_drop hx), by simp⟩
  have hfirst : r₀.seq = 0 := (List.cons.inj hseqs).1
  constructor
  · exact (head_anchor_binds nonceCrypto serde serde_canonical .wrapping .checked _ _ _ none none ra r hshort hmem
      (nonceCrypto_collisionFree _ _) ha hr).1 (by simp)
  · refine (head_anchor_binds nonceCrypto serde serde_canonical .wrapping .checked _ _ _ none none rb r hmem' hmem
      (nonceCrypto_collisionFree _ _) hb hr).2 ?_ ?_
    · simpa [resign] using hfirst
    · simpa using hfirst

end Metalogos.Ledger
