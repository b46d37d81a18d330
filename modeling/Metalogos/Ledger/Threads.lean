import Metalogos.Ledger.Verify

/-!
# The action ledger: concurrent writers

The ledger mutex makes every `append_record` and the key swap at the end of `rotate` a critical
section of its own (`src/ledger.rs:271-334,386-410`). `Threads` is the ledger with the calls of
`rotate` that stand between their two sections; an interleaving is a list of sections, each by its
thread.

As long as nothing is appended between the two sections (`Quiet`), the swap finds the chain as a rotation
in one piece leaves it (`Kept`, `kept_run`). A record appended in the gap is signed by the old key and the
chain stays rejected: `gap_refused`.
-/
namespace Metalogos.Ledger

variable {C : Crypto}

/-! ## Critical sections -/

/-- One critical section, by the thread that runs it. -/
inductive Event (C : Crypto) where
  | record (thread ts : Nat) (action actor scope detail : String)
  | snapshot (thread ts : Nat)
  | rotateAppend (thread ts : Nat) (key : C.Key)
  | rotateSwap (thread : Nat)

/-- `rotating`: the calls of `rotate` that appended their record and did not install their key yet. -/
structure Threads (C : Crypto) where
  ledger : LedgerState C
  rotating : List (Nat × C.Key)

def Threads.fresh (k : C.Key) : Threads C := ⟨.fresh k, []⟩

/-- The thread is inside a `rotate`: its next section can only be the swap. -/
def Threads.busy (c : Threads C) (thread : Nat) : Bool := (c.rotating.lookup thread).isSome

/-- mirrors src/ledger.rs:402-408 -/
def swapKey (s : LedgerState C) (key : C.Key) : LedgerState C :=
  { s with signing := key, activePubkey := hex (C.publicKey key) }

variable (J : Json)

/-- The first section of `rotate`.
mirrors src/ledger.rs:387-401 -/
def rotateAppend (s : LedgerState C) (ts : Nat) (key : C.Key) : Except String LedgerRecord × LedgerState C :=
  appendRecord J s ts "key_rotation" "runtime" "ledger.rotate" "" (argsHashOf C (hex (C.publicKey key)))
    (some (hex (C.publicKey key)))

/-- A section runs, unless its thread is somewhere else. -/
def Threads.step (c : Threads C) : Event C → Option (Threads C)
  | .record thread ts action actor scope detail =>
    if c.busy thread then none else some { c with ledger := record J c.ledger ts action actor scope detail }
  | .snapshot thread ts =>
    if c.busy thread then none else some { c with ledger := (snapshot J c.ledger ts).2 }
  | .rotateAppend thread ts key =>
    if c.busy thread then none
    else match rotateAppend J c.ledger ts key with
      | (.error _, s) => some { c with ledger := s }
      | (.ok _, s) => some { ledger := s, rotating := c.rotating ++ [(thread, key)] }
  | .rotateSwap thread =>
    match c.rotating.lookup thread with
    | none => none
    | some key => some
        { ledger := swapKey c.ledger key, rotating := c.rotating.filter (·.1 ≠ thread) }

/-- An interleaving all of whose sections meet `ok` in the state they start from. -/
inductive Run (ok : Threads C → Event C → Prop) : Threads C → List (Event C) → Threads C → Prop where
  | nil (c : Threads C) : Run ok c [] c
  | cons {c c₁ c₂ : Threads C} {e : Event C} {es : List (Event C)} (hok : ok c e)
    (hstep : c.step J e = some c₁) (hrest : Run ok c₁ es c₂) : Run ok c (e :: es) c₂

def Event.appends : Event C → Bool
  | .rotateSwap _ => false
  | _ => true

/-- Nothing is appended while a `rotate` stands between its two sections. -/
def Quiet (c : Threads C) (e : Event C) : Prop := e.appends = true → c.rotating = []

/-! ## Signer continuity -/

section

variable {J}

theorem verifyLoop_append {xs ys : List LedgerRecord} : ∀ {st st' : VState} {n : Nat},
    verifyLoop C J st n (xs ++ ys) = .ok st' → ∃ st₁, verifyLoop C J st n xs = .ok st₁ ∧
      verifyLoop C J st₁ (n + xs.length) ys = .ok st' := by
  induction xs with
  | nil =>
    intro st st' n h
    exact ⟨st, rfl, h⟩
  | cons x xs ih =>
    intro st st' n h
    obtain ⟨st₁, hc, hrest⟩ := verifyLoop_cons h
    obtain ⟨st₂, h₁, h₂⟩ := ih hrest
    refine ⟨st₂, ?_, ?_⟩
    · rw [verifyLoop, hc]
      exact h₁
    · rw [List.length_cons, Nat.add_comm xs.length, ← Nat.add_assoc]
      exact h₂

/-- The key that has to sign next. -/
theorem advance_active {st st' : VState} {n : Nat} {r : LedgerRecord} (h : advance C st n r = .ok st') :
    st'.active = if r.kind = "key_rotation" then r.newPubkey else st.active := by
  unfold advance at h
  simp only at h
  split_ifs at h with hk
  all_goals
    cases h
    simp [hk]

theorem verifyLoop_active {rs : List LedgerRecord} : ∀ {st st' : VState} {n : Nat},
    verifyLoop C J st n rs = .ok st' → (∀ r ∈ rs, r.kind ≠ "key_rotation") → st'.active = st.active := by
  induction rs with
  | nil =>
    intro st st' n h _
    cases h
    rfl
  | cons r rs ih =>
    intro st st' n h hno
    obtain ⟨st₁, hc, hrest⟩ := verifyLoop_cons h
    obtain ⟨-, -, -, -, hadv⟩ := checkRecord_ok hc
    rw [ih hrest fun a ha => hno a (List.mem_cons_of_mem _ ha), advance_active hadv,
      if_neg (hno r (by simp))]

/-- In an accepted sequence, the records after a rotation, up to the next one, carry the key it names. -/
theorem signer_continuity {rows : List LedgerRecord} {eh ek : Option String} {report : VerifyReport}
    (h : verifyRecords C J rows eh ek = .ok report) {pre mid post : List LedgerRecord}
    {r r' : LedgerRecord} (hrows : rows = pre ++ r :: (mid ++ r' :: post))
    (hr : r.kind = "key_rotation") (hmid : ∀ m ∈ mid, m.kind ≠ "key_rotation") :
    r'.pubkey = r.newPubkey := by
  cases rows with
  | nil => cases h
  | cons first rest =>
    obtain ⟨⟨st, hloop⟩, -⟩ := verifyRecords_ok h
    rw [hrows] at hloop
    obtain ⟨st₁, -, h₁⟩ := verifyLoop_append hloop
    obtain ⟨st₂, hc, h₂⟩ := verifyLoop_cons h₁
    obtain ⟨st₃, h₃, h₄⟩ := verifyLoop_append h₂
    obtain ⟨st₄, hc', -⟩ := verifyLoop_cons h₄
    obtain ⟨-, -, -, -, hadv⟩ := checkRecord_ok hc
    obtain ⟨-, -, -, hpub, -⟩ := checkRecord_ok hc'
    rw [hpub, verifyLoop_active h₃ hmid, advance_active hadv, if_pos hr]

end

/-! ## The invariant -/

/-- Either no rotation is under way and the writer stands where the verifier does, or one is and the
writer will once the key is swapped. -/
def Kept (k : C.Key) (c : Threads C) : Prop :=
  ∃ rows, (c.rotating = [] ∧ Chained J k c.ledger rows) ∨
    ∃ thread key, c.rotating = [(thread, key)] ∧ Chained J k (swapKey c.ledger key) rows

variable {J}

/-- The two sections of a rotation, one after the other, are the rotation. -/
theorem swapKey_rotateAppend (s : LedgerState C) (ts : Nat) (key : C.Key) {r : LedgerRecord}
    {s' : LedgerState C} (h : rotateAppend J s ts key = (.ok r, s')) :
    swapKey s' key = step J s (.rotate ts key) := by
  unfold rotateAppend at h
  simp only [step, rotate, h]
  rfl

theorem rotateAppend_ok {k : C.Key} {s : LedgerState C} {rows : List LedgerRecord}
    (h : Chained J k s rows) (ts : Nat) (key : C.Key) : ∃ r s', rotateAppend J s ts key = (.ok r, s') := by
  have hins := h.insertRow_next (r := s.nextRecord J ts "key_rotation" "runtime" "ledger.rotate" ""
    (argsHashOf C (hex (C.publicKey key))) (some (hex (C.publicKey key)))) rfl
  unfold rotateAppend appendRecord
  simp only [h.conn, hins]
  exact ⟨_, _, rfl⟩

theorem kept_fresh (k : C.Key) : Kept J k (.fresh k) := ⟨[], .inl ⟨rfl, chained_fresh k⟩⟩

theorem kept_step (hC : C.Sound) {k : C.Key} {c c' : Threads C} {e : Event C} (hk : Kept J k c)
    (hq : Quiet c e) (hstep : c.step J e = some c') : Kept J k c' := by
  obtain ⟨rows, hk⟩ := hk
  cases e with
  | record thread ts action actor scope detail =>
    have hnone : c.rotating = [] := hq rfl
    rcases hk with ⟨-, hch⟩ | ⟨_, _, hrot, -⟩
    · obtain ⟨r, hr, -⟩ := chained_step hC hch (.record ts action actor scope detail)
      simp only [Threads.step] at hstep
      split_ifs at hstep
      cases hstep
      exact ⟨_, .inl ⟨hnone, hr⟩⟩
    · simp [hnone] at hrot
  | snapshot thread ts =>
    have hnone : c.rotating = [] := hq rfl
    rcases hk with ⟨-, hch⟩ | ⟨_, _, hrot, -⟩
    · obtain ⟨r, hr, -⟩ := chained_step hC hch (.snapshot ts)
      simp only [Threads.step] at hstep
      split_ifs at hstep
      cases hstep
      exact ⟨_, .inl ⟨hnone, hr⟩⟩
    · simp [hnone] at hrot
  | rotateAppend thread ts key =>
    have hnone : c.rotating = [] := hq rfl
    rcases hk with ⟨-, hch⟩ | ⟨_, _, hrot, -⟩
    · obtain ⟨r, s', happ⟩ := rotateAppend_ok hch ts key
      obtain ⟨r', hr', -⟩ := chained_step hC hch (.rotate ts key)
      rw [← swapKey_rotateAppend c.ledger ts key happ] at hr'
      simp only [Threads.step, happ] at hstep
      split_ifs at hstep
      cases hstep
      exact ⟨_, .inr ⟨thread, key, by simp [hnone], hr'⟩⟩
    · simp [hnone] at hrot
  | rotateSwap thread =>
    rcases hk with ⟨hnone, -⟩ | ⟨thread', key, hrot, hch⟩
    · simp [Threads.step, hnone] at hstep
    · by_cases ht : thread = thread'
      · subst ht
        simp only [Threads.step, hrot, List.lookup_cons, beq_self_eq_true] at hstep
        cases hstep
        exact ⟨rows, .inl ⟨by simp, hch⟩⟩
      · have hlook : c.rotating.lookup thread = none := by
          rw [hrot, List.lookup_cons, beq_eq_false_iff_ne.2 ht]
          rfl
        simp [Threads.step, hlook] at hstep

theorem kept_run (hC : C.Sound) {k : C.Key} {c c' : Threads C} {es : List (Event C)} (hk : Kept J k c)
    (hrun : Run J Quiet c es c') : Kept J k c' := by
  induction hrun with
  | nil c => exact hk
  | cons hok hstep _ ih => exact ih (kept_step hC hk hok hstep)

/-! ## Interleavings verify -/

/-- On a ledger whose first record is an action: whenever no `rotate` is in progress, the stored chain
is accepted, and what follows a rotation is signed by the key it names, in every interleaving in which
nothing is appended between the two sections of a `rotate`. -/
theorem threads_verify (hC : C.Sound) (k : C.Key) (es : List (Event C)) (c : Threads C)
    (hrun : Run J Quiet (.fresh k) es c) (hidle : c.rotating = []) (first : LedgerRecord)
    (rest : List LedgerRecord) (hrows : allRecords c.ledger = .ok (first :: rest))
    (haction : first.kind = "action") :
    (∃ report, verifyRecords C J (first :: rest) none none = .ok report) ∧
      ∀ pre r mid r' post, first :: rest = pre ++ r :: (mid ++ r' :: post) →
        r.kind = "key_rotation" → (∀ m ∈ mid, m.kind ≠ "key_rotation") → r'.pubkey = r.newPubkey := by
  have hkept : Kept J k c := kept_run hC (kept_fresh k) hrun
  have hch : Chained J k c.ledger (first :: rest) := by
    obtain ⟨rows, ⟨-, hch⟩ | ⟨_, _, hrot, -⟩⟩ := hkept
    · obtain rfl : rows = first :: rest := Except.ok.inj (hch.allRecords_eq.symm.trans hrows)
      exact hch
    · simp [hidle] at hrot
  obtain ⟨-, hprev⟩ := hch.first first (by simp)
  have hstart : startRule first = .ok () := by
    simp [startRule, haction, hch.first_seq, hprev]
  obtain ⟨n, hv⟩ := hch.verify_eq none none (by simp) (by simp)
  have hver : ∃ report, verifyRecords C J (first :: rest) none none = .ok report := by
    rw [verifyRecords, hv, hstart]
    exact ⟨_, rfl⟩
  refine ⟨hver, ?_⟩
  intro pre r mid r' post hsplit hr hmid
  obtain ⟨report, hver⟩ := hver
  exact signer_continuity hver hsplit hr hmid

/-- A rotation in one piece between the records of two other threads. -/
def Sample.apart : List (Event toyCrypto) :=
  [.record 0 1 "grant" "tw" "fs" "read", .rotateAppend 1 2 (9 : UInt8), .rotateSwap 1,
    .record 2 3 "deny" "vm" "db" "drop"]

/-- The same sections, the last record in the gap. -/
def Sample.inGap : List (Event toyCrypto) :=
  [.record 0 1 "grant" "tw" "fs" "read", .rotateAppend 1 2 (9 : UInt8),
    .record 2 3 "deny" "vm" "db" "drop", .rotateSwap 1]

theorem threads_verify_apart : ∃ c first rest,
    Run serde Quiet (.fresh (7 : UInt8)) Sample.apart c ∧ c.rotating = [] ∧
      allRecords c.ledger = .ok (first :: rest) ∧ rest.length = 2 ∧
      ∃ report, verifyRecords toyCrypto serde (first :: rest) none none = .ok report := by
  obtain ⟨c, hrun, hidle, hconn⟩ : ∃ c, Run serde Quiet (.fresh (7 : UInt8)) Sample.apart c ∧
      c.rotating = [] ∧ ∃ r₀ r₁ r₂, c.ledger.conn = some [r₀, r₁, r₂] ∧ r₀.kind = "action" :=
    ⟨_, .cons (fun _ => rfl) rfl (.cons (fun _ => rfl) rfl (.cons nofun rfl (.cons (fun _ => rfl) rfl
      (.nil _)))), rfl, _, _, _, rfl, rfl⟩
  obtain ⟨r₀, r₁, r₂, hconn, haction⟩ := hconn
  have hrows : allRecords c.ledger = .ok [r₀, r₁, r₂] := by
    obtain ⟨rows, ⟨-, hch⟩ | ⟨_, _, hrot, -⟩⟩ :=
      kept_run toyCrypto_sound (kept_fresh _) hrun
    · obtain rfl : rows = [r₀, r₁, r₂] := Option.some.inj (hch.conn.symm.trans hconn)
      exact hch.allRecords_eq
    · simp [hidle] at hrot
  exact ⟨c, r₀, [r₁, r₂], hrun, hidle, hrows, rfl, (threads_verify toyCrypto_sound (7 : UInt8)
    Sample.apart c hrun hidle r₀ [r₁, r₂] hrows haction).1⟩

/-- **Counterexample**: the record in the gap is signed by the old key, after the rotation that names the
new one. No `rotate` is in progress any more and the chain is refused. -/
theorem gap_refused : ∃ c first rest,
    Run serde (fun _ _ => True) (.fresh (7 : UInt8)) Sample.inGap c ∧ c.rotating = [] ∧
      allRecords c.ledger = .ok (first :: rest) ∧ first.kind = "action" ∧
      ¬ ∃ report, verifyRecords toyCrypto serde (first :: rest) none none = .ok report := by
  obtain ⟨c, hrun, hidle, r₀, r₁, r₂, hconn, haction, hseq₀, hseq₁, hseq₂, hrot, hnew, hpub⟩ :
      ∃ c, Run serde (fun _ _ => True) (.fresh (7 : UInt8)) Sample.inGap c ∧ c.rotating = [] ∧
      ∃ r₀ r₁ r₂, c.ledger.conn = some [r₀, r₁, r₂] ∧ r₀.kind = "action" ∧
        r₀.seq = 0 ∧ r₁.seq = 1 ∧ r₂.seq = 2 ∧ r₁.kind = "key_rotation" ∧
        r₁.newPubkey = hex (List.replicate 32 9) ∧ r₂.pubkey = hex (List.replicate 32 7) :=
    ⟨_, .cons trivial rfl (.cons trivial rfl (.cons trivial rfl (.cons trivial rfl (.nil _)))), rfl,
      _, _, _, rfl, rfl, rfl, rfl, rfl, rfl, rfl, rfl⟩
  refine ⟨c, r₀, [r₁, r₂], hrun, hidle, ?_, haction, ?_⟩
  · have hsorted : [r₀, r₁, r₂].Pairwise (·.seq ≤ ·.seq) := by
      simp [hseq₀, hseq₁, hseq₂]
    simp only [allRecords, hconn, hsorted.insertionSort_eq]
  · rintro ⟨report, hver⟩
    have hsame : r₂.pubkey = r₁.newPubkey := signer_continuity hver
      (show [r₀, r₁, r₂] = [r₀] ++ r₁ :: ([] ++ r₂ :: []) from rfl) hrot (by simp)
    have hbytes := congrArg (fun s => Lib.hexDecode s.toList) (hpub.symm.trans (hsame.trans hnew))
    simp only [hex_toList, Lib.hexDecode_encode, Option.some.injEq, List.replicate_inj] at hbytes
    revert hbytes
    decide

end Metalogos.Ledger
