import Mathlib.Data.List.Induction
import Mathlib.Data.UInt

/-!
# Approval mandates

`src/approval.rs`, with the verdicts of `src/refusal_algebra.rs` it answers with. A mandate is the human's
approval of one target for a window of time; the store only grows, and a revocation marks mandates in place.
Every call takes its own reading of the clock, in any order, and finds the lock of the store free or poisoned.

A revocation marks the mandates that are live on its own reading. One that is not, because the clock has
stepped back before it was granted or because its window is over, stays unmarked and counts again once the
clock comes to its window (`standing_run`, `authorize_refused_iff`).
-/
namespace Metalogos.Approval

/-! ## Verdicts -/

/-- mirrors src/refusal_algebra.rs:31-53 -/
def denyReasons : List String :=
  ["VOICE_EGRESS_UNCONSENTED", "IRREVERSIBLE_NO_GRANT", "UNTRUSTED_EXEC_DECISION", "SECRET_TO_EXEC",
    "SECRET_EGRESS_VCS", "SECRET_EGRESS_NETWORK", "PII_EGRESS_NETWORK", "PII_EGRESS_OUTPUT",
    "UNTRUSTED_EGRESS_NETWORK", "UNTRUSTED_FILE_PATH", "SINK_CLEARANCE", "HTML_INJECTION",
    "TAINT_PERSISTENCE", "SECRET_LEAK"]

/-- A word of the vocabulary with its place in it.
mirrors src/refusal_algebra.rs:58-62 -/
structure Reason where
  word : String
  rank : Nat
  listed : denyReasons[rank]? = some word
  deriving DecidableEq

/-- mirrors src/refusal_algebra.rs:68-76 -/
def Reason.parse (word : String) : Option Reason :=
  if h : word ∈ denyReasons then
    some ⟨word, denyReasons.idxOf word, List.getElem?_idxOf h⟩
  else none

/-- mirrors src/refusal_algebra.rs:117-120 -/
inductive Verdict where
  | allow
  | deny (code : String) (cause : Reason)
  deriving DecidableEq

/-- mirrors src/refusal_algebra.rs:126-131 -/
def Verdict.ofWord (word : String) : Option Verdict :=
  (Reason.parse word).map fun cause => .deny cause.word cause

/-- The value `mandate_deny` unwraps.
mirrors src/approval.rs:39-44 -/
def mandateDeny : Verdict := .deny "IRREVERSIBLE_NO_GRANT" ⟨"IRREVERSIBLE_NO_GRANT", 1, rfl⟩

example : Verdict.ofWord "IRREVERSIBLE_NO_GRANT" = some mandateDeny := by decide

/-! ## Mandates -/

/-- Moments and times to live are `u64` seconds.
mirrors src/approval.rs:51-68 -/
structure TypedApproval where
  actor : String
  targetDigest : String
  grantedAt : UInt64
  expiresAt : UInt64
  revoked : Bool
  deriving DecidableEq, Repr

/-- `u64::MAX` -/
def u64Max : UInt64 := 0xffffffffffffffff

def saturatingAdd (a b : UInt64) : UInt64 := if a.toNat + b.toNat < 2 ^ 64 then a + b else u64Max

/-- A time to live of 0 is none.
mirrors src/approval.rs:75-88 -/
def TypedApproval.issue (actor targetDigest : String) (grantedAt ttlSeconds : UInt64) : TypedApproval where
  actor := actor
  targetDigest := targetDigest
  grantedAt := grantedAt
  expiresAt := if ttlSeconds = 0 then u64Max else saturatingAdd grantedAt ttlSeconds
  revoked := false

/-- mirrors src/approval.rs:95-104 -/
def TypedApproval.verify (m : TypedApproval) (now : UInt64) (targetDigest : String) : Verdict :=
  if m.revoked || m.targetDigest != targetDigest || decide (now < m.grantedAt) || decide (m.expiresAt ≤ now) then
    mandateDeny
  else .allow

/-- mirrors src/approval.rs:109-111 -/
def TypedApproval.revoke (m : TypedApproval) : TypedApproval := { m with revoked := true }

/-- The window holds `now`. -/
def TypedApproval.Live (m : TypedApproval) (now : UInt64) : Prop := m.grantedAt ≤ now ∧ now < m.expiresAt

instance (m : TypedApproval) (now : UInt64) : Decidable (m.Live now) := inferInstanceAs (Decidable (_ ∧ _))

theorem mandateDeny_ne : mandateDeny ≠ .allow := nofun

theorem verify_allow {m : TypedApproval} {now : UInt64} {digest : String} :
    m.verify now digest = .allow ↔ m.revoked = false ∧ m.targetDigest = digest ∧ m.Live now := by
  unfold TypedApproval.verify
  split_ifs with hc
  · refine iff_of_false mandateDeny_ne fun ⟨hr, hd, hl, hu⟩ => ?_
    simp only [Bool.or_eq_true, bne_iff_ne, decide_eq_true_eq] at hc
    rcases hc with ((hc | hc) | hc) | hc
    · rw [hr] at hc
      cases hc
    · exact hc hd
    · exact UInt64.not_lt.2 hl hc
    · exact UInt64.not_lt.2 hc hu
  · refine iff_of_true rfl ?_
    simp only [Bool.or_eq_true, bne_iff_ne, decide_eq_true_eq, not_or, Bool.not_eq_true, ne_eq, not_not,
      UInt64.not_lt, UInt64.not_le] at hc
    exact ⟨hc.1.1.1, hc.1.1.2, hc.1.2, hc.2⟩

/-- No moment and no digest brings a revoked mandate back. -/
theorem verify_revoke (m : TypedApproval) (now : UInt64) (digest : String) :
    m.revoke.verify now digest = mandateDeny := rfl

/-! ## The store -/

abbrev MandateStore := List TypedApproval

/-- `lock` is the error of a poisoned lock.
mirrors src/approval.rs:189-193 -/
def lockStore (lock : Option String) (store : MandateStore) : Except String MandateStore :=
  match lock with
  | none => .ok store
  | some e => .error ("the mandate store lock: " ++ e)

section

variable (sha256Hex : String → String)

/-- mirrors src/approval.rs:119-127 -/
def targetDigest (parts : List String) : String := sha256Hex ("\x1f".intercalate parts)

/-- mirrors src/approval.rs:198-202 -/
def mandateIssue (lock : Option String) (now : UInt64) (actor target : String) (ttlSeconds : UInt64)
    (store : MandateStore) : Except String (TypedApproval × MandateStore) := do
  let mandate := TypedApproval.issue actor (targetDigest sha256Hex [target]) now ttlSeconds
  let store ← lockStore lock store
  .ok (mandate, store ++ [mandate])

/-- The mandates of one target that are live are marked, and counted.
mirrors src/approval.rs:207-219 -/
def revokeLive (now : UInt64) (digest : String) : MandateStore → Nat × MandateStore
  | [] => (0, [])
  | m :: store =>
    let (n, store) := revokeLive now digest store
    if m.targetDigest == digest && m.verify now digest == .allow then (n + 1, m.revoke :: store)
    else (n, m :: store)

/-- mirrors src/approval.rs:207-219 -/
def mandateRevoke (lock : Option String) (now : UInt64) (target : String) (store : MandateStore) :
    Except String (Nat × MandateStore) := do
  let digest := targetDigest sha256Hex [target]
  let store ← lockStore lock store
  .ok (revokeLive now digest store)

/-- mirrors src/approval.rs:162-162 -/
def humanOversight : List String := ["cron_run"]

/-- mirrors src/approval.rs:168-170 -/
def carrierTarget (name : String) : String := "carrier:" ++ name

/-- mirrors src/approval.rs:250-258 -/
def approvalRefusal (name : String) : String :=
  "IRREVERSIBLE_NO_GRANT: approval gate: '" ++ name ++ "' is a human-oversight carrier — no live " ++
    "approval mandate (record the human's decision with approval_issue(\"actor\", " ++
    "\"carrier:" ++ name ++ "\", ttl_seconds) after the human approves; the refusal is BEFORE the " ++
    "action — ADR-0205 §2.6, №861: fail-closed, a silent pass is forbidden)"

/-- mirrors src/approval.rs:265-289 -/
def authorizeOverseenCall (lock : Option String) (now : UInt64) (name : String) (store : MandateStore) :
    Except String Unit :=
  if !humanOversight.contains name then .ok ()
  else
    let digest := targetDigest sha256Hex [carrierTarget name]
    match lockStore lock store with
    | .ok store =>
      if store.any fun m => m.verify now digest == .allow then .ok () else .error (approvalRefusal name)
    | .error e => .error (approvalRefusal name ++ " (the mandate store is unavailable: " ++ e ++ ")")

/-! ## Runs -/

inductive Op where
  | issue (actor target : String) (ttlSeconds : UInt64)
  | revoke (target : String)
  | authorize (name : String)
  deriving DecidableEq, Repr

/-- An operation with the reading of the clock it takes and how it finds the lock. -/
structure Call where
  op : Op
  now : UInt64
  lock : Option String
  deriving DecidableEq, Repr

/-- The store after a call; a call that fails leaves it as it was. -/
def Call.exec (c : Call) (store : MandateStore) : MandateStore :=
  match c.op with
  | .issue actor target ttl =>
    match mandateIssue sha256Hex c.lock c.now actor target ttl store with
    | .ok (_, store) => store
    | .error _ => store
  | .revoke target =>
    match mandateRevoke sha256Hex c.lock c.now target store with
    | .ok (_, store) => store
    | .error _ => store
  | .authorize _ => store

def run (store : MandateStore) (calls : List Call) : MandateStore :=
  calls.foldl (fun store c => c.exec sha256Hex store) store

/-- The call issues a mandate for `target`. -/
def Call.Issues (c : Call) (target : String) : Prop := ∃ actor ttl, c.op = .issue actor target ttl

def Op.target? : Op → Option String
  | .issue _ target _ => some target
  | .revoke target => some target
  | .authorize _ => none

/-- Of the targets the calls name, only `target` has its digest. -/
def CollisionFree (target : String) (calls : List Call) : Prop :=
  ∀ c ∈ calls, ∀ a ∈ c.op.target?, targetDigest sha256Hex [a] = targetDigest sha256Hex [target] → a = target

/-- The readings on which the calls revoke `target`. -/
def revokeInstants (target : String) (calls : List Call) : List UInt64 :=
  (calls.filter fun c => decide (c.op = .revoke target ∧ c.lock = none)).map (·.now)

variable {sha256Hex : String → String}

/-! ## What stands after a run -/

/-- What `revokeLive` leaves of each mandate. -/
def TypedApproval.afterRevoke (m : TypedApproval) (now : UInt64) (digest : String) : TypedApproval :=
  if m.targetDigest == digest && m.verify now digest == .allow then m.revoke else m

theorem revokeLive_store (now : UInt64) (digest : String) (store : MandateStore) :
    (revokeLive now digest store).2 = store.map (·.afterRevoke now digest) := by
  induction store with
  | nil => rfl
  | cons m store ih =>
    rw [List.map_cons, ← ih, revokeLive, TypedApproval.afterRevoke]
    split_ifs <;> rfl

theorem afterRevoke_verify {m : TypedApproval} {r t : UInt64} {d digest : String} :
    (m.afterRevoke r d).verify t digest = .allow ↔
      m.verify t digest = .allow ∧ ¬ (m.targetDigest = d ∧ m.Live r) := by
  unfold TypedApproval.afterRevoke
  split_ifs with hc
  · simp only [Bool.and_eq_true, beq_iff_eq] at hc
    rw [verify_revoke]
    exact iff_of_false mandateDeny_ne fun h => h.2 ⟨hc.1, (verify_allow.1 hc.2).2.2⟩
  · simp only [Bool.and_eq_true, beq_iff_eq, not_and] at hc
    refine ⟨fun h => ⟨h, fun hl => ?_⟩, And.left⟩
    exact hc hl.1 (verify_allow.2 ⟨(verify_allow.1 h).1, hl.1, hl.2⟩)

/-- A mandate that stands keeps its window and is not touched. -/
theorem afterRevoke_eq {m : TypedApproval} {r t : UInt64} {d digest : String}
    (h : (m.afterRevoke r d).verify t digest = .allow) : m.afterRevoke r d = m := by
  unfold TypedApproval.afterRevoke at h ⊢
  split_ifs at h ⊢ with hc
  · rw [verify_revoke] at h
    exact absurd h mandateDeny_ne
  · rfl

/-- Everything a call can do to the store. -/
theorem exec_cases (c : Call) (store : MandateStore) :
    (∃ actor target ttl, c.op = .issue actor target ttl ∧
      c.exec sha256Hex store = store ++ [.issue actor (targetDigest sha256Hex [target]) c.now ttl]) ∨
    (∃ target, c.op = .revoke target ∧ c.lock = none ∧
      c.exec sha256Hex store = store.map (·.afterRevoke c.now (targetDigest sha256Hex [target]))) ∨
    (c.exec sha256Hex store = store ∧ ∀ target, c.op = .revoke target → c.lock ≠ none) := by
  obtain ⟨op, now, lock⟩ := c
  cases op with
  | issue actor target ttl =>
    cases lock with
    | none => exact .inl ⟨actor, target, ttl, rfl, rfl⟩
    | some e => exact .inr (.inr ⟨rfl, fun _ h => by cases h⟩)
  | revoke target =>
    cases lock with
    | none => exact .inr (.inl ⟨target, rfl, rfl, revokeLive_store now _ store⟩)
    | some e => exact .inr (.inr ⟨rfl, fun _ _ h => by cases h⟩)
  | authorize name => exact .inr (.inr ⟨rfl, fun _ h => by cases h⟩)

theorem not_issues_revoke {target a : String} {r : UInt64} {lock : Option String} :
    ¬ Call.Issues ⟨.revoke a, r, lock⟩ target := by
  rintro ⟨_, _, h⟩
  cases h

theorem mem_revokeInstants {target : String} {calls : List Call} {r : UInt64} :
    r ∈ revokeInstants target calls ↔ ∃ c ∈ calls, c.op = .revoke target ∧ c.lock = none ∧ c.now = r := by
  simp [revokeInstants, and_assoc]

theorem revokeInstants_cons (target : String) (c : Call) (calls : List Call) :
    revokeInstants target (c :: calls) = revokeInstants target [c] ++ revokeInstants target calls := by
  simp only [revokeInstants, ← List.map_append, ← List.filter_append, List.singleton_append]

/-- The mandates of the target that count on `t` after a call that issues none are those that counted before
and were not live when the call revoked the target. -/
theorem standing_exec {c : Call} {target : String} {store : MandateStore} {t : UInt64} {d : String}
    (hd : targetDigest sha256Hex [target] = d) (hissue : ¬ c.Issues target)
    (hfree : CollisionFree sha256Hex target [c]) (m : TypedApproval) :
    m ∈ c.exec sha256Hex store ∧ m.verify t d = .allow ↔
      (m ∈ store ∧ m.verify t d = .allow) ∧ ∀ r ∈ revokeInstants target [c], ¬ m.Live r := by
  subst hd
  have hsame : ∀ a ∈ c.op.target?, targetDigest sha256Hex [a] = targetDigest sha256Hex [target] → a = target :=
    hfree c (by simp)
  rcases exec_cases c store with ⟨actor, a, ttl, hop, hexec⟩ | ⟨a, hop, hlock, hexec⟩ | ⟨hexec, hno⟩
  · have hnone : revokeInstants target [c] = [] := by simp [revokeInstants, hop]
    have hnew : (TypedApproval.issue actor (targetDigest sha256Hex [a]) c.now ttl).verify t
        (targetDigest sha256Hex [target]) ≠ .allow := by
      intro hv
      obtain rfl : a = target := hsame a (by rw [hop]; rfl) (verify_allow.1 hv).2.1
      exact hissue ⟨actor, ttl, hop⟩
    rw [hexec, hnone, List.mem_append, List.mem_singleton]
    constructor
    · rintro ⟨hm | rfl, hv⟩
      · exact ⟨⟨hm, hv⟩, by simp⟩
      · exact absurd hv hnew
    · exact fun ⟨⟨hm, hv⟩, _⟩ => ⟨.inl hm, hv⟩
  · have hinst : ∀ r ∈ revokeInstants target [c], r = c.now ∧ a = target := by
      intro r hr
      obtain ⟨c', hc', hop', -, rfl⟩ := mem_revokeInstants.1 hr
      obtain rfl : c' = c := by simpa using hc'
      rw [hop] at hop'
      exact ⟨rfl, by cases hop'; rfl⟩
    rw [hexec, List.mem_map]
    constructor
    · rintro ⟨⟨m, hm, rfl⟩, hv⟩
      have hsaved := afterRevoke_verify.1 hv
      rw [afterRevoke_eq hv]
      refine ⟨⟨hm, hsaved.1⟩, fun r hr hlive => hsaved.2 ?_⟩
      obtain ⟨rfl, rfl⟩ := hinst r hr
      exact ⟨(verify_allow.1 hsaved.1).2.1, hlive⟩
    · rintro ⟨⟨hm, hv⟩, hspared⟩
      have hv' : (m.afterRevoke c.now (targetDigest sha256Hex [a])).verify t (targetDigest sha256Hex [target]) =
          .allow := by
        refine afterRevoke_verify.2 ⟨hv, fun hmark => ?_⟩
        obtain rfl : a = target := by
          refine hsame a (by rw [hop]; rfl) ?_
          rw [← hmark.1, (verify_allow.1 hv).2.1]
        exact hspared c.now (mem_revokeInstants.2 ⟨c, by simp, hop, hlock, rfl⟩) hmark.2
      exact ⟨⟨m, hm, afterRevoke_eq hv'⟩, hv⟩
  · have hnone : revokeInstants target [c] = [] := by
      refine List.eq_nil_iff_forall_not_mem.2 fun r hr => ?_
      obtain ⟨c', hc', hop', hlock, -⟩ := mem_revokeInstants.1 hr
      obtain rfl : c' = c := by simpa using hc'
      exact hno target hop' hlock
    rw [hexec, hnone]
    simp

/-- A run that issues no mandate of the target. -/
theorem standing_run {calls : List Call} {target : String} {store : MandateStore} {t : UInt64} {d : String}
    (hd : targetDigest sha256Hex [target] = d) (hissue : ∀ c ∈ calls, ¬ c.Issues target)
    (hfree : CollisionFree sha256Hex target calls) (m : TypedApproval) :
    m ∈ run sha256Hex store calls ∧ m.verify t d = .allow ↔
      (m ∈ store ∧ m.verify t d = .allow) ∧ ∀ r ∈ revokeInstants target calls, ¬ m.Live r := by
  induction calls generalizing store with
  | nil => simp [run, revokeInstants]
  | cons c calls ih =>
    have hstep : m ∈ c.exec sha256Hex store ∧ m.verify t d = .allow ↔ _ := standing_exec hd (hissue c (by simp))
      (fun c' hc' => hfree c' (by simp only [List.mem_singleton] at hc'; simp [hc'])) m
    have hrest : m ∈ run sha256Hex (c.exec sha256Hex store) calls ∧ m.verify t d = .allow ↔ _ :=
      ih (fun c' hc' => hissue c' (by simp [hc'])) (fun c' hc' => hfree c' (by simp [hc']))
    rw [revokeInstants_cons, List.forall_mem_append, ← and_assoc, ← hstep]
    exact hrest

/-- A carrier outside the class is never refused. -/
theorem authorize_unlisted {name : String} (h : name ∉ humanOversight) (lock : Option String) (now : UInt64)
    (store : MandateStore) : authorizeOverseenCall sha256Hex lock now name store = .ok () := by
  unfold authorizeOverseenCall
  rw [if_pos]
  simpa using h

theorem authorize_ok {lock : Option String} {now : UInt64} {name : String} {store : MandateStore} :
    authorizeOverseenCall sha256Hex lock now name store = .ok () ↔
      name ∉ humanOversight ∨ lock = none ∧
        ∃ m ∈ store, m.verify now (targetDigest sha256Hex [carrierTarget name]) = .allow := by
  by_cases hname : name ∈ humanOversight
  · unfold authorizeOverseenCall
    rw [if_neg (by simpa using hname)]
    cases lock with
    | some e => simp [lockStore, hname]
    | none =>
      simp only [lockStore, hname, not_true_eq_false, false_or, true_and]
      split_ifs with hany
      · simpa using hany
      · simpa using hany
  · exact iff_of_true (authorize_unlisted hname lock now store) (.inl hname)

/-! ## Withdrawal -/

def Refused (r : Except String Unit) : Prop := ∃ text, r = .error text

theorem refused_iff {r : Except String Unit} : Refused r ↔ r ≠ .ok () := by
  cases r with
  | error e => simp [Refused]
  | ok u => simp [Refused]

/-- Each mandate with the digest that is not revoked and is live on `t` was live on one of the readings. -/
def Covered (store : MandateStore) (digest : String) (readings : List UInt64) (t : UInt64) : Prop :=
  ∀ m ∈ store, m.targetDigest = digest → m.revoked = false → m.Live t → ∃ r ∈ readings, m.Live r

theorem exec_revoke {target : String} {lock : Option String} {r : UInt64} {n : Nat} {store s : MandateStore}
    (h : mandateRevoke sha256Hex lock r target store = .ok (n, s)) :
    Call.exec sha256Hex ⟨.revoke target, r, lock⟩ store = s := by
  simp only [Call.exec, h]

/-- After a revocation the carrier is refused exactly when it is on the roster and no mandate of the target
has a window that holds the later reading and none of the readings it was revoked on. -/
theorem withdrawn_iff (sha256Hex : String → String) (pre mid : List Call) (name : String)
    (lock lock' : Option String) (r t : UInt64) (n : Nat) (store : MandateStore)
    (hrevoke : mandateRevoke sha256Hex lock r (carrierTarget name) (run sha256Hex [] pre) = .ok (n, store))
    (hissue : ∀ c ∈ mid, ¬ c.Issues (carrierTarget name))
    (hfree : CollisionFree sha256Hex (carrierTarget name) mid) :
    Refused (authorizeOverseenCall sha256Hex lock' t name (run sha256Hex store mid)) ↔
      name ∈ humanOversight ∧ (lock' ≠ none ∨ Covered (run sha256Hex [] pre)
        (targetDigest sha256Hex [carrierTarget name]) (r :: revokeInstants (carrierTarget name) mid) t) := by
  -- the revocation is the first call of the run that follows
  obtain rfl : lock = none := by
    cases lock with
    | none => rfl
    | some e => cases hrevoke
  have hstore : run sha256Hex store mid =
      run sha256Hex (run sha256Hex [] pre) (⟨.revoke (carrierTarget name), r, none⟩ :: mid) := by
    rw [← exec_revoke hrevoke]
    rfl
  have hinst : revokeInstants (carrierTarget name) (⟨.revoke (carrierTarget name), r, none⟩ :: mid) =
      r :: revokeInstants (carrierTarget name) mid := by
    simp [revokeInstants]
  have hstanding : ∀ m : TypedApproval,
      (m ∈ run sha256Hex (run sha256Hex [] pre) (⟨.revoke (carrierTarget name), r, none⟩ :: mid) ∧
        m.verify t (targetDigest sha256Hex [carrierTarget name]) = .allow ↔
      (m ∈ run sha256Hex [] pre ∧ m.verify t (targetDigest sha256Hex [carrierTarget name]) = .allow) ∧
        ∀ s ∈ r :: revokeInstants (carrierTarget name) mid, ¬ m.Live s) := by
    rw [← hinst]
    exact standing_run rfl (List.forall_mem_cons.2 ⟨fun h => not_issues_revoke h, hissue⟩)
      (List.forall_mem_cons.2 ⟨fun a ha _ => (Option.some.inj ha).symm, hfree⟩)
  rw [refused_iff, ne_eq, authorize_ok, hstore, not_or, not_not, exists_congr hstanding]
  refine and_congr Iff.rfl ⟨fun h => ?_, ?_⟩
  · refine or_iff_not_imp_left.2 fun hlock m hm hd hr hlive => ?_
    by_contra hno
    exact h ⟨not_not.1 hlock, m, ⟨hm, verify_allow.2 ⟨hr, hd, hlive⟩⟩, fun s hs hl => hno ⟨s, hs, hl⟩⟩
  · rintro (hlock | hcov) ⟨hnone, m, ⟨hm, hv⟩, hspared⟩
    · exact hlock hnone
    · obtain ⟨hr, hd, hlive⟩ := verify_allow.1 hv
      obtain ⟨s, hs, hl⟩ := hcov m hm hd hr hlive
      exact hspared s hs hl

end

/-! ## A clock that steps back -/

/-- The digest of the one target of the samples. -/
def Sample.sha256Hex (s : String) : String :=
  if s = "carrier:cron_run" then "94aec09ef10d33dbadde4314d7189aa9a7f6163f61717b7ca8671bc2e3ca98d0" else s

/-- The owner approves the scheduled runs, with no end. -/
def Sample.approved : List Call := [⟨.issue "owner" "carrier:cron_run" 0, 100, none⟩]

/-- Revoked on 150, revoked again on 200, asked for on 300. -/
theorem withdrawn_iff_cron : Refused (authorizeOverseenCall Sample.sha256Hex none 300 "cron_run"
    (run Sample.sha256Hex (run Sample.sha256Hex [] (Sample.approved ++ [⟨.revoke "carrier:cron_run", 150, none⟩]))
      [⟨.revoke "carrier:cron_run", 200, none⟩])) := by
  refine (withdrawn_iff Sample.sha256Hex Sample.approved [⟨.revoke "carrier:cron_run", 200, none⟩] "cron_run"
    none none 150 300 1 _ rfl ?_ ?_).2 ⟨by decide, .inr ?_⟩
  · exact List.forall_mem_singleton.2 not_issues_revoke
  · exact List.forall_mem_singleton.2 fun a ha _ => (Option.some.inj ha).symm
  · exact List.forall_mem_singleton.2 fun _ _ _ => ⟨150, by decide, by decide⟩

/-- The clock steps back to 50, the owner revokes, and on 100 the approval counts again. -/
theorem revoked_revives : ¬ ∀ (sha256Hex : String → String) (pre mid : List Call) (name : String)
    (lock lock' : Option String) (r t : UInt64) (n : Nat) (store : MandateStore), name ∈ humanOversight →
    mandateRevoke sha256Hex lock r (carrierTarget name) (run sha256Hex [] pre) = .ok (n, store) →
    (∀ c ∈ mid, ¬ c.Issues (carrierTarget name)) → CollisionFree sha256Hex (carrierTarget name) mid →
    Refused (authorizeOverseenCall sha256Hex lock' t name (run sha256Hex store mid)) := by
  intro h
  have hrefused := h Sample.sha256Hex Sample.approved [] "cron_run" none none 50 100 0 _ (by decide) rfl
    (List.forall_mem_nil _) (List.forall_mem_nil _)
  rw [refused_iff] at hrefused
  exact hrefused (by decide)

end Metalogos.Approval
