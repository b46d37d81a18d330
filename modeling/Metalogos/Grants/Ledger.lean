import Metalogos.Lib.Dict
import Metalogos.Lib.Text
import Mathlib.Algebra.Group.Int.Defs
import Mathlib.Algebra.Group.Nat.Defs

/-!
# Capability grants: the ledger

`src/grants.rs`: grants live in a table keyed by their id; a handle only names a row. Every lifecycle
operation runs under the ledger's mutex and is one step here. `remaining` and `expires_at` are 64-bit
columns: a quota is stored with `as i64` (`toI64`) and counts down with the wrapping arithmetic of a
release build, an expiry is read back with `as u64`. A clock reading is an argument, one per call of
`now_secs`.
-/
namespace Metalogos.Grants

open Metalogos.Lib

/-! ## Machine integers -/

/-- `as i64`, and what an `i64` operation wraps to. -/
def toI64 (x : Int) : Int := x.bmod (2 ^ 64)

/-- `as u64`. -/
def toU64 (x : Int) : Nat := (x % 2 ^ 64).toNat

/-- `+` on `u64`. -/
def addU64 (a b : Nat) : Nat := (a + b) % 2 ^ 64

def stripPlus : List Char → List Char
  | '+' :: s => s
  | s => s

/-- `str::parse::<u64>`. -/
def parseU64 (s : List Char) : Option Nat :=
  if stripPlus s = [] ∨ ¬ (stripPlus s).all Char.isDigit then none
  else
    let n := Nat.ofDigitChars 10 (stripPlus s) 0
    if n < 2 ^ 64 then some n else none

/-! ## Classes -/

/-- mirrors src/grants.rs:37-45 -/
inductive GrantClass where
  | once
  | n (k : Nat)
  | unlimited
  deriving DecidableEq, Repr

namespace GrantClass

/-- mirrors src/grants.rs:50-60; the count of `n` is patched by the caller. -/
def parse (word : String) : Except String GrantClass :=
  let w := String.ofList ((trim word.toList).map Char.toLower)
  if w = "once" then .ok .once
  else if w = "n" then .ok (.n 0)
  else if w = "unlimited" then .ok .unlimited
  else .error ("grant_issue: unknown class '" ++ w ++
    "' (expected \"once\", \"n\" or \"unlimited\")")

/-- mirrors src/grants.rs:64-70 -/
def power : GrantClass → Nat
  | .once => 0
  | .n _ => 1
  | .unlimited => 2

/-- mirrors src/grants.rs:73-79 -/
def asLedgerStr : GrantClass → String
  | .once => "once"
  | .n k => String.ofList ('n' :: ':' :: Nat.toDigits 10 k)
  | .unlimited => "unlimited"

/-- mirrors src/grants.rs:82-91 -/
def fromLedgerStr (s : String) : GrantClass :=
  match s.toList with
  | 'n' :: ':' :: k => .n ((parseU64 k).getD 0)
  | _ => if s = "unlimited" then .unlimited else .once

/-- mirrors src/grants.rs:94-100 -/
def initialRemaining : GrantClass → Int
  | .once => 1
  | .n k => toI64 k
  | .unlimited => -1

/-- mirrors src/grants.rs:103-111 -/
def display : GrantClass → String
  | .once => "once"
  | .n k => "n(" ++ toString k ++ ")"
  | .unlimited => "unlimited"

end GrantClass

/-! ## Scopes -/

/-- The segments between colons; a text without a colon is one segment. -/
def segments (scope : String) : List (List Char) := scope.toList.splitOn ':'

/-- `eq_ignore_ascii_case`. -/
def sameSegment (a b : List Char) : Bool := a.map Char.toLower = b.map Char.toLower

/-- mirrors src/grants.rs:342-351 -/
def scopeAttenuates (parent child : String) : Bool :=
  let p := segments parent
  let c := segments child
  if c.length > p.length then false
  else (p.zip c).all fun x => x.1 = ['*'] ∨ sameSegment x.1 x.2

/-! ## The table -/

/-- `g-<nanos>-<seq>`. -/
structure GrantId where
  nanos : Nat
  seq : Nat
  deriving DecidableEq, Repr

/-- mirrors src/grants.rs:168-175 -/
def GrantId.text (id : GrantId) : String :=
  "g-" ++ String.ofList (Nat.toDigits 16 id.nanos) ++ "-" ++ String.ofList (Nat.toDigits 16 id.seq)

inductive GrantState where
  | active
  | consumed
  | revoked
  deriving DecidableEq, Repr

/-- A row of `grant_state` without its key; `issued_at` and `issuer` are written and not read.
mirrors src/grants.rs:194-204 -/
structure GrantRow where
  parentId : Option GrantId
  scope : String
  cls : String
  remaining : Int
  expiresAt : Int
  state : GrantState
  deriving DecidableEq

abbrev Rows := Dict GrantId GrantRow

/-- `seq` is `GRANT_SEQ`. -/
structure GrantLedger where
  rows : Rows
  seq : Nat

def GrantLedger.empty : GrantLedger := ⟨.empty, 0⟩

/-- mirrors src/grants.rs:118-126 -/
structure GrantHandle where
  grantId : GrantId
  scope : String
  cls : GrantClass
  expiresAt : Nat
  issuer : String

/-- mirrors src/grants.rs:275-284 -/
structure GrantRecord where
  id : GrantId
  parentId : Option GrantId
  scope : String
  cls : GrantClass
  remaining : Int
  expiresAt : Nat
  state : GrantState
  deriving DecidableEq

def GrantRow.record (r : GrantRow) (id : GrantId) : GrantRecord where
  id := id
  parentId := r.parentId
  scope := r.scope
  cls := .fromLedgerStr r.cls
  remaining := r.remaining
  expiresAt := toU64 r.expiresAt
  state := r.state

/-- mirrors src/grants.rs:286-304 -/
def loadRecord (rows : Rows) (id : GrantId) : Except String GrantRecord :=
  match rows.get id with
  | none => .error ("GRANT_MISSING: no grant '" ++ id.text ++ "' in the ledger")
  | some r => .ok (r.record id)

/-- mirrors src/grants.rs:307-333 -/
def checkRecord (rec : GrantRecord) (now : Nat) : Except String Unit :=
  match rec.state with
  | .revoked => .error ("GRANT_REVOKED: " ++ rec.id.text ++ " was revoked")
  | .consumed => .error ("GRANT_REUSED: " ++ rec.id.text ++
      " (class once) was already used — a Once grant is linear")
  | .active =>
    if now ≥ rec.expiresAt then
      .error ("GRANT_EXPIRED: " ++ rec.id.text ++ " expired at unix " ++ toString rec.expiresAt)
    else if rec.remaining = 0 then
      .error ("GRANT_EXHAUSTED: " ++ rec.id.text ++ " (class " ++ rec.cls.display ++
        ") has no uses left")
    else .ok ()

/-- The row a check is about: it is there and passes.
mirrors src/grants.rs:727-734 -/
def checkActive (rows : Rows) (id : GrantId) (now : Nat) : Except String GrantRecord := do
  let rec ← loadRecord rows id
  checkRecord rec now
  .ok rec

/-! ## Lifecycle operations -/

/-- The readings of `now_secs` during a call, in order. -/
abbrev Clock := Nat → Nat

def blank (scope : String) : Bool := trim scope.toList = []

/-- mirrors src/grants.rs:402-446 -/
def issue (l : GrantLedger) (t : Clock) (nanos : Nat) (scope : String) (ttl : Nat) (cls : GrantClass)
    (issuer : String) : Except String GrantHandle × GrantLedger :=
  if blank scope then (.error "grant_issue: scope must be a non-empty string", l)
  else
    let id : GrantId := ⟨nanos, l.seq⟩
    let expiresAt := addU64 (t 0) ttl
    (.ok ⟨id, scope, cls, expiresAt, issuer⟩,
      { seq := l.seq + 1
        rows := l.rows.set id
          { parentId := none, scope := scope, cls := cls.asLedgerStr,
            remaining := cls.initialRemaining, expiresAt := toI64 expiresAt, state := .active } })

/-- What a child takes out of its parent's budget.
mirrors src/grants.rs:492-504 -/
def debit (parentId : GrantId) (prec : GrantRecord) : GrantClass → Except String Int
  | .unlimited =>
    if prec.cls ≠ .unlimited then
      .error ("GRANT_ESCALATION: child class Unlimited outranks parent class " ++ prec.cls.display ++
        " of " ++ parentId.text)
    else .ok 0
  | .once => .ok 1
  | .n k => .ok (toI64 k)

/-- The parent's `remaining` after the split.
mirrors src/grants.rs:505-515 -/
def remainingAfter (parentId : GrantId) (prec : GrantRecord) (debit : Int) : Except String Int :=
  if prec.cls = .unlimited then .ok prec.remaining
  else if debit > prec.remaining then
    .error ("GRANT_ESCALATION: child debit " ++ toString debit ++ " exceeds parent " ++ parentId.text ++
      " remaining " ++ toString prec.remaining)
  else .ok (toI64 (prec.remaining - debit))

/-- The parent's row after the split: a Once parent is consumed, an N parent debited.
mirrors src/grants.rs:516-549 -/
def debitParent (rows : Rows) (parentId : GrantId) (cls : GrantClass) (after : Int) : Rows :=
  match cls with
  | .once => rows.modify parentId fun r => { r with state := .consumed, remaining := 0 }
  | .n _ => rows.modify parentId fun r => { r with remaining := after }
  | .unlimited => rows

/-- The critical section of `subgrant`.
mirrors src/grants.rs:460-566 -/
def subgrantRows (rows : Rows) (t : Clock) (parentId childId : GrantId) (scope : String) (ttl : Nat)
    (cls : GrantClass) : Except String Rows := do
  let prec ← checkActive rows parentId (t 0)
  if !scopeAttenuates prec.scope scope then
    .error ("GRANT_ESCALATION: scope '" ++ scope ++ "' does not attenuate parent scope '" ++
      prec.scope ++ "' of " ++ parentId.text)
  else
    let childExpires := addU64 (t 1) ttl
    if childExpires > prec.expiresAt then
      .error ("GRANT_ESCALATION: child TTL (" ++ toString ttl ++ "s) would outlive parent " ++
        parentId.text ++ " (expires at unix " ++ toString prec.expiresAt ++ ")")
    else if cls.power > prec.cls.power then
      .error ("GRANT_ESCALATION: child class " ++ cls.display ++ " outranks parent class " ++
        prec.cls.display ++ " of " ++ parentId.text)
    else do
      let d ← debit parentId prec cls
      let after ← remainingAfter parentId prec d
      .ok ((debitParent rows parentId prec.cls after).set childId
        { parentId := some parentId, scope := scope, cls := cls.asLedgerStr,
          remaining := cls.initialRemaining, expiresAt := toI64 childExpires, state := .active })

/-- The child's id is drawn before the checks.
mirrors src/grants.rs:448-575 -/
def subgrant (l : GrantLedger) (t : Clock) (nanos : Nat) (parent : GrantHandle) (scope : String)
    (ttl : Nat) (cls : GrantClass) : Except String GrantHandle × GrantLedger :=
  if blank scope then (.error "grant_subgrant: scope must be a non-empty string", l)
  else
    let childId : GrantId := ⟨nanos, l.seq⟩
    match subgrantRows l.rows t parent.grantId childId scope ttl cls with
    | .error e => (.error e, { l with seq := l.seq + 1 })
    | .ok rows => (.ok ⟨childId, scope, cls, addU64 (t 2) ttl, parent.issuer⟩, ⟨rows, l.seq + 1⟩)

/-- State and count after one use.
mirrors src/grants.rs:694-698 -/
def afterUse (rec : GrantRecord) : GrantState × Int :=
  match rec.cls with
  | .once => (.consumed, 0)
  | .n _ => (.active, toI64 (rec.remaining - 1))
  | .unlimited => (.active, -1)

/-- mirrors src/grants.rs:689-715 -/
def grantUse (l : GrantLedger) (t : Clock) (handle : GrantHandle) : Except String Int × GrantLedger :=
  match checkActive l.rows handle.grantId (t 0) with
  | .error e => (.error e, l)
  | .ok rec =>
    (.ok (afterUse rec).2, { l with rows := l.rows.modify handle.grantId fun r =>
      { r with state := (afterUse rec).1, remaining := (afterUse rec).2 } })

/-! ## Revocation -/

def GrantRow.live (r : GrantRow) : Bool := r.state ≠ .revoked

def isLive (rows : Rows) (id : GrantId) : Bool := (rows.get id).any (·.live)

/-- `SELECT id .. WHERE parent_id = ? AND state != 'revoked'`. -/
def liveChildren (rows : Rows) (id : GrantId) : List GrantId :=
  rows.select fun _ r => r.parentId = some id && r.live

def revokeRow (r : GrantRow) : GrantRow := { r with state := .revoked }

@[simp] theorem live_revokeRow (r : GrantRow) : (revokeRow r).live = false := rfl

def liveCount (rows : Rows) : Nat := rows.pairs.countP (·.2.live)

theorem liveCount_cons (p : GrantId × GrantRow) (ps : List (GrantId × GrantRow)) :
    liveCount ⟨p :: ps⟩ = liveCount ⟨ps⟩ + if p.2.live then 1 else 0 := List.countP_cons

theorem liveCount_modify_cons (p : GrantId × GrantRow) (ps : List (GrantId × GrantRow)) (id : GrantId) :
    liveCount (Dict.modify ⟨p :: ps⟩ id revokeRow) =
      liveCount (Dict.modify ⟨ps⟩ id revokeRow) + if p.1 ≠ id ∧ p.2.live then 1 else 0 := by
  simp only [liveCount, Dict.modify, List.map_cons, List.countP_cons]
  by_cases hp : p.1 = id <;> simp [hp]

theorem liveCount_modify_le (rows : Rows) (id : GrantId) :
    liveCount (rows.modify id revokeRow) ≤ liveCount rows := by
  obtain ⟨ps⟩ := rows
  induction ps with
  | nil => exact Nat.le_refl 0
  | cons p ps ih =>
    rw [liveCount_modify_cons, liveCount_cons]
    split_ifs with h₁ h₂
    · omega
    · exact absurd h₁.2 h₂
    · omega
    · omega

theorem liveCount_modify_lt (rows : Rows) (id : GrantId) (h : isLive rows id = true) :
    liveCount (rows.modify id revokeRow) < liveCount rows := by
  obtain ⟨ps⟩ := rows
  induction ps with
  | nil => cases h
  | cons p ps ih =>
    have hle := liveCount_modify_le ⟨ps⟩ id
    rw [liveCount_modify_cons, liveCount_cons]
    obtain ⟨q, r⟩ := p
    simp only [isLive, Dict.get, List.lookup_cons] at h
    by_cases hp : q = id
    · rw [hp, beq_self_eq_true] at h
      have hlive : r.live = true := by simpa using h
      simp only [hp, hlive, ne_eq, not_true, false_and, if_false, if_true]
      omega
    · have hne : (id == q) = false := beq_eq_false_iff_ne.2 fun h => hp h.symm
      rw [hne] at h
      have hlt := ih h
      simp only [ne_eq, hp, not_false_iff, true_and]
      omega

theorem isLive_of_mem_liveChildren {rows : Rows} {id c : GrantId} (h : c ∈ liveChildren rows id) :
    isLive rows c = true := by
  obtain ⟨r, hr, hp⟩ := (rows.mem_select c).1 h
  rw [Bool.and_eq_true] at hp
  simp [isLive, hr, hp.2]

/-- The loop of `revoke` over its stack: the rows, and how many were revoked. Each round revokes a
grant, or takes an id off the stack that needs no change.
mirrors src/grants.rs:586-616 -/
def revokeLoop (rows : Rows) (frontier : List GrantId) (count : Nat) : Rows × Nat :=
  match frontier with
  | [] => (rows, count)
  | id :: rest =>
    let kids := (liveChildren rows id).reverse
    if isLive rows id then revokeLoop (rows.modify id revokeRow) (kids ++ rest) (count + 1)
    else revokeLoop rows (kids ++ rest) count
termination_by (liveCount rows, frontier.countP fun id => !isLive rows id)
decreasing_by
  · exact Prod.Lex.left _ _ (liveCount_modify_lt rows id ‹_›)
  · refine Prod.Lex.right _ ?_
    have hnone : (liveChildren rows id).reverse.countP (fun id => !isLive rows id) = 0 := by
      rw [List.countP_eq_zero]
      intro c hc
      simp [isLive_of_mem_liveChildren (List.mem_reverse.1 hc)]
    have hdead : isLive rows id = false := by simpa using ‹¬ isLive rows id = true›
    rw [List.countP_append, hnone, List.countP_cons, hdead]
    simp

/-- mirrors src/grants.rs:580-618 -/
def revoke (l : GrantLedger) (handle : GrantHandle) : Except String Nat × GrantLedger :=
  match loadRecord l.rows handle.grantId with
  | .error e => (.error e, l)
  | .ok _ =>
    let out := revokeLoop l.rows [handle.grantId] 0
    (.ok out.2, { l with rows := out.1 })

end Metalogos.Grants
