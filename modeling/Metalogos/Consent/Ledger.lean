import Metalogos.Grants.Quota
import Metalogos.Lib.Fallible
import Metalogos.Lib.Since

/-!
# The consent ledger

`src/consent.rs` and the two builtins that write it. The ledger is one table, a row for each grant and each
revocation; whether consent is active is read from the order of the rows and their expiry
(`activeGrantFor`). What the rows are to say is `Active`, on the events of the calls: a grant counts from
when it is recorded until its time to live is over or a revocation covers it, by its scope or by naming
none.

`active_follows_ledger` holds in every run whose calls are `Recorded`: a time to live is whole and does not
pass the last second of an `i64`, and where all scopes are revoked no other grant is in force.
-/
namespace Metalogos.Consent

open Metalogos.Lib
open Metalogos.Grants (toI64 saturate blank InI64 toI64_eq)

/-! ## Data -/

/-- A reading of the clock, in seconds; the system clock counts them in an `i64`. -/
structure Instant where
  secs : Nat
  fits : secs < 2 ^ 63

/-- An `f64`. -/
inductive Number where
  | nan
  | infinite (negative : Bool)
  | finite (x : Rat)
  deriving DecidableEq

/-- `x >= 0.0` -/
def Number.nonneg : Number → Bool
  | .nan => false
  | .infinite negative => !negative
  | .finite x => 0 ≤ x

/-- `as u64` -/
def Number.toU64 : Number → Nat
  | .nan => 0
  | .infinite negative => if negative then 0 else 2 ^ 64 - 1
  | .finite x => saturate x.floor.toNat

inductive Arg where
  | string (s : String)
  | float (x : Number)
  | other (typeName : String)
  deriving DecidableEq

def Arg.typeName : Arg → String
  | .string _ => "String"
  | .float _ => "Float"
  | .other t => t

inductive RowKind where
  | grant
  | revoke
  deriving DecidableEq

/-- A row without its id, which is its place in the table from 1 on.
mirrors src/consent.rs:20-36 -/
structure ConsentRecord where
  kind : RowKind
  subject : String
  scope : String
  ttlSeconds : Int
  issuedAt : Int
  expiresAt : Option Int
  note : String
  deriving DecidableEq

abbrev ConsentLedger := List ConsentRecord

/-! ## Writing -/

/-- The row of a grant; 0 is no expiry. -/
def grantRow (now : Instant) (subject scope : String) (ttlSeconds : Nat) : ConsentRecord :=
  ⟨.grant, subject, scope, toI64 ttlSeconds, now.secs,
    if 0 < ttlSeconds then some (toI64 (now.secs + toI64 ttlSeconds)) else none, ""⟩

/-- mirrors src/consent.rs:85-106 -/
def recordGrant (l : ConsentLedger) (now : Instant) (subject scope : String) (ttlSeconds : Nat) :
    Except String ConsentLedger :=
  if blank scope then .error "consent ledger: scope must be a non-empty consent scope (§7.2)"
  else .ok (l ++ [grantRow now subject scope ttlSeconds])

/-- mirrors src/consent.rs:110-121 -/
def recordRevoke (l : ConsentLedger) (now : Instant) (scope : Option String) : ConsentLedger :=
  l ++ [⟨.revoke, "", scope.getD "<all>", 0, now.secs, none, ""⟩]

def scopeArg (fnName : String) : Arg → Except String String
  | .string s => .ok s
  | a => .error (fnName ++ ": scope must be String, got " ++ a.typeName)

def subjectArg : Option Arg → Except String String
  | some (.string s) => .ok s
  | none => .ok "unspecified"
  | some a => .error ("consent_grant: subject must be String, got " ++ a.typeName)

def ttlArg : Option Arg → Except String Nat
  | none => .ok 0
  | some (.float x) =>
    if x.nonneg then .ok x.toU64
    else .error "consent_grant: ttl_seconds must be a non-negative Float, got Float"
  | some a => .error ("consent_grant: ttl_seconds must be a non-negative Float, got " ++ a.typeName)

/-- The value comes back as it is.
mirrors src/builtins/consent.rs:32-75 -/
def builtinConsentGrant (l : ConsentLedger) (now : Instant) (args : List Arg) :
    Except String (Arg × ConsentLedger) :=
  match args with
  | value :: scope :: rest =>
    if 2 < rest.length then
      .error ("consent_grant: expects 2..4 arguments (value, scope, subject?, ttl_seconds?), got " ++
        toString args.length)
    else do
      let scope ← scopeArg "consent_grant" scope
      let subject ← subjectArg rest[0]?
      let ttlSeconds ← ttlArg rest[1]?
      let l ← recordGrant l now subject scope ttlSeconds
      return (value, l)
  | _ => .error ("consent_grant: expects 2..4 arguments (value, scope, subject?, ttl_seconds?), got " ++
      toString args.length)

/-- The poisoning of memory under a scope `memory:…` is not here.
mirrors src/builtins/consent.rs:80-119 -/
def builtinConsentRevoke (l : ConsentLedger) (now : Instant) (args : List Arg) :
    Except String (Arg × ConsentLedger) :=
  match args with
  | [value] => .ok (value, recordRevoke l now none)
  | [value, scope] => do
    let scope ← scopeArg "consent_revoke" scope
    return (value, recordRevoke l now (some scope))
  | _ => .error ("consent_revoke: expects 1..2 arguments (value, scope?), got " ++ toString args.length)

/-! ## Reading -/

/-- `kind = 'grant' AND scope = ?1 AND (expires_at IS NULL OR expires_at > ?2)` -/
def ConsentRecord.grants (scope : String) (now : Instant) (r : ConsentRecord) : Bool :=
  r.kind = .grant && r.scope = scope && r.expiresAt.all ((now.secs : Int) < ·)

/-- `kind = 'revoke' AND scope = ?1` -/
def ConsentRecord.revokes (scope : String) (r : ConsentRecord) : Bool :=
  r.kind = .revoke && r.scope = scope

/-- mirrors src/consent.rs:137-158 -/
def activeGrantFor (l : ConsentLedger) (now : Instant) (scope : String) : Bool :=
  (l.zipIdx 1).any fun r => r.1.grants scope now && decide (lastRow (·.revokes scope) l < r.2)

theorem activeGrantFor_iff (l : ConsentLedger) (now : Instant) (scope : String) :
    activeGrantFor l now scope = true ↔ Since (·.grants scope now) (·.revokes scope) l := by
  refine since_iff_row _ _ (fun r hg hr => ?_) l
  simp only [ConsentRecord.grants, ConsentRecord.revokes, Bool.and_eq_true, decide_eq_true_eq] at hg hr
  rw [hg.1.1] at hr
  exact absurd hr.1 (by decide)

/-! ## Calls -/

inductive Call where
  | grant (now : Instant) (args : List Arg)
  | revoke (now : Instant) (args : List Arg)

def Call.exec (l : ConsentLedger) : Call → Except String (Arg × ConsentLedger)
  | .grant now args => builtinConsentGrant l now args
  | .revoke now args => builtinConsentRevoke l now args

/-- A call that fails leaves the ledger as it is. -/
def step (l : ConsentLedger) (c : Call) : ConsentLedger :=
  match c.exec l with
  | .ok (_, l') => l'
  | .error _ => l

def run (calls : List Call) : ConsentLedger := calls.foldl step []

/-! ## What the ledger is to say -/

/-- What a call records: a grant with the time to live that was asked for, if any, or a revocation with
the scope it names, if any. -/
inductive Event where
  | granted (now : Instant) (scope : String) (ttl : Option Number)
  | revoked (scope : Option String)

/-- How long a grant lives: for good if no time to live is given, or 0. -/
def Lives (issued : Instant) (now : Instant) : Option Number → Prop
  | none => True
  | some .nan => False
  | some (.infinite negative) => negative = false
  | some (.finite x) => x = 0 ∨ (now.secs : Rat) < issued.secs + x

def Event.Grants (scope : String) (now : Instant) : Event → Prop
  | .granted issued s ttl => s = scope ∧ Lives issued now ttl
  | .revoked _ => False

/-- A revocation covers the scope it names, or all scopes. -/
def Event.Covers (scope : String) : Event → Prop
  | .granted _ _ _ => False
  | .revoked s => s = none ∨ s = some scope

def Active (events : List Event) (now : Instant) (scope : String) : Prop :=
  Since (·.Grants scope now) (·.Covers scope) events

/-- The time to live among the arguments of a grant. -/
def ttlOf (args : List Arg) : Option Number :=
  match args[(3 : Nat)]? with
  | some (.float x) => some x
  | _ => none

def scopeOf (args : List Arg) : Option String :=
  match args[(1 : Nat)]? with
  | some (.string s) => some s
  | _ => none

/-- What a call that succeeds on the ledger records. -/
def Call.event (l : ConsentLedger) (c : Call) : Option Event :=
  match c, c.exec l with
  | _, .error _ => none
  | .grant now args, .ok _ => (scopeOf args).map fun s => .granted now s (ttlOf args)
  | .revoke _ args, .ok _ => some (.revoked (scopeOf args))

/-- The events of the calls, on the ledger as each finds it. -/
def events (l : ConsentLedger) : List Call → List Event
  | [] => []
  | c :: calls => (c.event l).toList ++ events (step l c) calls

/-- A scope with a grant after its last revocation, expired or not. -/
def InForce (l : ConsentLedger) (scope : String) : Prop :=
  Since (fun r => r.kind = .grant ∧ r.scope = scope) (·.revokes scope) l

/-- The row of the call says what the call was to record. -/
def Call.Recorded (l : ConsentLedger) : Call → Prop
  | .grant now args => ∀ ttl, ttlOf args = some ttl → ∃ n : Nat, ttl = .finite n ∧ now.secs + n < 2 ^ 63
  | .revoke _ args => args.length = 1 → ∀ scope ≠ "<all>", ¬ InForce l scope

def RecordedAll (l : ConsentLedger) : List Call → Prop
  | [] => True
  | c :: calls => c.Recorded l ∧ RecordedAll (step l c) calls

/-! ## Steps -/

theorem scopeArg_ok {fnName s : String} {value scope : Arg} {rest : List Arg} (h : scopeArg fnName scope = .ok s) :
    scopeOf (value :: scope :: rest) = some s := by
  cases scope with
  | string t =>
    cases h
    rfl
  | float _ => cases h
  | other _ => cases h

theorem builtinConsentGrant_ok {l l' : ConsentLedger} {now : Instant} {args : List Arg} {v : Arg}
    (h : builtinConsentGrant l now args = .ok (v, l')) :
    ∃ scope subject ttl, scopeOf args = some scope ∧ ttlArg args[3]? = .ok ttl ∧
      l' = l ++ [grantRow now subject scope ttl] := by
  match args, h with
  | [], h => cases h
  | [_], h => cases h
  | value :: scope :: rest, h =>
    simp only [builtinConsentGrant] at h
    split_ifs at h
    simp only [bind_ok] at h
    obtain ⟨s, hscope, subject, -, ttl, httl, l₁, hrow, h⟩ := h
    cases h
    rw [recordGrant] at hrow
    split_ifs at hrow
    cases hrow
    exact ⟨s, subject, ttl, scopeArg_ok hscope, by simpa using httl, rfl⟩

theorem builtinConsentRevoke_ok {l l' : ConsentLedger} {now : Instant} {args : List Arg} {v : Arg}
    (h : builtinConsentRevoke l now args = .ok (v, l')) :
    l' = recordRevoke l now (scopeOf args) ∧ (scopeOf args = none → args.length = 1) := by
  match args, h with
  | [], h => cases h
  | [_], h =>
    cases h
    exact ⟨rfl, fun _ => rfl⟩
  | [_, scope], h =>
    cases scope with
    | string t =>
      cases h
      exact ⟨rfl, fun hnone => by cases hnone⟩
    | float _ => cases h
    | other _ => cases h
  | _ :: _ :: _ :: _, h => cases h

/-- A row that was recorded in full expires when the grant does. -/
theorem grantRow_grants {now now' : Instant} {args : List Arg} {subject s scope : String} {ttl : Nat}
    (httl : ttlArg args[3]? = .ok ttl)
    (hrec : ∀ x, ttlOf args = some x → ∃ n : Nat, x = .finite n ∧ now.secs + n < 2 ^ 63) :
    (grantRow now subject s ttl).grants scope now' = true ↔ (Event.granted now s (ttlOf args)).Grants scope now' := by
  have hexpiry : (grantRow now subject s ttl).expiresAt.all ((now'.secs : Int) < ·) = true ↔
      Lives now now' (ttlOf args) := by
    cases harg : args[3]? with
    | none =>
      rw [harg] at httl
      obtain rfl : 0 = ttl := Except.ok.inj httl
      simp [grantRow, ttlOf, harg, Lives]
    | some a =>
      cases a with
      | string _ =>
        rw [harg] at httl
        cases httl
      | other _ =>
        rw [harg] at httl
        cases httl
      | float x =>
        have hof : ttlOf args = some x := by simp only [ttlOf, harg]
        obtain ⟨n, rfl, hn⟩ := hrec x hof
        rw [harg, ttlArg] at httl
        have hu64 : (Number.finite n).toU64 = n := by
          simp only [Number.toU64, saturate, ← Rat.intCast_natCast, Rat.floor_intCast, Int.toNat_natCast]
          omega
        split_ifs at httl
        obtain rfl : (Number.finite n).toU64 = ttl := Except.ok.inj httl
        rw [hof, hu64]
        simp only [grantRow, Lives]
        split_ifs with hpos
        · have htoI64 : toI64 (now.secs + toI64 n) = now.secs + n := by
            rw [toI64_eq (x := (n : Int)) ⟨by omega, by omega⟩, toI64_eq ⟨by omega, by omega⟩]
          have hne : (n : Rat) ≠ 0 := by exact_mod_cast Nat.pos_iff_ne_zero.1 hpos
          rw [htoI64]
          simp only [Option.all_some, decide_eq_true_eq, hne, false_or]
          constructor
          · exact fun h => by exact_mod_cast h
          · exact fun h => by exact_mod_cast h
        · obtain rfl : n = 0 := by omega
          simp
  simp only [ConsentRecord.grants, Event.Grants, Bool.and_eq_true, decide_eq_true_eq, ← hexpiry]
  simp [grantRow]

/-- The table says what the events do. -/
def Agree (l : ConsentLedger) (es : List Event) : Prop := ∀ scope now,
  Since (·.grants scope now) (·.revokes scope) l ↔ Active es now scope

theorem Agree.step {l : ConsentLedger} {es : List Event} {c : Call} (h : Agree l es) (hc : c.Recorded l) :
    Agree (step l c) (es ++ (c.event l).toList) := by
  intro scope now
  cases hexec : c.exec l with
  | error e => simpa [Consent.step, Call.event, hexec] using h scope now
  | ok r =>
    obtain ⟨v, l'⟩ := r
    cases c with
    | grant issued args =>
      obtain ⟨s, subject, ttl, hscope, httl, rfl⟩ := builtinConsentGrant_ok hexec
      have hgrants : (grantRow issued subject s ttl).grants scope now = true ↔
          (Event.granted issued s (ttlOf args)).Grants scope now := grantRow_grants httl hc
      simp only [Consent.step, hexec, Call.event, hscope, Option.map_some, Option.toList_some]
      refine since_congr (h scope now) hgrants ?_
      simp [ConsentRecord.revokes, grantRow, Event.Covers]
    | revoke at_ args =>
      obtain ⟨rfl, hlen⟩ := builtinConsentRevoke_ok hexec
      simp only [Consent.step, hexec, Call.event, Option.toList_some, recordRevoke]
      have hgrants : (⟨.revoke, "", (scopeOf args).getD "<all>", 0, at_.secs, none, ""⟩ : ConsentRecord).grants
          scope now = true ↔ (Event.revoked (scopeOf args)).Grants scope now := by
        simp [ConsentRecord.grants, Event.Grants]
      cases hscope : scopeOf args with
      | some s =>
        rw [hscope] at hgrants
        refine since_congr (h scope now) hgrants ?_
        simp [ConsentRecord.revokes, Event.Covers]
      | none =>
        -- all scopes: the row names `<all>`, and nothing else was in force
        rw [hscope] at hgrants
        unfold Active
        rw [since_concat, since_concat, hgrants]
        have hcovers : (Event.revoked none).Covers scope := .inl rfl
        by_cases hall : scope = "<all>"
        · simp [hall, Event.Covers, ConsentRecord.revokes]
        · have hforce := hc (hlen hscope) scope hall
          have hnot : ¬ Since (fun r : ConsentRecord => r.grants scope now = true) (·.revokes scope) l := by
            refine fun hs => hforce (hs.mono fun r hr => ?_)
            simp only [ConsentRecord.grants, Bool.and_eq_true, decide_eq_true_eq] at hr
            exact hr.1
          simp [hnot, hcovers]

theorem Agree.run {l : ConsentLedger} {es : List Event} {calls : List Call} (h : Agree l es)
    (hcalls : RecordedAll l calls) : Agree (calls.foldl Consent.step l) (es ++ events l calls) := by
  induction calls generalizing l es with
  | nil => simpa [events] using h
  | cons c calls ih =>
    rw [List.foldl_cons, events, ← List.append_assoc]
    exact ih (h.step hcalls.1) hcalls.2

theorem agree_nil : Agree [] [] := fun _ _ => ⟨fun h => absurd h not_since_nil, fun h => absurd h not_since_nil⟩

/-- In every run whose calls are recorded in full, consent is active exactly when the events say so. -/
theorem active_follows_ledger (calls : List Call) (hcalls : RecordedAll [] calls) (now : Instant)
    (scope : String) : activeGrantFor (run calls) now scope = true ↔ Active (events [] calls) now scope := by
  rw [activeGrantFor_iff]
  exact agree_nil.run hcalls scope now

def Sample.noon : Instant := ⟨1000, by decide⟩

def Sample.value : Arg := .other "Struct"

/-- A grant that is revoked, all scopes with nothing left in force, and a grant for a minute. -/
def Sample.renewed : List Call :=
  [.grant Sample.noon [Sample.value, .string "gdpr"], .revoke Sample.noon [Sample.value, .string "gdpr"],
    .revoke Sample.noon [Sample.value],
    .grant Sample.noon [Sample.value, .string "gdpr", .string "p1", .float (.finite 60)]]

theorem active_follows_ledger_renewed : Active (events [] Sample.renewed) ⟨1059, by decide⟩ "gdpr" ∧
    ¬ Active (events [] Sample.renewed) ⟨1060, by decide⟩ "gdpr" := by
  have hcalls : RecordedAll [] Sample.renewed := by
    refine ⟨fun _ h => ?_, fun h => ?_, fun _ scope _ => ?_, fun x h => ?_, trivial⟩
    · cases h
    · cases h
    · have hl : step (step [] (.grant Sample.noon [Sample.value, .string "gdpr"]))
          (.revoke Sample.noon [Sample.value, .string "gdpr"]) =
          [] ++ [grantRow Sample.noon "unspecified" "gdpr" 0] ++
            [⟨.revoke, "", "gdpr", 0, 1000, none, ""⟩] := by decide
      rw [hl, InForce, since_concat, since_concat]
      simp [grantRow, ConsentRecord.revokes, not_since_nil]
    · obtain rfl : Number.finite 60 = x := Option.some.inj h
      exact ⟨60, rfl, by decide⟩
  refine ⟨(active_follows_ledger Sample.renewed hcalls _ _).1 (by decide +kernel), fun h => ?_⟩
  have hactive := (active_follows_ledger Sample.renewed hcalls ⟨1060, by decide⟩ "gdpr").2 h
  exact absurd hactive (by decide +kernel)

/-- A grant, and all scopes revoked. -/
def Sample.withdrawn : List Call :=
  [.grant Sample.noon [Sample.value, .string "gdpr"], .revoke Sample.noon [Sample.value]]

/-- The revocation of all scopes leaves the grant active. -/
theorem revoke_all_ignored : ¬ ∀ calls now scope,
    activeGrantFor (run calls) now scope = true ↔ Active (events [] calls) now scope := by
  intro h
  have hactive : Active (events [] Sample.withdrawn) Sample.noon "gdpr" := (h _ _ _).1 (by decide)
  have hevents : events [] Sample.withdrawn =
      [] ++ [Event.granted Sample.noon "gdpr" none] ++ [Event.revoked none] := rfl
  rw [hevents, Active, since_concat] at hactive
  simp [Event.Grants, Event.Covers] at hactive

end Metalogos.Consent
