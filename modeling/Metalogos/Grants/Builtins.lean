import Metalogos.Grants.Ledger
import Metalogos.Lib.Fallible

/-!
# Capability grants: the builtins

`src/builtins/grants.rs`: how a program reaches the ledger. `Call` is one call of a grant builtin with
its arguments and clock readings, `step` what it does to the ledger, `run` a whole program's calls.
`Change` lists once what a call can do, and `step_change` says that it is complete; every invariant of
the ledger is shown on `Change`.
-/
namespace Metalogos.Grants

open Metalogos.Lib

/-! ## Arguments -/

/-- An `f64` as these builtins read it: a non-negative whole number of any size, or anything else
(negative, fractional, infinite, NaN). -/
inductive Number where
  | whole (n : Nat)
  | other
  deriving DecidableEq

/-- `as u64` saturates. -/
def saturate (n : Nat) : Nat := min n (2 ^ 64 - 1)

/-- A grant comes as the opaque handle or inside the Capability struct around it; both are read alike.
mirrors src/capability.rs:75-86 -/
inductive Arg where
  | string (s : String)
  | number (x : Number)
  | grant (h : GrantHandle)
  | other (typeName : String)

def Arg.typeName : Arg → String
  | .string _ => "String"
  | .number _ => "Float"
  | .grant _ => "Grant"
  | .other t => t

/-- mirrors src/builtins/grants.rs:55-69 -/
def expectGrantArg (fnName : String) (args : List Arg) (idx : Nat) : Except String GrantHandle :=
  match args[idx]? with
  | some (.grant h) => .ok h
  | some a => .error (fnName ++ ": argument " ++ toString (idx + 1) ++ " must be a Grant, got " ++ a.typeName)
  | none => .error (fnName ++ ": missing argument " ++ toString (idx + 1) ++ " (Grant)")

/-- mirrors src/builtins/grants.rs:71-82 -/
def expectScopeArg (fnName : String) (args : List Arg) (idx : Nat) : Except String String :=
  match args[idx]? with
  | some (.string s) => .ok s
  | some a => .error (fnName ++ ": argument " ++ toString (idx + 1) ++ " (scope) must be String, got " ++
      a.typeName)
  | none => .error (fnName ++ ": missing argument " ++ toString (idx + 1) ++ " (scope)")

/-- mirrors src/builtins/grants.rs:84-99 -/
def expectTtlArg (fnName : String) (args : List Arg) (idx : Nat) : Except String Nat :=
  match args[idx]? with
  | some (.number (.whole n)) => .ok (saturate n)
  | some a => .error (fnName ++ ": argument " ++ toString (idx + 1) ++
      " (ttl_seconds) must be a non-negative whole Number, got " ++ a.typeName)
  | none => .error (fnName ++ ": missing argument " ++ toString (idx + 1) ++ " (ttl_seconds)")

/-- mirrors src/builtins/grants.rs:117-130 -/
def usesOf (fnName : String) : Option Arg → Except String GrantClass
  | some (.number (.whole (n + 1))) => .ok (.n (saturate (n + 1)))
  | some a => .error (fnName ++
      ": class \"n\" requires a whole uses count >= 1 after the class word, got " ++ a.typeName)
  | none => .error (fnName ++
      ": class \"n\" requires a uses count argument (e.g. grant_issue(scope, ttl, \"n\", 5))")

/-- mirrors src/builtins/grants.rs:103-153 -/
def parseClassTail (fnName : String) (args : List Arg) (classIdx : Nat) : Except String GrantClass :=
  match args[classIdx]? with
  | none => .ok .once
  | some (.string word) => do
    match ← GrantClass.parse word with
    | .n _ => usesOf fnName args[classIdx + 1]?
    | cls =>
      if classIdx + 1 < args.length then
        .error (fnName ++ ": a uses count is only valid with class \"n\"")
      else .ok cls
  | some a => .error (fnName ++ ": argument " ++ toString (classIdx + 1) ++
      " (class) must be String, got " ++ a.typeName)

/-- The quotas a program can ask for: a `u64` of at least 1. -/
def GrantClass.Sized : GrantClass → Prop
  | .n k => 1 ≤ k ∧ k < 2 ^ 64
  | _ => True

theorem parseClassTail_sized {fnName : String} {args : List Arg} {i : Nat} {cls : GrantClass}
    (h : parseClassTail fnName args i = .ok cls) : cls.Sized := by
  unfold parseClassTail at h
  split at h
  · cases h
    trivial
  · obtain ⟨c, -, h⟩ := bind_ok.1 h
    cases c with
    | n k =>
      simp only [usesOf] at h
      split at h
      · cases h
        simp only [GrantClass.Sized, saturate]
        omega
      · cases h
      · cases h
    | once =>
      dsimp only at h
      split_ifs at h
      cases h
      trivial
    | unlimited =>
      dsimp only at h
      split_ifs at h
      cases h
      trivial
  · cases h

/-! ## Calls -/

/-- mirrors src/builtins/grants.rs:156-167 -/
def issueArgs (args : List Arg) : Except String (String × Nat × GrantClass) := do
  if args.length < 2 ∨ args.length > 4 then
    .error ("grant_issue: expects 2..4 arguments (scope, ttl_seconds, class?, uses?), got " ++
      toString args.length)
  else
    let scope ← expectScopeArg "grant_issue" args 0
    let ttl ← expectTtlArg "grant_issue" args 1
    let cls ← parseClassTail "grant_issue" args 2
    .ok (scope, ttl, cls)

/-- mirrors src/builtins/grants.rs:179-191 -/
def subgrantArgs (args : List Arg) : Except String (GrantHandle × String × Nat × GrantClass) := do
  if args.length < 3 ∨ args.length > 5 then
    .error ("grant_subgrant: expects 3..5 arguments (parent, scope, ttl_seconds, class?, uses?), got " ++
      toString args.length)
  else
    let parent ← expectGrantArg "grant_subgrant" args 0
    let scope ← expectScopeArg "grant_subgrant" args 1
    let ttl ← expectTtlArg "grant_subgrant" args 2
    let cls ← parseClassTail "grant_subgrant" args 3
    .ok (parent, scope, ttl, cls)

/-- mirrors src/builtins/grants.rs:201-228 -/
def handleArg (fnName : String) (args : List Arg) : Except String GrantHandle :=
  if args.length ≠ 1 then
    .error (fnName ++ ": expects 1 argument (grant), got " ++ toString args.length)
  else expectGrantArg fnName args 0

/-- mirrors src/builtins/grants.rs:156-176 -/
def builtinGrantIssue (l : GrantLedger) (t : Clock) (nanos : Nat) (args : List Arg) :
    Except String GrantHandle × GrantLedger :=
  match issueArgs args with
  | .error e => (.error e, l)
  | .ok (scope, ttl, cls) => issue l t nanos scope ttl cls "program"

/-- mirrors src/builtins/grants.rs:179-198 -/
def builtinGrantSubgrant (l : GrantLedger) (t : Clock) (nanos : Nat) (args : List Arg) :
    Except String GrantHandle × GrantLedger :=
  match subgrantArgs args with
  | .error e => (.error e, l)
  | .ok (parent, scope, ttl, cls) => subgrant l t nanos parent scope ttl cls

/-- mirrors src/builtins/grants.rs:201-213 -/
def builtinGrantRevoke (l : GrantLedger) (args : List Arg) : Except String Nat × GrantLedger :=
  match handleArg "grant_revoke" args with
  | .error e => (.error e, l)
  | .ok h => revoke l h

/-- mirrors src/builtins/grants.rs:217-229 -/
def builtinGrantUse (l : GrantLedger) (t : Clock) (args : List Arg) : Except String Int × GrantLedger :=
  match handleArg "grant_use" args with
  | .error e => (.error e, l)
  | .ok h => grantUse l t h

inductive Call where
  | issue (t : Clock) (nanos : Nat) (args : List Arg)
  | subgrant (t : Clock) (nanos : Nat) (args : List Arg)
  | use (t : Clock) (args : List Arg)
  | revoke (args : List Arg)

def step (l : GrantLedger) : Call → GrantLedger
  | .issue t nanos args => (builtinGrantIssue l t nanos args).2
  | .subgrant t nanos args => (builtinGrantSubgrant l t nanos args).2
  | .use t args => (builtinGrantUse l t args).2
  | .revoke args => (builtinGrantRevoke l args).2

def run (l : GrantLedger) (calls : List Call) : GrantLedger := calls.foldl step l

/-- The grant a call consumed one use of, if it is a `grant_use` that succeeds. -/
def usedBy (l : GrantLedger) : Call → Option GrantId
  | .use t args =>
    match handleArg "grant_use" args, builtinGrantUse l t args with
    | .ok h, (.ok _, _) => some h.grantId
    | _, _ => none
  | _ => none

/-- The successful uses of a run, in order. -/
def uses (l : GrantLedger) : List Call → List GrantId
  | [] => []
  | c :: cs => (usedBy l c).toList ++ uses (step l c) cs

/-! ## What a call can do -/

/-- The row a split adds. -/
def childRow (parentId : GrantId) (scope : String) (cls : GrantClass) (expires : Nat) : GrantRow :=
  { parentId := some parentId, scope := scope, cls := cls.asLedgerStr,
    remaining := cls.initialRemaining, expiresAt := toI64 expires, state := .active }

/-- The row of an issued grant. -/
def rootRow (scope : String) (cls : GrantClass) (expires : Nat) : GrantRow :=
  { parentId := none, scope := scope, cls := cls.asLedgerStr,
    remaining := cls.initialRemaining, expiresAt := toI64 expires, state := .active }

/-- What `check_record` lets through. -/
structure Passes (rows : Rows) (id : GrantId) (r : GrantRow) : Prop where
  row : rows.get id = some r
  active : r.state = .active
  remaining : r.remaining ≠ 0

/-- What a child of this class costs its parent. -/
def GrantClass.cost : GrantClass → Int
  | .unlimited => 0
  | .once => 1
  | .n k => toI64 k

/-- What the attenuation law and the budget let through; `r` is the parent's row. -/
structure Splits (r : GrantRow) (scope : String) (cls : GrantClass) (expires : Nat) (d after : Int) :
    Prop where
  scope : scopeAttenuates r.scope scope = true
  expires : expires ≤ toU64 r.expiresAt
  power : cls.power ≤ (GrantClass.fromLedgerStr r.cls).power
  debit : d = cls.cost
  budget : GrantClass.fromLedgerStr r.cls ≠ .unlimited → d ≤ r.remaining ∧ after = toI64 (r.remaining - d)

/-- The checks that `subgrant` makes before it takes the child's quota out of the parent's. -/
structure ReachesDebit (rows : Rows) (t : Clock) (parentId : GrantId) (r : GrantRow) (scope : String) (ttl : Nat)
    (cls : GrantClass) : Prop where
  named : blank scope = false
  active : checkActive rows parentId (t 0) = .ok (r.record parentId)
  scope : scopeAttenuates r.scope scope = true
  expires : addU64 (t 1) ttl ≤ toU64 r.expiresAt
  power : cls.power ≤ (GrantClass.fromLedgerStr r.cls).power

/-- `Change l call used l'`: what the call does, and the grant it used. -/
inductive Change (l : GrantLedger) : Call → Option GrantId → GrantLedger → Prop where
  | none {call : Call} {seq : Nat} (hseq : l.seq ≤ seq) : Change l call Option.none ⟨l.rows, seq⟩
  | issue {t : Clock} {nanos expires : Nat} {args : List Arg} {scope : String} {cls : GrantClass}
    (hexp : expires < 2 ^ 64) (hsized : cls.Sized) :
    Change l (.issue t nanos args) Option.none
      ⟨l.rows.set ⟨nanos, l.seq⟩ (rootRow scope cls expires), l.seq + 1⟩
  | subgrant {t : Clock} {nanos expires ttl : Nat} {args : List Arg} {parent : GrantHandle} {scope : String}
    {cls : GrantClass} {r : GrantRow} {d after : Int}
    (hargs : subgrantArgs args = .ok (parent, scope, ttl, cls)) (hexp : expires < 2 ^ 64)
    (hsized : cls.Sized) (hpass : Passes l.rows parent.grantId r)
    (hsplit : Splits r scope cls expires d after) (hreach : ReachesDebit l.rows t parent.grantId r scope ttl cls) :
    Change l (.subgrant t nanos args) Option.none
      ⟨(debitParent l.rows parent.grantId (.fromLedgerStr r.cls) after).set ⟨nanos, l.seq⟩
        (childRow parent.grantId scope cls expires), l.seq + 1⟩
  | use {t : Clock} {args : List Arg} {id : GrantId} {r : GrantRow} (hpass : Passes l.rows id r) :
    Change l (.use t args) (some id)
      { l with rows := l.rows.modify id fun x =>
        { x with state := (afterUse (r.record id)).1, remaining := (afterUse (r.record id)).2 } }
  | revoke {args : List Arg} {id : GrantId} :
    Change l (.revoke args) Option.none { l with rows := (revokeLoop l.rows [id] 0).1 }

theorem checkRecord_passes {rec : GrantRecord} {now : Nat} {u : Unit} (h : checkRecord rec now = .ok u) :
    rec.state = .active ∧ rec.remaining ≠ 0 := by
  unfold checkRecord at h
  split at h
  · cases h
  · cases h
  · split_ifs at h with hexpired hspent
    exact ⟨by assumption, hspent⟩

theorem loadRecord_ok {rows : Rows} {id : GrantId} {rec : GrantRecord} (h : loadRecord rows id = .ok rec) :
    ∃ r, rows.get id = some r ∧ rec = r.record id := by
  unfold loadRecord at h
  cases hr : rows.get id with
  | none =>
    rw [hr] at h
    cases h
  | some r =>
    rw [hr] at h
    exact ⟨r, rfl, (Except.ok.inj h).symm⟩

theorem checkActive_ok {rows : Rows} {id : GrantId} {now : Nat} {rec : GrantRecord}
    (h : checkActive rows id now = .ok rec) : ∃ r, Passes rows id r ∧ rec = r.record id := by
  obtain ⟨rec', hload, h⟩ := bind_ok.1 h
  obtain ⟨u, hc, h⟩ := bind_ok.1 h
  cases h
  obtain ⟨r, hr, rfl⟩ := loadRecord_ok hload
  obtain ⟨hactive, hremaining⟩ := checkRecord_passes hc
  exact ⟨r, ⟨hr, hactive, hremaining⟩, rfl⟩

theorem debit_ok {pid : GrantId} {prec : GrantRecord} {cls : GrantClass} {d : Int}
    (h : debit pid prec cls = .ok d) : d = cls.cost := by
  cases cls with
  | once => exact (Except.ok.inj h).symm
  | n k => exact (Except.ok.inj h).symm
  | unlimited =>
    simp only [debit] at h
    split_ifs at h
    exact (Except.ok.inj h).symm

theorem subgrantRows_ok {rows rows' : Rows} {t : Clock} {pid cid : GrantId} {scope : String} {ttl : Nat}
    {cls : GrantClass} (h : subgrantRows rows t pid cid scope ttl cls = .ok rows') :
    ∃ r d after, Passes rows pid r ∧ Splits r scope cls (addU64 (t 1) ttl) d after ∧
      checkActive rows pid (t 0) = .ok (r.record pid) ∧ rows' = (debitParent rows pid (.fromLedgerStr r.cls) after).set cid
        (childRow pid scope cls (addU64 (t 1) ttl)) := by
  obtain ⟨prec, hc, h⟩ := bind_ok.1 h
  obtain ⟨r, hpass, rfl⟩ := checkActive_ok hc
  dsimp only at h
  split_ifs at h with hscope hexp hpow
  obtain ⟨d, hd, h⟩ := bind_ok.1 h
  obtain ⟨after, ha, h⟩ := bind_ok.1 h
  cases h
  have hscope : scopeAttenuates (r.record pid).scope scope = true := by simpa using hscope
  refine ⟨r, d, after, hpass, ⟨hscope, Nat.le_of_not_lt hexp, Nat.le_of_not_lt hpow,
    debit_ok hd, fun hne => ?_⟩, hc, rfl⟩
  have hcls : (r.record pid).cls ≠ .unlimited := hne
  rw [remainingAfter, if_neg hcls] at ha
  split_ifs at ha with hlt
  exact ⟨Int.not_lt.1 hlt, (Except.ok.inj ha).symm⟩

theorem addU64_lt (a b : Nat) : addU64 a b < 2 ^ 64 := Nat.mod_lt _ (by decide)

theorem subgrantArgs_sized {args : List Arg} {parent : GrantHandle} {scope : String} {ttl : Nat}
    {cls : GrantClass} (h : subgrantArgs args = .ok (parent, scope, ttl, cls)) : cls.Sized := by
  unfold subgrantArgs at h
  split_ifs at h
  simp only [bind_ok] at h
  obtain ⟨p, -, s, -, n, -, c, hcls, h⟩ := h
  cases h
  exact parseClassTail_sized hcls

theorem issueArgs_sized {args : List Arg} {scope : String} {ttl : Nat} {cls : GrantClass}
    (h : issueArgs args = .ok (scope, ttl, cls)) : cls.Sized := by
  unfold issueArgs at h
  split_ifs at h
  simp only [bind_ok] at h
  obtain ⟨s, -, n, -, c, hcls, h⟩ := h
  cases h
  exact parseClassTail_sized hcls

theorem step_change (l : GrantLedger) (call : Call) : Change l call (usedBy l call) (step l call) := by
  cases call with
  | issue t nanos args =>
    show Change l _ none (builtinGrantIssue l t nanos args).2
    unfold builtinGrantIssue
    cases ha : issueArgs args with
    | error e => exact .none (Nat.le_refl _)
    | ok x =>
      obtain ⟨scope, ttl, cls⟩ := x
      simp only [issue]
      split_ifs with hb
      · exact .none (Nat.le_refl _)
      · exact .issue (addU64_lt _ _) (issueArgs_sized ha)
  | subgrant t nanos args =>
    show Change l _ none (builtinGrantSubgrant l t nanos args).2
    unfold builtinGrantSubgrant
    cases ha : subgrantArgs args with
    | error e => exact .none (Nat.le_refl _)
    | ok x =>
      obtain ⟨parent, scope, ttl, cls⟩ := x
      simp only [subgrant]
      split_ifs with hb
      · exact .none (Nat.le_refl _)
      · cases hs : subgrantRows l.rows t parent.grantId ⟨nanos, l.seq⟩ scope ttl cls with
        | error e => exact .none (Nat.le_succ _)
        | ok rows' =>
          obtain ⟨r, d, after, hpass, hsplit, hactive, rfl⟩ := subgrantRows_ok hs
          exact .subgrant ha (addU64_lt _ _) (subgrantArgs_sized ha) hpass hsplit
            ⟨by simpa using hb, hactive, hsplit.scope, hsplit.expires, hsplit.power⟩
  | use t args =>
    simp only [usedBy, step, builtinGrantUse]
    cases ha : handleArg "grant_use" args with
    | error e => exact .none (Nat.le_refl _)
    | ok h =>
      simp only [grantUse]
      cases hc : checkActive l.rows h.grantId (t 0) with
      | error e => exact .none (Nat.le_refl _)
      | ok rec =>
        obtain ⟨r, hpass, rfl⟩ := checkActive_ok hc
        exact .use hpass
  | revoke args =>
    show Change l _ none (builtinGrantRevoke l args).2
    unfold builtinGrantRevoke
    cases ha : handleArg "grant_revoke" args with
    | error e => exact .none (Nat.le_refl _)
    | ok h =>
      simp only [revoke]
      cases loadRecord l.rows h.grantId with
      | error e => exact .none (Nat.le_refl _)
      | ok rec => exact .revoke

/-- What every call keeps holds after every run. -/
theorem run_invariant {P : GrantLedger → Prop} {l : GrantLedger} (h0 : P l)
    (hstep : ∀ l call used l', P l → Change l call used l' → P l') (calls : List Call) :
    P (run l calls) := by
  induction calls generalizing l with
  | nil => exact h0
  | cons c cs ih => exact ih (hstep l c _ _ h0 (step_change l c))

end Metalogos.Grants
