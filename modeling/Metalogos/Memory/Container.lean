import Mathlib
import Metalogos.Grants.Builtins
import Metalogos.Lib.Bfs

/-!
# Typed memory: containers

`src/memory_typed.rs`: a container holds entries that name the entries they derive from, an index of the
children of each key, and the pinned keys. Every operation below is the part of the source that runs under
the registry lock, on one container. It returns the container and the write-through statements it issues,
in order (`Write`); what these do to the persistent store is in `Memory.Store`. Clock readings are
arguments, as are the cipher and the answers of the consent registry. The match scores of `recall` are
left out: they order the hits and decide nothing else.
-/
namespace Metalogos.Memory

open Metalogos.Lib Metalogos.Grants

/-! ## Data -/

/-- mirrors src/memory_typed.rs:60-63 -/
inductive MemLabel where
  | pub
  | priv
  deriving DecidableEq

/-- mirrors src/memory_typed.rs:78-83 -/
def MemLabel.asStr : MemLabel → String
  | .pub => "public"
  | .priv => "private"

/-- mirrors src/memory_typed.rs:90-94 -/
inductive Stored where
  | plain (s : String)
  | enc (blob : ByteArray)
  deriving DecidableEq

/-- A float as the code reads it: its value if it is finite, and how it prints. -/
structure Num where
  value : Option Rat
  text : String
  deriving DecidableEq

def Num.isFinite (x : Num) : Bool := x.value.isSome

/-- `x < 0.0`; false for NaN. The infinities are refused before. -/
def Num.isNegative (x : Num) : Bool := x.value.any (· < 0)

/-- mirrors src/memory_typed.rs:96-125 -/
structure TypedEntry where
  stored : Stored
  derivedFrom : List String
  createdUnix : Nat
  priority : Num
  decayRate : Num
  lastAccessUnix : Nat
  ttlUnix : Option Nat
  poisoned : Bool
  deriving DecidableEq

/-- mirrors src/memory_typed.rs:127-142 -/
def TypedEntry.new (stored : Stored) (derivedFrom : List String) (createdUnix : Nat) : TypedEntry where
  stored := stored
  derivedFrom := derivedFrom
  createdUnix := createdUnix
  priority := ⟨some 1, "1"⟩
  decayRate := ⟨some (1 / 100), "0.01"⟩
  lastAccessUnix := createdUnix
  ttlUnix := none
  poisoned := false

/-- mirrors src/memory_typed.rs:148-153 -/
structure PutOpts where
  priority : Option Num := none
  decayRate : Option Num := none
  ttlSecs : Option Num := none

/-- mirrors src/memory_typed.rs:155-174 -/
structure TypedContainer where
  id : String
  subject : String
  label : MemLabel
  createdUnix : Nat
  entries : Dict String TypedEntry
  children : Dict String (List String)
  retained : Finset String
  deriving DecidableEq

/-- A container as `memory_open` makes it. -/
def TypedContainer.fresh (id subject : String) (label : MemLabel) (createdUnix : Nat) : TypedContainer :=
  ⟨id, subject, label, createdUnix, .empty, .empty, ∅⟩

/-- The write-through statements.
mirrors src/memory_typed.rs:864-990 -/
inductive Write where
  | entryPut (key : String) (entry : TypedEntry)
  | pin (key : String) (retained : Bool)
  | attrs (key : String) (entry : TypedEntry)
  | delete (keys : List String)
  deriving DecidableEq

/-- AES-GCM under the key of a subject; `nonce` is what the random generator drew.
mirrors src/memory_typed.rs:213-277 -/
structure Cipher where
  encrypt : (subject text : String) → (nonce : ByteArray) → Except String ByteArray
  decrypt : (subject : String) → (blob : ByteArray) → Except String String

/-- What an operation answers, the container after it and the statements it issued. -/
structure Act (α : Type) where
  res : Except String α
  container : TypedContainer
  writes : List Write

def codedError (code msg : String) : String := "[" ++ code ++ "] " ++ msg

variable (K : Cipher)

/-! ## The index -/

/-- The direct derivations of a key, as an index has them. -/
def kidsOf (children : Dict String (List String)) (p : String) : List String := (children.get p).getD []

def TypedContainer.kids (c : TypedContainer) (p : String) : List String := kidsOf c.children p

/-- `list.retain(|k| k != key)` on the lists of these parents. -/
def unlink (children : Dict String (List String)) (key : String) (parents : List String) :
    Dict String (List String) :=
  parents.foldl (fun ch p => ch.modify p (·.filter (· ≠ key))) children

/-- `children.entry(parent).or_default().push(key)` for each of these parents. -/
def link (children : Dict String (List String)) (key : String) (parents : List String) :
    Dict String (List String) :=
  parents.foldl (fun ch p => ch.set p (kidsOf ch p ++ [key])) children

/-- The parents an entry names; none if it is not there. -/
def TypedContainer.parents (c : TypedContainer) (key : String) : List String :=
  ((c.entries.get key).map (·.derivedFrom)).getD []

/-! ## Put -/

/-- mirrors src/memory_typed.rs:451-460 -/
def ttlOf (now : Nat) : Option Num → Except String (Option Nat)
  | none => .ok none
  | some t =>
    match t.value with
    | some x =>
      if 0 < x then .ok (some (addU64 now (saturate x.floor.toNat)))
      else .error ("memory_put: ttl_secs must be a finite value > 0.0, got " ++ t.text)
    | none => .error ("memory_put: ttl_secs must be a finite value > 0.0, got " ++ t.text)

/-- mirrors src/memory_typed.rs:461-467 -/
def storedOf (c : TypedContainer) (text : String) (nonce : ByteArray) : Except String Stored :=
  match c.label with
  | .pub => .ok (.plain text)
  | .priv => (K.encrypt c.subject text nonce).map .enc

/-- The checks of a put and the entry it writes.
mirrors src/memory_typed.rs:422-487 -/
def putEntry (c : TypedContainer) (t : Clock) (nonce : ByteArray) (key text : String)
    (derivedFrom : List String) (opts : PutOpts) : Except String TypedEntry :=
  if blank key then .error "memory_put: key must be a non-empty string"
  else match derivedFrom.find? fun p => !c.entries.has p with
  | some parent => .error ("memory_put: derived-from parent '" ++ parent ++
      "' does not exist in container '" ++ c.id ++ "' (MEMORY_UNKNOWN_PARENT)")
  | none =>
    let priority := opts.priority.getD ⟨some 1, "1"⟩
    let decayRate := opts.decayRate.getD ⟨some (1 / 100), "0.01"⟩
    if !priority.isFinite || priority.isNegative then
      .error ("memory_put: priority must be a finite value >= 0.0, got " ++ priority.text)
    else if !decayRate.isFinite || decayRate.isNegative then
      .error ("memory_put: decay_rate must be a finite value >= 0.0, got " ++ decayRate.text)
    else do
      let ttlUnix ← ttlOf (t 0) opts.ttlSecs
      let stored ← storedOf K c text nonce
      .ok { TypedEntry.new stored derivedFrom (t 1) with
        priority := priority, decayRate := decayRate, ttlUnix := ttlUnix }

/-- An overwrite takes the key out of the lists of its old parents; the pin stays.
mirrors src/memory_typed.rs:468-495 -/
def TypedContainer.insertEntry (c : TypedContainer) (key : String) (entry : TypedEntry) : TypedContainer :=
  { c with
    children := link (unlink c.children key (c.parents key)) key entry.derivedFrom
    entries := c.entries.set key entry }

/-- mirrors src/memory_typed.rs:406-514 -/
def put (c : TypedContainer) (t : Clock) (nonce : ByteArray) (key text : String)
    (derivedFrom : List String) (opts : PutOpts) : Act Unit :=
  match putEntry K c t nonce key text derivedFrom opts with
  | .error e => ⟨.error e, c, []⟩
  | .ok entry => ⟨.ok (), c.insertEntry key entry, [.entryPut key entry]⟩

/-! ## Expiry -/

def TypedEntry.expired (e : TypedEntry) (now : Nat) : Bool := e.ttlUnix.any (· ≤ now)

/-- mirrors src/memory_typed.rs:1823-1828 -/
def TypedContainer.expiredKeys (c : TypedContainer) (now : Nat) : List String :=
  c.entries.select fun _ e => e.expired now

/-- One entry taken out, first from the lists of its parents.
mirrors src/memory_typed.rs:1833-1847 and 2055-2065 -/
def TypedContainer.removeEntry (c : TypedContainer) (k : String) : TypedContainer :=
  { c with
    children := (unlink c.children k (c.parents k)).erase k
    entries := c.entries.erase k
    retained := c.retained.erase k }

/-- mirrors src/memory_typed.rs:1818-1860 -/
def sweepExpired (c : TypedContainer) (now : Nat) : TypedContainer × List Write :=
  if c.expiredKeys now = [] then (c, [])
  else ((c.expiredKeys now).foldl .removeEntry c, [.delete (c.expiredKeys now)])

/-! ## Reading -/

/-- Private content leaves as a Secret. -/
inductive Content where
  | string (s : String)
  | secret (s : String)
  deriving DecidableEq

/-- mirrors src/memory_typed.rs:549-557 -/
def contentOf (subject : String) : Stored → Except String Content
  | .plain s => .ok (.string s)
  | .enc blob => (K.decrypt subject blob).map .secret

def TypedEntry.touch (now : Nat) (e : TypedEntry) : TypedEntry := { e with lastAccessUnix := now }

def TypedContainer.modifyEntry (c : TypedContainer) (key : String) (f : TypedEntry → TypedEntry) :
    TypedContainer :=
  { c with entries := c.entries.modify key f }

def unknownKey (fnName key id : String) : String :=
  fnName ++ ": no entry '" ++ key ++ "' in container '" ++ id ++ "' (MEMORY_UNKNOWN_KEY)"

/-- mirrors src/memory_typed.rs:521-570 -/
def read (c : TypedContainer) (t : Clock) (key : String) : Act Content :=
  let (c, ws) := sweepExpired c (t 0)
  match c.entries.get key with
  | none => ⟨.error (unknownKey "memory_read" key c.id), c, ws⟩
  | some e =>
    if e.poisoned then
      ⟨.error (codedError "MEMORY_POISONED" ("memory_read: entry '" ++ key ++ "' in container '" ++ c.id ++
        "' is POISONED (a derived-from survivor of the forget cascade) — its content cannot materialize into any sink; the quarantine is recorded in the memory.forget ledger")),
        c, ws⟩
    else match contentOf K c.subject e.stored with
      | .error x => ⟨.error x, c, ws⟩
      | .ok v => ⟨.ok v, c.modifyEntry key (.touch (t 1)), ws ++ [.attrs key (e.touch (t 1))]⟩

/-- mirrors src/memory_typed.rs:576-594 -/
def keys (c : TypedContainer) (t : Clock) : Act (List String) :=
  let (c, ws) := sweepExpired c (t 0)
  ⟨.ok (c.entries.keys.insertionSort (· ≤ ·)), c, ws⟩

/-- mirrors src/memory_typed.rs:622-660 -/
def exportEntry (c : TypedContainer) (key : String) : Except String Unit :=
  match c.entries.get key with
  | none => .error (unknownKey "memory_export" key c.id)
  | some e =>
    if e.poisoned then
      .error (codedError "MEMORY_POISONED" ("memory_export: entry '" ++ key ++ "' in container '" ++ c.id ++
        "' is POISONED (a derived-from survivor of the forget cascade) — its content cannot materialize into any sink"))
    else match c.label with
      | .priv => .error ("memory_export: entry '" ++ key ++
          "' is private — export the redact() output instead (MEMORY_REDACT_REQUIRED; №326/ADR-0136 is the only egress path for private content)")
      | .pub => .ok ()

/-- mirrors src/memory_typed.rs:1530-1541 -/
structure RecallEntry where
  containerId : String
  subject : String
  key : String
  text : String
  derivedFrom : List String
  createdUnix : Nat
  deriving DecidableEq

def Content.text : Content → String
  | .string s => s
  | .secret s => s

/-- `str::contains`. -/
def containsText (s query : String) : Bool := s.toList.tails.any query.toList.isPrefixOf

/-- An entry that is not in quarantine, decrypts and matches.
mirrors src/memory_typed.rs:1609-1654 -/
def hitOf (c : TypedContainer) (query key : String) : Option RecallEntry := do
  let e ← c.entries.get key
  if e.poisoned then none
  else match contentOf K c.subject e.stored with
    | .error _ => none
    | .ok v =>
      if containsText key query || containsText v.text query then
        some ⟨c.id, c.subject, key, v.text, e.derivedFrom, e.createdUnix⟩
      else none

/-- The boost of the hits: an entry touched in the same second is left alone.
mirrors src/memory_typed.rs:1655-1669 -/
def boost (now : Nat) (x : TypedContainer × List Write) (key : String) : TypedContainer × List Write :=
  match x.1.entries.get key with
  | none => x
  | some e =>
    if e.lastAccessUnix = now then x
    else (x.1.modifyEntry key (.touch now), x.2 ++ [.attrs key (e.touch now)])

/-- What `recall` does in one container; `now` is read once, the sweep reads the clock for itself.
mirrors src/memory_typed.rs:1572-1670 -/
def «recall» (c : TypedContainer) (now swept : Nat) (query : String) (consented : Bool) :
    Act (List RecallEntry) :=
  let (c, ws) := sweepExpired c swept
  if c.label = .priv && !consented then ⟨.ok [], c, ws⟩
  else
    let hits := c.entries.keys.filterMap (hitOf K c query)
    let (c, ws) := hits.foldl (fun x h => boost now x h.key) (c, ws)
    ⟨.ok hits, c, ws⟩

/-! ## Pins and lifetimes -/

/-- mirrors src/memory_typed.rs:1142-1148 -/
structure CascadePlan where
  root : String
  closure : List String
  blockedBy : List String
  visitedNodes : Nat
  visitedEdges : Nat
  deriving DecidableEq

/-- Enough rounds for every key the index knows and the root. -/
def searchFuel (children : Dict String (List String)) : Nat := (children.pairs.flatMap (·.2)).length + 1

/-- mirrors src/memory_typed.rs:1150-1187 -/
def planCascade (root : String) (children : Dict String (List String)) (retained : Finset String) :
    CascadePlan :=
  let visited := bfs (kidsOf children) (searchFuel children) root
  let closure := visited.insertionSort (· ≤ ·)
  { root := root
    closure := closure
    blockedBy := closure.filter (· ∈ retained)
    visitedNodes := visited.length
    visitedEdges := (visited.map fun p => (kidsOf children p).length).sum }

/-- mirrors src/memory_typed.rs:1193-1198 -/
def TypedContainer.descendantClosure (c : TypedContainer) (key : String) : List String :=
  (planCascade key c.children ∅).closure

/-- mirrors src/memory_typed.rs:1204-1238 -/
def retain (c : TypedContainer) (key : String) : Act Nat :=
  if !c.entries.has key then ⟨.error (unknownKey "memory_retain" key c.id), c, []⟩
  else
    let closure := c.descendantClosure key
    let pinned := closure.any (· ∉ c.retained)
    ⟨.ok closure.length, { c with retained := c.retained ∪ closure.toFinset },
      if pinned then closure.map (.pin · true) else []⟩

/-- mirrors src/memory_typed.rs:1242-1281 -/
def release (c : TypedContainer) (key : String) : Act Nat :=
  if !c.entries.has key then ⟨.error (unknownKey "memory_release" key c.id), c, []⟩
  else
    let closure := c.descendantClosure key
    let released := closure.any (· ∈ c.retained)
    ⟨.ok closure.length, { c with retained := c.retained \ closure.toFinset },
      if released then closure.map (.pin · false) else []⟩

/-- mirrors src/memory_typed.rs:2188-2226 -/
def retainTtl (c : TypedContainer) (t : Clock) (key : String) (ttlSecs : Nat) : Act Unit :=
  let (c, ws) := sweepExpired c (t 0)
  match c.entries.get key with
  | none => ⟨.error (unknownKey "memory_retain_ttl" key c.id), c, ws⟩
  | some e =>
    if e.poisoned then
      ⟨.error (codedError "MEMORY_POISONED" ("memory_retain_ttl: entry '" ++ key ++ "' in container '" ++
        c.id ++ "' is POISONED — a quarantined entry cannot be given a new lifetime")), c, ws⟩
    else
      let deadline := some (addU64 (t 1) ttlSecs)
      ⟨.ok (), c.modifyEntry key fun e => { e with ttlUnix := deadline },
        ws ++ [.attrs key { e with ttlUnix := deadline }]⟩

/-! ## Forgetting -/

/-- The grant of a forget must cover `memory:forget:<container>`. -/
def forgetScope (id : String) : String := "memory:forget:" ++ id

def scopeMismatch (grant : GrantHandle) (id : String) : String :=
  "GRANT_SCOPE_MISMATCH: grant " ++ grant.grantId.text ++ " (scope '" ++ grant.scope ++
    "') does not cover " ++ forgetScope id

def retainProtected (key : String) (blockedBy : List String) : String :=
  "MEMORY_RETAIN_PROTECTED: the cascade of '" ++ key ++ "' would reach retained entries " ++
    toString (blockedBy.map String.quote) ++ " — release them first (memory_release) if forgetting them is intended"

/-- One entry of the cascade, with the parents it had before.
mirrors src/memory_typed.rs:1421-1430 -/
def TypedContainer.cascadeEntry (c : TypedContainer) (x : String × List String) : TypedContainer :=
  { c with
    entries := c.entries.erase x.1
    retained := c.retained.erase x.1
    children := unlink (c.children.erase x.1) x.1 x.2 }

/-- mirrors src/memory_typed.rs:1409-1430 -/
def TypedContainer.removeClosure (c : TypedContainer) (closure : List String) : TypedContainer :=
  (closure.map fun d => (d, c.parents d)).foldl .cascadeEntry c

/-- The section of `forget_cascade` under the registry lock.
mirrors src/memory_typed.rs:1384-1439 -/
def cascadeSection (c : TypedContainer) (key : String) : Act (List String) :=
  if !c.entries.has key then ⟨.error (unknownKey "memory_forget_cascade" key c.id), c, []⟩
  else
    let plan := planCascade key c.children c.retained
    if plan.blockedBy ≠ [] then ⟨.error (retainProtected key plan.blockedBy), c, []⟩
    else ⟨.ok plan.closure, c.removeClosure plan.closure, [.delete plan.closure]⟩

/-- A granted action on a container: what it answers, the grants and the container after it. -/
structure GrantedAct (α : Type) where
  res : Except String α
  grants : GrantLedger
  container : TypedContainer
  writes : List Write

/-- Recording the use of an action that is done; if it is refused, the call fails all the same. -/
def charge {α : Type} (l : GrantLedger) (t : Clock) (grant : GrantHandle) (a : Act α) : GrantedAct α :=
  match a.res with
  | .error e => ⟨.error e, l, a.container, a.writes⟩
  | .ok out =>
    match grantUse l t grant with
    | (.error e, l) => ⟨.error e, l, a.container, a.writes⟩
    | (.ok _, l) => ⟨.ok out, l, a.container, a.writes⟩

/-- The grant is active and covers the container.
mirrors src/memory_typed.rs:1369-1382 -/
def forgetGates (l : GrantLedger) (id : String) (now : Nat) (grant : GrantHandle) : Except String Unit := do
  let _ ← checkActive l.rows grant.grantId now
  if !scopeAttenuates grant.scope (forgetScope id) then .error (scopeMismatch grant id) else .ok ()

/-- mirrors src/memory_typed.rs:1364-1489 -/
def forgetCascade (l : GrantLedger) (c : TypedContainer) (t : Clock) (key : String) (grant : GrantHandle) :
    GrantedAct (List String) :=
  match forgetGates l c.id (t 0) grant with
  | .error e => ⟨.error e, l, c, []⟩
  | .ok _ => charge l (fun i => t (i + 1)) grant (cascadeSection c key)

/-- mirrors src/memory_typed.rs:1864-1871 -/
structure ForgetFront where
  root : String
  deleted : List String
  poisoned : List String
  dryRun : Bool
  deriving DecidableEq

def TypedEntry.poison (e : TypedEntry) : TypedEntry := { e with poisoned := true }

/-- mirrors src/memory_typed.rs:2067-2073 -/
def poisonEntry (x : TypedContainer × List Write) (k : String) : TypedContainer × List Write :=
  match x.1.entries.get k with
  | none => x
  | some e => (x.1.modifyEntry k .poison, x.2 ++ [.attrs k e.poison])

/-- The root goes, what derives from it is put in quarantine.
mirrors src/memory_typed.rs:2052-2082 -/
def frontApply (c : TypedContainer) (key : String) (derived : List String) : Act ForgetFront :=
  let poisoned := derived.filter (c.removeEntry key).entries.has
  let (c, ws) := derived.foldl poisonEntry (c.removeEntry key, [])
  ⟨.ok ⟨key, [key], poisoned, false⟩, c, ws ++ [.delete [key]]⟩

/-- The section of `forget_front` under the registry lock.
mirrors src/memory_typed.rs:1998-2082 -/
def frontSection (c : TypedContainer) (now : Nat) (key : String) (dryRun : Bool) : Act ForgetFront :=
  let (c, ws) := sweepExpired c now
  if !c.entries.has key then ⟨.error (unknownKey "forget" key c.id), c, ws⟩
  else
    let plan := planCascade key c.children c.retained
    if plan.blockedBy ≠ [] then ⟨.error (retainProtected key plan.blockedBy), c, ws⟩
    else
      let derived := plan.closure.filter (· ≠ key)
      if dryRun then ⟨.ok ⟨key, [], derived, true⟩, c, ws⟩
      else
        let a := frontApply c key derived
        { a with writes := ws ++ a.writes }

/-- mirrors src/memory_typed.rs:1888-1896 -/
def forgetConsentRefusal (id subject : String) : String :=
  codedError "MEMORY_FORGET_CONSENT_REQUIRED" ("forget refused: container '" ++ id ++
    "' addresses gated private memory of subject '" ++ subject ++
    "' and no active consent grant exists for scope 'memory:" ++ subject ++
    "' — grant it via consent_grant(<value>, \"memory:" ++ subject ++ "\", \"" ++ subject ++
    "\") (the №413 fail-closed convention; this refusal is a memory.forget.denied ledger record)")

/-- The rungs before the section.
mirrors src/memory_typed.rs:1961-1997 -/
def frontGates (l : GrantLedger) (c : TypedContainer) (now : Nat) (key : String) (grant : GrantHandle)
    (consented : Bool) : Except String Unit :=
  if !c.entries.has key then .error (unknownKey "forget" key c.id)
  else if c.label = .priv && !consented then .error (forgetConsentRefusal c.id c.subject)
  else forgetGates l c.id now grant

/-- mirrors src/memory_typed.rs:1954-2125 -/
def forgetFront (l : GrantLedger) (c : TypedContainer) (t : Clock) (key : String) (grant : GrantHandle)
    (dryRun consented : Bool) : GrantedAct ForgetFront :=
  match frontGates l c (t 0) key grant consented with
  | .error e => ⟨.error e, l, c, []⟩
  | .ok _ =>
    let a := frontSection c (t 1) key dryRun
    if dryRun then ⟨a.res, l, a.container, a.writes⟩ else charge l (fun i => t (i + 2)) grant a

/-- What a revoked consent does in one private container of the subject.
mirrors src/memory_typed.rs:2157-2168 -/
def quarantineEntry (now : Nat) (x : TypedContainer × List Write) (k : String) :
    TypedContainer × List Write :=
  match x.1.entries.get k with
  | none => x
  | some e =>
    if e.poisoned then x
    else (x.1.modifyEntry k fun e => (e.touch now).poison, x.2 ++ [.attrs k (e.touch now).poison])

/-- mirrors src/memory_typed.rs:2141-2179 -/
def consentRevoked (c : TypedContainer) (now swept : Nat) : Act Unit :=
  let (c, ws) := sweepExpired c swept
  let (c, ws) := c.entries.keys.foldl (quarantineEntry now) (c, ws)
  ⟨.ok (), c, ws⟩

end Metalogos.Memory
