import Metalogos.Consent.Ledger
import Metalogos.Memory.Contents

/-!
# Typed memory: revoked consent

The typed memory together with the consent ledger that gates its private containers (`Site`).
`consent_revoke` with a scope `memory:…` puts every entry of the subject's private containers into
quarantine, as far as they are in the registry (src/memory_typed.rs, `consent_revoked_cascade`). The
consent ledger lives in the process, the store outlives it.

`revoked_stays_closed`: in every run whose revocations reach the subject's containers, what a private
container yields was put after the last revocation. A container that the store has and the process has not
opened is not reached, and a later grant opens it as it was (`text_resurrected`).
-/
namespace Metalogos.Memory

open Metalogos.Lib Metalogos.Grants
open Metalogos.Consent (ConsentLedger Instant activeGrantFor scopeOf)

/-! ## Calls -/

/-- The scope that gates a subject's private containers. -/
def memoryScope (subject : String) : String := "memory:" ++ subject

/-- `scope.strip_prefix("memory:")`, if something is left. -/
def scopeSubject (scope : String) : Option String :=
  if "memory:".toList <+: scope.toList ∧ scope ≠ "memory:" then
    some (String.ofList (scope.toList.drop "memory:".length))
  else none

/-- The subject whose private memory a revocation closes. -/
def revokedSubject : Consent.Call → Option String
  | .grant _ _ => none
  | .revoke _ args => (scopeOf args).bind scopeSubject

/-- A call with the ledger's answer. -/
def Op.withConsent (consented : Bool) : Op → Op
  | .recall now swept query _ => .recall now swept query consented
  | .forgetFront t key grant dryRun _ => .forgetFront t key grant dryRun consented
  | op => op

structure Site where
  world : World
  consent : ConsentLedger

def Site.start : Site := ⟨.start, []⟩

/-- `asked` is when the ledger is asked; `swept` has the clock readings of the sweeps. -/
inductive SiteOp where
  | consent (call : Consent.Call) (now : Nat) (swept : String → Nat)
  | open (subject : String) (label : MemLabel) (asked : Instant) (freshId : String) (now : Nat)
  | on (handle : String) (op : Op) (asked : Instant)
  | restart (grants : GrantLedger)

variable (K : Cipher)

/-- mirrors src/memory_typed.rs:2141-2179 -/
def World.consentRevokedCascade (w : World) (subject : String) (now : Nat) (swept : String → Nat) : World :=
  ((w.opened subject .priv).insertionSort (· ≤ ·)).foldl
    (fun w id => w.step K (.on id (.consentRevoked now (swept id)))) w

/-- A consent call; the cascade comes after the row.
mirrors src/builtins/consent.rs:80-119 -/
def Site.consentCall (s : Site) (call : Consent.Call) (now : Nat) (swept : String → Nat) : Site where
  consent := Consent.step s.consent call
  world :=
    match call.exec s.consent, revokedSubject call with
    | .ok _, some subject => s.world.consentRevokedCascade K subject now swept
    | _, _ => s.world

/-- The call as it is made on a container. -/
def Site.asked (s : Site) (c : TypedContainer) (op : Op) (asked : Instant) : Op :=
  op.withConsent (activeGrantFor s.consent asked (memoryScope c.subject))

def Site.step (s : Site) : SiteOp → Site
  | .consent call now swept => s.consentCall K call now swept
  | .open subject label asked freshId now =>
    let consented := activeGrantFor s.consent asked (memoryScope subject)
    { s with world := s.world.openContainer subject label consented freshId now }
  | .on handle op asked =>
    match s.world.registry.get handle with
    | none => s
    | some c => { s with world := s.world.step K (.on handle (s.asked c op asked)) }
  | .restart grants => ⟨s.world.step K (.restart grants), []⟩

def Site.run (s : Site) (ops : List SiteOp) : Site := ops.foldl (Site.step K) s

/-! ## What happens to private memory -/

inductive Event where
  | put (subject text : String)
  | revoked (subject : String)
  deriving DecidableEq

/-- A text that goes into a private container. -/
def putEvent (s : Mem) : Op → Option Event
  | .put t nonce key text derivedFrom opts =>
    match s.container.label, (put K s.container t nonce key text derivedFrom opts).res with
    | .priv, .ok _ => some (.put s.container.subject text)
    | _, _ => none
  | _ => none

/-- What a call that succeeds does to private memory. -/
def Site.event (s : Site) : SiteOp → Option Event
  | .consent call _ _ =>
    match call.exec s.consent with
    | .ok _ => (revokedSubject call).map .revoked
    | .error _ => none
  | .on handle op _ => (s.world.registry.get handle).bind fun c => putEvent K ⟨s.world.grants, c⟩ op
  | _ => none

def Site.history (s : Site) : List SiteOp → List Event
  | [] => []
  | op :: ops => (s.event K op).toList ++ Site.history (s.step K op) ops

/-- The texts a call yields. -/
def textsOf (c : TypedContainer) : Op → List String
  | .read t key =>
    match (read K c t key).res with
    | .ok v => [v.text]
    | .error _ => []
  | .recall now swept query consented =>
    match («recall» K c now swept query consented).res with
    | .ok hits => hits.map (·.text)
    | .error _ => []
  | _ => []

/-! ## Revocations that reach -/

/-- The round trip of the cipher: what is encrypted for a subject decrypts for it. -/
def Cipher.RoundTrips : Prop :=
  ∀ subject text nonce blob, K.encrypt subject text nonce = .ok blob → K.decrypt subject blob = .ok text

/-- No content of a container is in the open. -/
def Db.Shut (db : Db) (id : String) : Prop := ∀ k st, db.held id k ≠ some (st, false)

/-- A revocation finds each private container of the subject open in the process or with nothing in the open;
the id drawn for a new container is new. -/
def Site.Covered (s : Site) : SiteOp → Prop
  | .consent call now swept => ∀ subject, s.event K (.consent call now swept) = some (.revoked subject) →
      ∀ id row, s.world.db.containers.get id = some row → row.subject = subject → row.label = "private" →
        (∃ c, s.world.registry.get id = some c) ∨ s.world.db.Shut id
  | .open _ _ _ freshId _ => s.world.db.containers.get freshId = none
  | _ => True

def Site.CoveredAll (s : Site) : List SiteOp → Prop
  | [] => True
  | op :: ops => s.Covered K op ∧ Site.CoveredAll (s.step K op) ops

variable {K}

/-- What is in the open in a private container was put after the last revocation. -/
def SinceRevoked (K : Cipher) (evs : List Event) (subject : String) (st : Stored) : Prop :=
  ∀ v, contentOf K subject st = .ok v →
    Since (· = Event.put subject v.text) (· = Event.revoked subject) evs

/-- The store follows the registry, and private contents in the open are later than the last revocation. -/
structure Kept (K : Cipher) (w : World) (evs : List Event) : Prop where
  registry : ∀ h c, w.registry.get h = some c → c.id = h ∧ Holds w.db c ∧
    ∃ row, w.db.containers.get h = some row ∧ row.subject = c.subject ∧ row.label = c.label.asStr
  vacant : ∀ i, w.db.containers.get i = none → ∀ k, w.db.held i k = none
  since : ∀ i row k st, w.db.containers.get i = some row → row.label = "private" →
    w.db.held i k = some (st, false) → SinceRevoked K evs row.subject st

theorem kept_start : Kept K .start [] where
  registry _ _ h := by cases h
  vacant _ _ _ := rfl
  since _ _ _ _ h := by cases h

/-! ## Steps -/

theorem SinceRevoked.event {evs : List Event} {subject : String} {st : Stored} (h : SinceRevoked K evs subject st)
    {e : Option Event} (he : e ≠ some (.revoked subject)) : SinceRevoked K (evs ++ e.toList) subject st := by
  intro v hv
  cases e with
  | none => simpa using h v hv
  | some e => exact since_concat.2 (.inr ⟨h v hv, fun hr => he (congrArg some hr)⟩)

theorem putEvent_ne_revoked (s : Mem) (op : Op) (subject : String) : putEvent K s op ≠ some (.revoked subject) := by
  unfold putEvent
  split
  · split
    · exact nofun
    · exact nofun
  · exact nofun

/-- What a put stores is its text. -/
theorem storedOf_content (hK : K.RoundTrips) {c : TypedContainer} {text : String} {nonce : ByteArray} {st : Stored}
    (hp : c.label = .priv) (h : storedOf K c text nonce = .ok st) {v : Content}
    (hv : contentOf K c.subject st = .ok v) : v.text = text := by
  rw [storedOf, hp] at h
  obtain ⟨blob, hblob, rfl⟩ : ∃ blob, K.encrypt c.subject text nonce = .ok blob ∧ Stored.enc blob = st := by
    cases hb : K.encrypt c.subject text nonce with
    | error e =>
      rw [hb] at h
      cases h
    | ok blob =>
      rw [hb] at h
      exact ⟨blob, rfl, Except.ok.inj h⟩
  rw [contentOf, hK _ _ _ _ hblob] at hv
  cases hv
  rfl

theorem putEntry_stored {c : TypedContainer} {t : Clock} {nonce : ByteArray} {key text : String}
    {derivedFrom : List String} {opts : PutOpts} {entry : TypedEntry}
    (h : putEntry K c t nonce key text derivedFrom opts = .ok entry) : storedOf K c text nonce = .ok entry.stored := by
  obtain ⟨-, ttl, stored, -, hstored, rfl⟩ := putEntry_cases h
  exact hstored

theorem putEvent_put {s : Mem} {t : Clock} {nonce : ByteArray} {key text : String} {derivedFrom : List String}
    {opts : PutOpts} {entry : TypedEntry} (hp : s.container.label = .priv)
    (h : putEntry K s.container t nonce key text derivedFrom opts = .ok entry) :
    putEvent K s (.put t nonce key text derivedFrom opts) = some (.put s.container.subject text) := by
  simp only [putEvent, put, h, hp]

/-- A call on a container. -/
theorem Kept.on (hK : K.RoundTrips) {w : World} {evs : List Event} (h : Kept K w evs) {handle : String}
    {c : TypedContainer} (hc : w.registry.get handle = some c) (op : Op) :
    Kept K (w.step K (.on handle op)) (evs ++ (putEvent K ⟨w.grants, c⟩ op).toList) := by
  obtain ⟨rfl, hholds, row, hrow, hsubject, hlabel⟩ := h.registry handle c hc
  have hrun := Holds.exec (K := K) (s := ⟨w.grants, c⟩) hholds op
  obtain ⟨ms, -, hms, -⟩ := step_performs K ⟨w.grants, c⟩ op
  have hid : ((Mem.step K ⟨w.grants, c⟩ op).container).id = c.id ∧
      (Mem.step K ⟨w.grants, c⟩ op).container.subject = c.subject ∧
      (Mem.step K ⟨w.grants, c⟩ op).container.label = c.label := by
    rw [hms]
    exact mutateAll_identity c ms
  have hconts := containers_applyAll w.db c.id (Mem.exec K ⟨w.grants, c⟩ op).2
  have hother {i : String} (hi : i ≠ c.id) (k : String) :
      (w.db.applyAll c.id (Mem.exec K ⟨w.grants, c⟩ op).2).held i k = w.db.held i k :=
    held_sameRows (sameRows_applyAll w.db hi _) k
  rw [step_on, hc]
  refine ⟨fun h' c' hget => ?_, fun i hi k => ?_, fun i row' k st hrow' hpriv hheld => ?_⟩
  · simp only [Dict.get_set] at hget
    rw [hconts]
    split_ifs at hget with hh
    · obtain rfl := Option.some.inj hget
      refine ⟨hid.1.trans hh.symm, ?_, row, hh ▸ hrow, hsubject.trans hid.2.1.symm, ?_⟩
      · exact hrun
      · exact hlabel.trans (congrArg MemLabel.asStr hid.2.2.symm)
    · obtain ⟨rfl, hold, hrows⟩ := h.registry h' c' hget
      exact ⟨rfl, fun k => (hother hh k).trans (hold k), hrows⟩
  · rw [hconts] at hi
    have hne : i ≠ c.id := by
      rintro rfl
      rw [hrow] at hi
      cases hi
    exact (hother hne k).trans (h.vacant i hi k)
  · rw [hconts] at hrow'
    by_cases hi : i = c.id
    · subst hi
      obtain rfl : row = row' := Option.some.inj (hrow.symm.trans hrow')
      have hopen : (Mem.step K ⟨w.grants, c⟩ op).container.held k = some (st, false) := by
        rw [← hrun k, hid.1]
        exact hheld
      rw [hsubject]
      rcases held_exec hopen with hold | ⟨t, nonce, text, derivedFrom, opts, entry, rfl, hok, rfl⟩
      · have hst := h.since c.id row k st hrow hpriv ((hholds k).trans hold)
        rw [hsubject] at hst
        exact hst.event (putEvent_ne_revoked _ _ _)
      · have hp : c.label = .priv := asStr_injective (hlabel.symm.trans hpriv)
        rw [putEvent_put (s := ⟨w.grants, c⟩) hp hok]
        intro v hv
        have htext := storedOf_content hK hp (putEntry_stored hok) hv
        exact since_concat.2 (.inl (by rw [htext]))
    · exact (h.since i row' k st hrow' hpriv ((hother hi k).symm.trans hheld)).event (putEvent_ne_revoked _ _ _)

/-- What the store yields, with the row it stands in. -/
theorem load_some {db : Db} {subject : String} {label : MemLabel} {c : TypedContainer}
    (h : db.load subject label = some c) : Holds db c ∧
      ∃ row, db.containers.get c.id = some row ∧ row.subject = c.subject ∧ row.label = c.label.asStr := by
  cases hhead : (db.containers.select fun _ r => r.subject = subject && r.label = label.asStr).head? with
  | none => simp [Db.load, hhead] at h
  | some i =>
    obtain ⟨row, hrow, -, hlabel⟩ := mem_selected.1 (List.mem_of_mem_head? (Option.mem_def.2 hhead))
    simp only [Db.load, hhead, hrow, Option.bind_eq_bind, Option.bind_some, Option.some.injEq] at h
    subst h
    exact ⟨held_loaded db i row label, row, hrow, rfl, hlabel⟩

theorem Kept.cache {w : World} {evs : List Event} (h : Kept K w evs) {subject : String} {label : MemLabel}
    {c : TypedContainer} (hc : w.db.load subject label = some c) :
    Kept K { w with registry := w.registry.set c.id c } evs where
  registry h' c' hget := by
    rw [Dict.get_set] at hget
    split_ifs at hget with hh
    · obtain rfl := Option.some.inj hget
      subst hh
      exact ⟨rfl, load_some hc⟩
    · exact h.registry h' c' hget
  vacant := h.vacant
  since := h.since

theorem Kept.create {w : World} {evs : List Event} (h : Kept K w evs) {id : String}
    (hid : w.db.containers.get id = none) (subject : String) (label : MemLabel) (now : Nat) :
    Kept K { w with
      registry := w.registry.set id (.fresh id subject label now)
      db := w.db.openContainer (.fresh id subject label now) } evs := by
  rw [openContainer_fresh hid]
  refine ⟨fun h' c' hget => ?_, fun i hi k => ?_, fun i row k st hrow hpriv hheld => ?_⟩
  · rw [Dict.get_set] at hget
    simp only [Dict.get_set]
    split_ifs at hget ⊢ with hh
    · obtain rfl := Option.some.inj hget
      exact ⟨hh.symm, fun k => h.vacant id hid k, _, rfl, rfl, rfl⟩
    · exact h.registry h' c' hget
  · simp only [Dict.get_set] at hi
    split_ifs at hi
    exact h.vacant i hi k
  · simp only [Dict.get_set] at hrow
    split_ifs at hrow with hi
    · subst hi
      have hnone := h.vacant i hid k
      cases hnone.symm.trans hheld
    · exact h.since i row k st hrow hpriv hheld

theorem Kept.open {w : World} {evs : List Event} (h : Kept K w evs) (subject : String) (label : MemLabel)
    (consented : Bool) {freshId : String} (hid : w.db.containers.get freshId = none) (now : Nat) :
    Kept K (w.openContainer subject label consented freshId now) evs := by
  unfold World.openContainer
  split_ifs
  · exact h
  · exact h
  · exact h
  · cases hload : w.db.load subject label with
    | some c => exact h.cache hload
    | none => exact h.create hid subject label now

/-! ## The cascade -/

section

variable {w : World} {evs : List Event}

theorem Kept.quarantine (hK : K.RoundTrips) (h : Kept K w evs) (id : String) (now swept : Nat) :
    Kept K (w.step K (.on id (.consentRevoked now swept))) evs := by
  cases hc : w.registry.get id with
  | none =>
    rw [step_on, hc]
    exact h
  | some c => simpa [putEvent] using h.on hK hc (.consentRevoked now swept)

/-- What the cascade does to one container: it is shut, and no other is opened. -/
theorem Kept.shut (h : Kept K w evs) (id : String) (now swept : Nat) (i : String)
    (hi : w.db.Shut i ∨ i = id ∧ ∃ c, w.registry.get i = some c) :
    (w.step K (.on id (.consentRevoked now swept))).db.Shut i := by
  rw [step_on]
  cases hc : w.registry.get id with
  | none =>
    rcases hi with hi | ⟨rfl, c, hreg⟩
    · exact hi
    · rw [hc] at hreg
      cases hreg
  | some c =>
    obtain ⟨rfl, hholds, -⟩ := h.registry id c hc
    have hrun := Holds.exec (K := K) (s := ⟨w.grants, c⟩) hholds (.consentRevoked now swept)
    obtain ⟨ms, -, hms, -⟩ := step_performs K ⟨w.grants, c⟩ (.consentRevoked now swept)
    have hid : (Mem.step K ⟨w.grants, c⟩ (.consentRevoked now swept)).container.id = c.id := by
      rw [hms]
      exact (mutateAll_identity c ms).1
    intro k st hheld
    by_cases hic : i = c.id
    · subst hic
      refine held_consentRevoked c now swept k st ?_
      have hk := hrun k
      rw [hid] at hk
      exact hk.symm.trans hheld
    · rcases hi with hi | ⟨rfl, -⟩
      · exact hi k st ((held_sameRows (sameRows_applyAll w.db hic _) k).symm.trans hheld)
      · exact hic rfl

theorem registry_on {i : String} (hi : ∃ c, w.registry.get i = some c) (id : String) (op : Op) :
    ∃ c, (w.step K (.on id op)).registry.get i = some c := by
  rw [step_on]
  cases w.registry.get id with
  | none => exact hi
  | some c =>
    simp only [Dict.get_set]
    split_ifs
    · exact ⟨_, rfl⟩
    · exact hi

theorem containers_on (w : World) (id : String) (op : Op) :
    (w.step K (.on id op)).db.containers = w.db.containers := by
  rw [step_on]
  cases w.registry.get id with
  | none => rfl
  | some c => exact containers_applyAll _ _ _

theorem Kept.quarantineAll (hK : K.RoundTrips) (ids : List String) (now : Nat) (swept : String → Nat) (h : Kept K w evs) :
    Kept K (ids.foldl (fun w id => w.step K (.on id (.consentRevoked now (swept id)))) w) evs ∧
    (ids.foldl (fun w id => w.step K (.on id (.consentRevoked now (swept id)))) w).db.containers = w.db.containers ∧
    ∀ i, w.db.Shut i ∨ i ∈ ids ∧ (∃ c, w.registry.get i = some c) →
      (ids.foldl (fun w id => w.step K (.on id (.consentRevoked now (swept id)))) w).db.Shut i := by
  induction ids generalizing w with
  | nil => exact ⟨h, rfl, fun i hi => hi.resolve_right (by simp)⟩
  | cons id ids ih =>
    obtain ⟨hkept, hconts, hshut⟩ := ih (h.quarantine hK id now (swept id))
    refine ⟨hkept, hconts.trans (containers_on w id _), fun i hi => hshut i ?_⟩
    rcases hi with hi | ⟨hmem, hreg⟩
    · exact .inl (h.shut id now (swept id) i (.inl hi))
    · rcases List.mem_cons.1 hmem with rfl | hmem
      · exact .inl (h.shut i now (swept i) i (.inr ⟨rfl, hreg⟩))
      · exact .inr ⟨hmem, registry_on hreg id _⟩

end

/-- A revocation that reaches the containers of its subject. -/
theorem Kept.consentCall (hK : K.RoundTrips) {s : Site} {evs : List Event} (h : Kept K s.world evs)
    {call : Consent.Call} {now : Nat} {swept : String → Nat} (hcov : s.Covered K (.consent call now swept)) :
    Kept K (s.consentCall K call now swept).world (evs ++ (s.event K (.consent call now swept)).toList) := by
  simp only [Site.consentCall]
  cases hexec : call.exec s.consent with
  | error e => simpa [Site.event, hexec] using h
  | ok x =>
    cases hsub : revokedSubject call with
    | none => simpa [Site.event, hexec, hsub] using h
    | some subject =>
      have hevent : s.event K (.consent call now swept) = some (.revoked subject) := by
        simp [Site.event, hexec, hsub]
      obtain ⟨hkept, hconts, hshut⟩ := h.quarantineAll hK
        ((s.world.opened subject .priv).insertionSort (· ≤ ·)) now swept
      rw [hevent]
      refine ⟨hkept.registry, hkept.vacant, fun i row k st hrow hpriv hheld => ?_⟩
      by_cases hs : row.subject = subject
      · -- the container is in the registry or has nothing in the open
        have hrow₀ : s.world.db.containers.get i = some row := hconts ▸ hrow
        refine absurd hheld (hshut i ?_ k st)
        refine (hcov subject hevent i row hrow₀ hs hpriv).symm.imp_right fun ⟨c, hc⟩ => ⟨?_, c, hc⟩
        obtain ⟨rfl, -, row', hrow', hsubject, hlabel⟩ := h.registry i c hc
        obtain rfl : row = row' := Option.some.inj (hrow₀.symm.trans hrow')
        rw [(List.perm_insertionSort _ _).mem_iff, World.opened, Dict.mem_select]
        refine ⟨c, hc, ?_⟩
        rw [hsubject] at hs
        have hl : c.label = .priv := asStr_injective (hlabel ▸ hpriv)
        simp [hs, hl]
      · exact (hkept.since i row k st hrow hpriv hheld).event fun he => hs (Event.revoked.inj (Option.some.inj he)).symm

theorem Kept.step (hK : K.RoundTrips) {s : Site} {evs : List Event} (h : Kept K s.world evs) {op : SiteOp}
    (hop : s.Covered K op) : Kept K (s.step K op).world (evs ++ (s.event K op).toList) := by
  cases op with
  | consent call now swept => exact h.consentCall hK hop
  | «open» subject label asked freshId now =>
    show Kept K (s.world.openContainer subject label _ freshId now) (evs ++ [])
    rw [List.append_nil]
    exact h.open subject label _ hop now
  | on handle op asked =>
    simp only [Site.step, Site.event]
    cases hc : s.world.registry.get handle with
    | none => simpa using h
    | some c =>
      have hput : putEvent K ⟨s.world.grants, c⟩ (s.asked c op asked) = putEvent K ⟨s.world.grants, c⟩ op := by
        cases op <;> rfl
      have hon := h.on hK hc (s.asked c op asked)
      rw [hput] at hon
      exact hon
  | restart grants =>
    show Kept K (s.world.step K (.restart grants)) (evs ++ [])
    rw [List.append_nil]
    exact ⟨fun _ _ hget => (by cases hget), h.vacant, h.since⟩

theorem Kept.run (hK : K.RoundTrips) {s : Site} {evs : List Event} {ops : List SiteOp} (h : Kept K s.world evs)
    (hops : s.CoveredAll K ops) : Kept K (s.run K ops).world (evs ++ s.history K ops) := by
  induction ops generalizing s evs with
  | nil =>
    rw [Site.history, List.append_nil]
    exact h
  | cons op ops ih =>
    have hrest := ih (h.step hK hops.1) hops.2
    rw [List.append_assoc] at hrest
    exact hrest

/-! ## What is yielded -/

theorem held_swept {c : TypedContainer} {now : Nat} {k : String} {e : TypedEntry}
    (h : (c.swept now).entries.get k = some e) : c.held k = some (e.stored, e.poisoned) := by
  rw [TypedContainer.swept, get_removeAll] at h
  split_ifs at h
  rw [TypedContainer.held, h]
  rfl

/-- A hit has the content of an entry in the open. -/
theorem hitOf_open {c : TypedContainer} {query key : String} {hit : RecallEntry} (h : hitOf K c query key = some hit) :
    ∃ e v, c.entries.get key = some e ∧ e.poisoned = false ∧ contentOf K c.subject e.stored = .ok v ∧
      v.text = hit.text := by
  unfold hitOf at h
  cases he : c.entries.get key with
  | none => simp [he] at h
  | some e =>
    simp only [he, Option.bind_eq_bind, Option.bind_some] at h
    split_ifs at h with hp
    split at h
    · cases h
    · rename_i v hv
      split_ifs at h
      cases h
      exact ⟨e, v, rfl, by simpa using hp, hv, rfl⟩

/-- A text that is yielded is the content of an entry in the open. -/
theorem textsOf_open {c : TypedContainer} {op : Op} {text : String} (h : text ∈ textsOf K c op) :
    ∃ k st v, c.held k = some (st, false) ∧ contentOf K c.subject st = .ok v ∧ v.text = text := by
  unfold textsOf at h
  split at h
  · rename_i t key
    split at h
    · rename_i v hread
      obtain rfl := List.mem_singleton.1 h
      simp only [read, sweepExpired_eq] at hread
      cases he : (c.swept (t 0)).entries.get key with
      | none =>
        rw [he] at hread
        cases hread
      | some e =>
        rw [he] at hread
        simp only at hread
        split_ifs at hread with hp
        cases hv : contentOf K (c.swept (t 0)).subject e.stored with
        | error x =>
          rw [hv] at hread
          cases hread
        | ok v' =>
          rw [hv] at hread
          cases hread
          refine ⟨key, e.stored, v, ?_, ?_, rfl⟩
          · rw [held_swept he]
            simp [hp]
          · rw [← hv, TypedContainer.swept, (removeAll_identity _ _).2.1]
    · cases h
  · rename_i now swept query consented
    split at h
    · rename_i hits hrec
      obtain ⟨hit, hmem, rfl⟩ := List.mem_map.1 h
      simp only [«recall», sweepExpired_eq] at hrec
      split_ifs at hrec
      · cases hrec
        cases hmem
      · cases hrec
        obtain ⟨key, -, hhit⟩ := List.mem_filterMap.1 hmem
        obtain ⟨e, v, he, hp, hv, htext⟩ := hitOf_open hhit
        refine ⟨key, e.stored, v, ?_, ?_, htext⟩
        · rw [held_swept he, hp]
        · rw [← hv, TypedContainer.swept, (removeAll_identity _ _).2.1]
    · cases h
  · cases h

theorem Kept.yields {w : World} {evs : List Event} (h : Kept K w evs) {handle : String} {c : TypedContainer}
    (hc : w.registry.get handle = some c) (hp : c.label = .priv) {op : Op} {text : String}
    (ht : text ∈ textsOf K c op) :
    Since (· = Event.put c.subject text) (· = Event.revoked c.subject) evs := by
  obtain ⟨k, st, v, hheld, hv, rfl⟩ := textsOf_open ht
  obtain ⟨rfl, hholds, row, hrow, hsubject, hlabel⟩ := h.registry handle c hc
  have hsince := h.since c.id row k st hrow (hlabel.trans (congrArg MemLabel.asStr hp)) ((hholds k).trans hheld)
  rw [hsubject] at hsince
  exact hsince v hv

theorem export_priv {c : TypedContainer} (hp : c.label = .priv) (key : String) : ∃ e, exportEntry c key = .error e := by
  unfold exportEntry
  cases c.entries.get key with
  | none => exact ⟨_, rfl⟩
  | some e =>
    simp only [hp]
    split_ifs
    · exact ⟨_, rfl⟩
    · exact ⟨_, rfl⟩

/-- In every run whose revocations reach the subject's containers, over any number of processes, a private
container yields texts that were put after the last revocation of its subject, and exports nothing. -/
theorem revoked_stays_closed (K : Cipher) (hK : K.RoundTrips) (ops : List SiteOp) (hops : Site.CoveredAll K .start ops)
    (handle : String) (c : TypedContainer) (hc : (Site.run K .start ops).world.registry.get handle = some c)
    (hp : c.label = .priv) :
    (∀ op asked text, text ∈ textsOf K c ((Site.run K .start ops).asked c op asked) →
      Since (· = Event.put c.subject text) (· = Event.revoked c.subject) (Site.history K .start ops)) ∧
    ∀ key, ∃ e, exportEntry c key = .error e := by
  have hrun := (kept_start (K := K)).run (s := .start) hK hops
  exact ⟨fun _ _ _ ht => hrun.yields hc hp ht, export_priv hp⟩

/-! ### A revocation in the same process and one in the next -/

/-- A cipher that only encodes. -/
def Sample.utf8 : Cipher where
  encrypt _ text _ := .ok text.toUTF8
  decrypt _ blob := ((String.fromUTF8? blob).map .ok).getD (.error "corrupt")

theorem Sample.utf8_roundTrips : Sample.utf8.RoundTrips := by
  intro subject text nonce blob h
  obtain rfl : text.toUTF8 = blob := Except.ok.inj h
  have hutf : String.fromUTF8? text.toUTF8 = some text := dif_pos text.isValidUTF8
  simp only [Sample.utf8, hutf]
  rfl

def Sample.noon : Instant := ⟨10, by decide⟩

def Sample.consentS : SiteOp :=
  .consent (.grant Sample.noon [.string "v", .string "memory:s", .string "s"]) 10 fun _ => 10

def Sample.revokeS : SiteOp := .consent (.revoke Sample.noon [.string "v", .string "memory:s"]) 10 fun _ => 10

def Sample.openS (freshId : String) : SiteOp := .open "s" .priv Sample.noon freshId 10

def Sample.putS (key text : String) : SiteOp := .on "m" (.put (fun _ => 10) .empty key text [] {}) Sample.noon

def Sample.readS (key : String) : Op := .read (fun _ => 10) key

/-- A text before the revocation and one after it. -/
def Sample.renewed : List SiteOp :=
  [Sample.consentS, Sample.openS "m", Sample.putS "a" "old", Sample.revokeS, Sample.consentS, Sample.putS "b" "new"]

theorem revoked_stays_closed_renewed : ∃ c, (Site.run Sample.utf8 .start Sample.renewed).world.registry.get "m" = some c ∧
    "new" ∈ textsOf Sample.utf8 c (Sample.readS "b") ∧
    Since (· = Event.put c.subject "new") (· = Event.revoked c.subject)
      (Site.history Sample.utf8 .start Sample.renewed) := by
  have hgrant (s : Site) : s.event Sample.utf8 Sample.consentS = none := by
    simp only [Sample.consentS, Site.event]
    split <;> rfl
  have hkeys : (Site.run Sample.utf8 .start (Sample.renewed.take 3)).world.db.containers.keys = ["m"] := by
    decide +kernel
  have hopen : ((Site.run Sample.utf8 .start (Sample.renewed.take 3)).world.registry.get "m").isSome = true := by
    decide +kernel
  have hops : Site.CoveredAll Sample.utf8 .start Sample.renewed := by
    refine ⟨fun subject he => ?_, rfl, trivial, fun subject _ id row hrow _ _ => .inl ?_, fun subject he => ?_, trivial,
      trivial⟩
    · exact nomatch (hgrant _).symm.trans he
    · have hid : id ∈ (Site.run Sample.utf8 .start (Sample.renewed.take 3)).world.db.containers.keys :=
        (Dict.mem_keys _ _).2 ⟨row, hrow⟩
      rw [hkeys] at hid
      obtain rfl := List.mem_singleton.1 hid
      exact Option.isSome_iff_exists.1 hopen
    · exact nomatch (hgrant _).symm.trans he
  have hread : ((Site.run Sample.utf8 .start Sample.renewed).world.registry.get "m").map
      (fun c => (c.label, textsOf Sample.utf8 c (Sample.readS "b"))) = some (.priv, ["new"]) := by decide +kernel
  obtain ⟨c, hc, heq⟩ := Option.map_eq_some_iff.1 hread
  simp only [Prod.mk.injEq] at heq
  have htext : "new" ∈ textsOf Sample.utf8 c (Sample.readS "b") := by
    rw [heq.2]
    exact List.mem_singleton_self _
  exact ⟨c, hc, htext, (revoked_stays_closed Sample.utf8 Sample.utf8_roundTrips Sample.renewed hops "m" c hc heq.1).1
    (Sample.readS "b") Sample.noon "new" htext⟩

/-- The revocation comes in a new process, before the container is opened there. -/
def Sample.reopened : List SiteOp :=
  [Sample.consentS, Sample.openS "m", Sample.putS "a" "old", .restart .empty, Sample.revokeS, Sample.consentS,
    Sample.openS "n"]

theorem text_resurrected : ¬ ∀ (K : Cipher), K.RoundTrips → ∀ ops handle c,
    (Site.run K .start ops).world.registry.get handle = some c → c.label = .priv →
    ∀ op asked text, text ∈ textsOf K c ((Site.run K .start ops).asked c op asked) →
      Since (· = Event.put c.subject text) (· = Event.revoked c.subject) (Site.history K .start ops) := by
  intro h
  have hread : ((Site.run Sample.utf8 .start Sample.reopened).world.registry.get "m").map
      (fun c => (c.subject, c.label, textsOf Sample.utf8 c (Sample.readS "a"))) = some ("s", .priv, ["old"]) := by
    decide +kernel
  have hhistory : Site.history Sample.utf8 .start Sample.reopened = [.put "s" "old"] ++ [.revoked "s"] := by
    decide +kernel
  obtain ⟨c, hc, heq⟩ := Option.map_eq_some_iff.1 hread
  simp only [Prod.mk.injEq] at heq
  obtain ⟨hsubject, hlabel, htexts⟩ := heq
  have hsince := h Sample.utf8 Sample.utf8_roundTrips Sample.reopened "m" c hc hlabel (Sample.readS "a") Sample.noon "old"
    (htexts.symm ▸ List.mem_singleton_self "old")
  rw [hhistory, since_concat, hsubject] at hsince
  exact hsince.elim nofun fun hr => hr.2 rfl

end Metalogos.Memory
