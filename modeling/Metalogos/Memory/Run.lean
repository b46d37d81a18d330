import Metalogos.Memory.Links

/-!
# Typed memory: runs

`Op` is a call on a container with all it reads from outside; `step` runs it on the container and the
grant ledger. Every call amounts to a list of mutations, each with the statements it writes through:
`Performs` says which lists a call can perform, and `step_performs` that the call does one of them. The
invariants of the container are shown mutation by mutation.
-/
namespace Metalogos.Memory

open Metalogos.Lib Metalogos.Grants Relation

variable (K : Cipher)

/-! ## Calls -/

/-- `grants` is a call of a grant builtin; `keys` is also a sweep at any time. -/
inductive Op where
  | grants (call : Grants.Call)
  | put (t : Clock) (nonce : ByteArray) (key text : String) (derivedFrom : List String) (opts : PutOpts)
  | read (t : Clock) (key : String)
  | keys (t : Clock)
  | «recall» (now swept : Nat) (query : String) (consented : Bool)
  | retain (key : String)
  | release (key : String)
  | retainTtl (t : Clock) (key : String) (ttlSecs : Nat)
  | forgetFront (t : Clock) (key : String) (grant : GrantHandle) (dryRun consented : Bool)
  | forgetCascade (t : Clock) (key : String) (grant : GrantHandle)
  | consentRevoked (now swept : Nat)

structure Mem where
  grants : GrantLedger
  container : TypedContainer

/-- The state after a call and what it wrote through. -/
def Mem.exec (s : Mem) : Op → Mem × List Write
  | .grants call => ({ s with grants := Grants.step s.grants call }, [])
  | .put t nonce key text derivedFrom opts =>
    let a := put K s.container t nonce key text derivedFrom opts
    ({ s with container := a.container }, a.writes)
  | .read t key =>
    let a := read K s.container t key
    ({ s with container := a.container }, a.writes)
  | .keys t =>
    let a := keys s.container t
    ({ s with container := a.container }, a.writes)
  | .recall now swept query consented =>
    let a := «recall» K s.container now swept query consented
    ({ s with container := a.container }, a.writes)
  | .retain key =>
    let a := retain s.container key
    ({ s with container := a.container }, a.writes)
  | .release key =>
    let a := release s.container key
    ({ s with container := a.container }, a.writes)
  | .retainTtl t key ttlSecs =>
    let a := retainTtl s.container t key ttlSecs
    ({ s with container := a.container }, a.writes)
  | .forgetFront t key grant dryRun consented =>
    let a := forgetFront s.grants s.container t key grant dryRun consented
    (⟨a.grants, a.container⟩, a.writes)
  | .forgetCascade t key grant =>
    let a := forgetCascade s.grants s.container t key grant
    (⟨a.grants, a.container⟩, a.writes)
  | .consentRevoked now swept =>
    let a := consentRevoked s.container now swept
    ({ s with container := a.container }, a.writes)

def Mem.step (s : Mem) (op : Op) : Mem := (s.exec K op).1

def Mem.run (s : Mem) (ops : List Op) : Mem := ops.foldl (Mem.step K) s

/-- Before the first call. -/
def Mem.start (id subject : String) (label : MemLabel) (now : Nat) : Mem :=
  ⟨.empty, .fresh id subject label now⟩

/-! ## Mutations -/

/-- A change of attributes. -/
inductive AttrChange where
  | touch (now : Nat)
  | ttl (deadline : Nat)
  | poison
  | quarantine (now : Nat)

def AttrChange.apply : AttrChange → TypedEntry → TypedEntry
  | .touch now, e => e.touch now
  | .ttl deadline, e => { e with ttlUnix := some deadline }
  | .poison, e => e.poison
  | .quarantine now, e => (e.touch now).poison

inductive Mutation where
  | put (key : String) (entry : TypedEntry)
  | expire (keys : List String)
  | forget (keys : List String)
  | attrs (key : String) (a : AttrChange)
  | pin (keys : List String)
  | unpin (keys : List String)

def TypedContainer.mutate (c : TypedContainer) : Mutation → TypedContainer
  | .put key entry => c.insertEntry key entry
  | .expire ks => c.removeAll ks
  | .forget ks => c.removeAll ks
  | .attrs key a => c.modifyEntry key a.apply
  | .pin ks => { c with retained := c.retained ∪ ks.toFinset }
  | .unpin ks => { c with retained := c.retained \ ks.toFinset }

def Mutation.writes (c : TypedContainer) : Mutation → List Write
  | .put key entry => [.entryPut key entry]
  | .expire ks => if ks = [] then [] else [.delete ks]
  | .forget ks => [.delete ks]
  | .attrs key a => ((c.entries.get key).map fun e => .attrs key (a.apply e)).toList
  | .pin ks => ks.map (.pin · true)
  | .unpin ks => ks.map (.pin · false)

def TypedContainer.mutateAll (c : TypedContainer) (ms : List Mutation) : TypedContainer :=
  ms.foldl .mutate c

def writesAll (c : TypedContainer) : List Mutation → List Write
  | [] => []
  | m :: ms => m.writes c ++ writesAll (c.mutate m) ms

@[simp] theorem mutateAll_nil (c : TypedContainer) : c.mutateAll [] = c := rfl

@[simp] theorem mutateAll_cons (c : TypedContainer) (m : Mutation) (ms : List Mutation) :
    c.mutateAll (m :: ms) = (c.mutate m).mutateAll ms := rfl

theorem mutateAll_append (c : TypedContainer) (ms ms' : List Mutation) :
    c.mutateAll (ms ++ ms') = (c.mutateAll ms).mutateAll ms' := List.foldl_append

theorem writesAll_append (c : TypedContainer) (ms ms' : List Mutation) :
    writesAll c (ms ++ ms') = writesAll c ms ++ writesAll (c.mutateAll ms) ms' := by
  induction ms generalizing c with
  | nil => rfl
  | cons m ms ih => simp only [List.cons_append, writesAll, ih, mutateAll_cons, List.append_assoc]

/-! ## What a call performs -/

/-- When the call sweeps, if it comes so far. -/
def Mem.sweepOf (s : Mem) : Op → Option Nat
  | .read t _ => some (t 0)
  | .keys t => some (t 0)
  | .recall _ swept _ _ => some swept
  | .retainTtl t _ _ => some (t 0)
  | .forgetFront t key grant _ consented =>
    (frontGates s.grants s.container (t 0) key grant consented).toOption.map fun _ => t 1
  | .consentRevoked _ swept => some swept
  | _ => none

/-- The entries the sweep of a call leaves. -/
def TypedContainer.swept (c : TypedContainer) (now : Nat) : TypedContainer := c.removeAll (c.expiredKeys now)

/-- Touching entries and giving them a lifetime. -/
def AttrChange.Mild : AttrChange → Prop
  | .touch _ => True
  | .ttl _ => True
  | _ => False

/-- The change a call makes to the entries it reads or gives a lifetime. -/
def Op.Makes : Op → AttrChange → Prop
  | .read t _, a => a = .touch (t 1)
  | .recall now _ _ _, a => a = .touch now
  | .retainTtl t _ ttlSecs, a => a = .ttl (addU64 (t 1) ttlSecs)
  | _, _ => False

/-- Attribute changes one after the other. -/
def changes (as : List (String × AttrChange)) : List Mutation := as.map fun x => .attrs x.1 x.2

inductive Performs (s : Mem) : Op → List Mutation → Prop where
  | nothing {op : Op} (hop : s.sweepOf op = none) : Performs s op []
  | put {t : Clock} {nonce : ByteArray} {key text : String} {derivedFrom : List String} {opts : PutOpts}
    {entry : TypedEntry} (hok : putEntry K s.container t nonce key text derivedFrom opts = .ok entry) :
    Performs s (.put t nonce key text derivedFrom opts) [.put key entry]
  | attrs {op : Op} {now : Nat} {as : List (String × AttrChange)} (hop : s.sweepOf op = some now)
    (hmakes : ∀ x ∈ as, op.Makes x.2) :
    Performs s op (.expire (s.container.expiredKeys now) :: changes as)
  | pin {key : String} (hlive : Live s.container key) :
    Performs s (.retain key) [.pin (s.container.descendantClosure key)]
  | unpin {key : String} (hlive : Live s.container key) :
    Performs s (.release key) [.unpin (s.container.descendantClosure key)]
  | front {t : Clock} {key : String} {grant : GrantHandle} {consented : Bool} {now : Nat} {derived : List String}
    (hop : s.sweepOf (.forgetFront t key grant false consented) = some now)
    (hlive : Live (s.container.swept now) key)
    (hfree : ∀ x, Reaches (s.container.swept now) key x → x ∉ (s.container.swept now).retained)
    (hderived : ∀ x, x ∈ derived ↔ Reaches (s.container.swept now) key x ∧ x ≠ key) :
    Performs s (.forgetFront t key grant false consented)
      (.expire (s.container.expiredKeys now) :: (changes (derived.map (·, .poison)) ++ [.forget [key]]))
  | cascade {t : Clock} {key : String} {grant : GrantHandle} {closure : List String}
    (hlive : Live s.container key)
    (hfree : ∀ x, Reaches s.container key x → x ∉ s.container.retained)
    (hclosure : ∀ x, x ∈ closure ↔ Reaches s.container key x) :
    Performs s (.forgetCascade t key grant) [.forget closure]
  | quarantine {now swept : Nat} {as : List (String × AttrChange)}
    (hmakes : ∀ x ∈ as, x.2 = .quarantine now)
    (hall : ∀ x e, ((s.container.swept swept).mutateAll (changes as)).entries.get x = some e →
      e.poisoned = true) :
    Performs s (.consentRevoked now swept) (.expire (s.container.expiredKeys swept) :: changes as)

theorem Op.Makes.mild {op : Op} {a : AttrChange} (h : op.Makes a) : a.Mild := by
  cases op with
  | read t key =>
    obtain rfl : a = .touch (t 1) := h
    trivial
  | «recall» now swept query consented =>
    obtain rfl : a = .touch now := h
    trivial
  | retainTtl t key ttlSecs =>
    obtain rfl : a = .ttl (addU64 (t 1) ttlSecs) := h
    trivial
  | grants => cases h
  | put => cases h
  | keys => cases h
  | retain => cases h
  | release => cases h
  | forgetFront => cases h
  | forgetCascade => cases h
  | consentRevoked => cases h

/-- The call's effect is that of a list it can perform. -/
def Performed (s : Mem) (op : Op) (c : TypedContainer) (ws : List Write) : Prop :=
  ∃ ms, Performs K s op ms ∧ c = s.container.mutateAll ms ∧ ws = writesAll s.container ms

theorem sweepExpired_eq (c : TypedContainer) (now : Nat) :
    sweepExpired c now = (c.swept now, (Mutation.expire (c.expiredKeys now)).writes c) := by
  unfold sweepExpired
  simp only [TypedContainer.swept, Mutation.writes]
  split_ifs with h
  · simp [h, TypedContainer.removeAll]
  · rfl

/-- A sweep, then changes of attributes. -/
theorem performed_attrs {s : Mem} {op : Op} {now : Nat} (hop : s.sweepOf op = some now)
    (as : List (String × AttrChange)) (hmakes : ∀ x ∈ as, op.Makes x.2) :
    Performed K s op ((s.container.swept now).mutateAll (changes as))
      ((sweepExpired s.container now).2 ++ writesAll (s.container.swept now) (changes as)) := by
  refine ⟨_, .attrs hop hmakes, rfl, ?_⟩
  rw [sweepExpired_eq, writesAll]
  rfl

theorem performed_sweep {s : Mem} {op : Op} {now : Nat} (hop : s.sweepOf op = some now) :
    Performed K s op (s.container.swept now) (sweepExpired s.container now).2 := by
  have h := performed_attrs K hop [] (by simp)
  simpa [changes, writesAll] using h

theorem performed_change {s : Mem} {op : Op} {now : Nat} (hop : s.sweepOf op = some now) {key : String}
    {e : TypedEntry} (he : (s.container.swept now).entries.get key = some e) {a : AttrChange}
    (ha : op.Makes a) :
    Performed K s op ((s.container.swept now).modifyEntry key a.apply)
      ((sweepExpired s.container now).2 ++ [.attrs key (a.apply e)]) := by
  have h := performed_attrs K hop [(key, a)] (by simpa using ha)
  simpa [changes, writesAll, TypedContainer.mutate, Mutation.writes, he] using h

/-! ## Folds over entries -/

theorem mutateAll_changes_cons (c : TypedContainer) (k : String) (a : AttrChange)
    (as : List (String × AttrChange)) :
    c.mutateAll (changes ((k, a) :: as)) = (c.modifyEntry k a.apply).mutateAll (changes as) := rfl

theorem writesAll_changes_cons (c : TypedContainer) (k : String) (a : AttrChange)
    (as : List (String × AttrChange)) :
    writesAll c (changes ((k, a) :: as)) = ((c.entries.get k).map fun e => .attrs k (a.apply e)).toList ++
      writesAll (c.modifyEntry k a.apply) (changes as) := rfl

/-- A loop whose rounds leave the container or change one entry's attributes and write them through. -/
theorem fold_changes {P : AttrChange → Prop} {round : TypedContainer × List Write → String → TypedContainer × List Write}
    (hround : ∀ c ws k, round (c, ws) k = (c, ws) ∨ ∃ e a, P a ∧ c.entries.get k = some e ∧
      round (c, ws) k = (c.modifyEntry k a.apply, ws ++ [.attrs k (a.apply e)]))
    (ks : List String) (c : TypedContainer) (ws : List Write) :
    ∃ as, (∀ x ∈ as, P x.2) ∧ ks.foldl round (c, ws) =
      (c.mutateAll (changes as), ws ++ writesAll c (changes as)) := by
  induction ks generalizing c ws with
  | nil => exact ⟨[], by simp, by simp [changes, writesAll]⟩
  | cons k ks ih =>
    rw [List.foldl_cons]
    rcases hround c ws k with hskip | ⟨e, a, ha, he, hk⟩
    · rw [hskip]
      exact ih c ws
    · obtain ⟨as, has, hfold⟩ := ih (c.modifyEntry k a.apply) (ws ++ [.attrs k (a.apply e)])
      refine ⟨(k, a) :: as, ?_, ?_⟩
      · intro x hx
        rcases List.mem_cons.1 hx with rfl | hx
        · exact ha
        · exact has x hx
      · rw [hk, hfold, mutateAll_changes_cons, writesAll_changes_cons, he, List.append_assoc]
        rfl

theorem boost_round (now : Nat) (c : TypedContainer) (ws : List Write) (k : String) :
    boost now (c, ws) k = (c, ws) ∨ ∃ e a, a = AttrChange.touch now ∧ c.entries.get k = some e ∧
      boost now (c, ws) k = (c.modifyEntry k a.apply, ws ++ [.attrs k (a.apply e)]) := by
  unfold boost
  simp only
  cases he : c.entries.get k with
  | none => exact .inl rfl
  | some e =>
    simp only
    split_ifs
    · exact .inl rfl
    · exact .inr ⟨e, _, rfl, rfl, rfl⟩

theorem quarantine_round (now : Nat) (c : TypedContainer) (ws : List Write) (k : String) :
    quarantineEntry now (c, ws) k = (c, ws) ∨
    ∃ e a, a = AttrChange.quarantine now ∧ c.entries.get k = some e ∧
      quarantineEntry now (c, ws) k = (c.modifyEntry k a.apply, ws ++ [.attrs k (a.apply e)]) := by
  unfold quarantineEntry
  simp only
  cases he : c.entries.get k with
  | none => exact .inl rfl
  | some e =>
    simp only
    split_ifs
    · exact .inl rfl
    · exact .inr ⟨e, _, rfl, rfl, rfl⟩

theorem removeEntry_modifyEntry (c : TypedContainer) {k key : String} (hne : k ≠ key)
    (f : TypedEntry → TypedEntry) :
    (c.removeEntry key).modifyEntry k f = (c.modifyEntry k f).removeEntry key := by
  have hparents : (c.modifyEntry k f).parents key = c.parents key := by
    simp only [TypedContainer.parents, TypedContainer.modifyEntry, Dict.get_modify, if_neg hne.symm]
  simp only [TypedContainer.removeEntry, hparents]
  simp only [TypedContainer.modifyEntry, Dict.modify_erase]

/-- The quarantine of a forget commutes with the removal of its root. -/
theorem poison_fold {key : String} (ks : List String) (hks : key ∉ ks) (c : TypedContainer)
    (ws : List Write) : ks.foldl poisonEntry (c.removeEntry key, ws) =
      ((c.mutateAll (changes (ks.map (·, .poison)))).removeEntry key,
        ws ++ writesAll c (changes (ks.map (·, .poison)))) := by
  induction ks generalizing c ws with
  | nil => simp [changes, writesAll]
  | cons k ks ih =>
    have hne : k ≠ key := fun h => hks (by simp [h])
    have hrest : key ∉ ks := fun h => hks (by simp [h])
    have hget : (c.removeEntry key).entries.get k = c.entries.get k := by
      rw [get_removeEntry, if_neg hne]
    rw [List.foldl_cons, List.map_cons, mutateAll_changes_cons, writesAll_changes_cons]
    cases he : c.entries.get k with
    | none =>
      have hskip : poisonEntry (c.removeEntry key, ws) k = (c.removeEntry key, ws) := by
        unfold poisonEntry
        simp only [hget, he]
      have hmut : c.modifyEntry k AttrChange.poison.apply = c := by
        simp only [TypedContainer.modifyEntry, Dict.modify_of_get_none _ he]
      rw [hskip, ih hrest, hmut]
      rfl
    | some e =>
      have hmark : poisonEntry (c.removeEntry key, ws) k =
          ((c.modifyEntry k AttrChange.poison.apply).removeEntry key,
            ws ++ [.attrs k (AttrChange.poison.apply e)]) := by
        unfold poisonEntry
        simp only [hget, he, removeEntry_modifyEntry c hne]
        rfl
      rw [hmark, ih hrest, List.append_assoc]
      rfl

theorem get_modifyEntry (c : TypedContainer) (k x : String) (f : TypedEntry → TypedEntry) :
    (c.modifyEntry k f).entries.get x = if x = k then (c.entries.get x).map f else c.entries.get x :=
  c.entries.get_modify k x f

theorem quarantine_all (now : Nat) (ks : List String) (c : TypedContainer) (ws : List Write)
    (h : ∀ x e, c.entries.get x = some e → x ∈ ks ∨ e.poisoned = true) :
    ∀ x e, (ks.foldl (quarantineEntry now) (c, ws)).1.entries.get x = some e → e.poisoned = true := by
  induction ks generalizing c ws with
  | nil =>
    intro x e he
    simpa using h x e he
  | cons k ks ih =>
    have hround : ∃ c' ws', quarantineEntry now (c, ws) k = (c', ws') ∧
        ∀ x e, c'.entries.get x = some e → x ∈ ks ∨ e.poisoned = true := by
      unfold quarantineEntry
      simp only
      cases he : c.entries.get k with
      | none =>
        refine ⟨c, ws, rfl, fun x e hx => ?_⟩
        rcases h x e hx with hmem | hp
        · rcases List.mem_cons.1 hmem with rfl | hmem
          · rw [he] at hx
            cases hx
          · exact .inl hmem
        · exact .inr hp
      | some e₀ =>
        simp only
        split_ifs with hp₀
        · refine ⟨c, ws, rfl, fun x e hx => ?_⟩
          rcases h x e hx with hmem | hp
          · rcases List.mem_cons.1 hmem with rfl | hmem
            · obtain rfl : e₀ = e := Option.some.inj (he.symm.trans hx)
              exact .inr hp₀
            · exact .inl hmem
          · exact .inr hp
        · refine ⟨_, _, rfl, fun x e hx => ?_⟩
          rw [get_modifyEntry] at hx
          split_ifs at hx with hxk
          · rw [hxk, he] at hx
            cases hx
            exact .inr rfl
          · rcases h x e hx with hmem | hp
            · exact .inl ((List.mem_cons.1 hmem).resolve_left hxk)
            · exact .inr hp
    obtain ⟨c', ws', heq, hinv⟩ := hround
    rw [List.foldl_cons, heq]
    exact ih c' ws' hinv

/-! ## Every call -/

theorem performed_put (s : Mem) (t : Clock) (nonce : ByteArray) (key text : String)
    (derivedFrom : List String) (opts : PutOpts) :
    Performed K s (.put t nonce key text derivedFrom opts)
      (put K s.container t nonce key text derivedFrom opts).container
      (put K s.container t nonce key text derivedFrom opts).writes := by
  unfold put
  cases h : putEntry K s.container t nonce key text derivedFrom opts with
  | error e => exact ⟨[], .nothing rfl, rfl, rfl⟩
  | ok entry => exact ⟨_, .put h, rfl, rfl⟩

theorem performed_read (s : Mem) (t : Clock) (key : String) :
    Performed K s (.read t key) (read K s.container t key).container (read K s.container t key).writes := by
  have hop : s.sweepOf (.read t key) = some (t 0) := rfl
  have hsweep := performed_sweep K hop
  have hchange {e : TypedEntry} (he : (s.container.swept (t 0)).entries.get key = some e) :=
    performed_change K hop he (a := .touch (t 1)) rfl
  simp only [sweepExpired_eq] at hsweep hchange
  simp only [read, sweepExpired_eq]
  cases he : (s.container.swept (t 0)).entries.get key with
  | none => exact hsweep
  | some e =>
    simp only
    split_ifs
    · exact hsweep
    · split
      · exact hsweep
      · exact hchange he

theorem performed_keys (s : Mem) (t : Clock) :
    Performed K s (.keys t) (keys s.container t).container (keys s.container t).writes := by
  have hop : s.sweepOf (.keys t) = some (t 0) := rfl
  have hsweep := performed_sweep K hop
  simp only [sweepExpired_eq] at hsweep
  simp only [keys, sweepExpired_eq]
  exact hsweep

theorem performed_recall (s : Mem) (now swept : Nat) (query : String) (consented : Bool) :
    Performed K s (.recall now swept query consented)
      («recall» K s.container now swept query consented).container
      («recall» K s.container now swept query consented).writes := by
  have hop : s.sweepOf (.recall now swept query consented) = some swept := rfl
  have hsweep := performed_sweep K hop
  have hattrs := performed_attrs K hop
  simp only [sweepExpired_eq] at hsweep hattrs
  simp only [«recall», sweepExpired_eq]
  split_ifs
  · exact hsweep
  · have hfold (hits : List RecallEntry) (x : TypedContainer × List Write) :
        hits.foldl (fun x h => boost now x h.key) x = (hits.map (·.key)).foldl (boost now) x := by
      rw [List.foldl_map]
    simp only [hfold]
    obtain ⟨as, has, heq⟩ := fold_changes (boost_round now)
      (((s.container.swept swept).entries.keys.filterMap (hitOf K (s.container.swept swept) query)).map
        (·.key)) (s.container.swept swept) _
    rw [heq]
    exact hattrs as has

theorem performed_retain (s : Mem) (key : String) :
    Performed K s (.retain key) (retain s.container key).container (retain s.container key).writes := by
  unfold retain
  cases hk : s.container.entries.has key with
  | false => exact ⟨[], .nothing rfl, rfl, rfl⟩
  | true =>
    simp only [Bool.not_true, Bool.false_eq_true, if_false]
    split_ifs with hnew
    · exact ⟨_, .pin hk, rfl, by simp [writesAll, Mutation.writes]⟩
    · -- nothing new to pin
      refine ⟨[], .nothing rfl, ?_, rfl⟩
      have hsub : (s.container.descendantClosure key).toFinset ⊆ s.container.retained := by
        intro x hx
        by_contra hn
        exact hnew (List.any_eq_true.2 ⟨x, List.mem_toFinset.1 hx, by simpa using hn⟩)
      rw [Finset.union_eq_left.2 hsub]
      rfl

theorem performed_release (s : Mem) (key : String) :
    Performed K s (.release key) (release s.container key).container (release s.container key).writes := by
  unfold release
  cases hk : s.container.entries.has key with
  | false => exact ⟨[], .nothing rfl, rfl, rfl⟩
  | true =>
    simp only [Bool.not_true, Bool.false_eq_true, if_false]
    split_ifs with hold
    · exact ⟨_, .unpin hk, rfl, by simp [writesAll, Mutation.writes]⟩
    · -- nothing to unpin
      refine ⟨[], .nothing rfl, ?_, rfl⟩
      have hdis : s.container.retained \ (s.container.descendantClosure key).toFinset =
          s.container.retained := by
        refine Finset.sdiff_eq_self_iff_disjoint.2 (Finset.disjoint_left.2 fun x hx hc => ?_)
        exact hold (List.any_eq_true.2 ⟨x, List.mem_toFinset.1 hc, by simpa using hx⟩)
      rw [hdis]
      rfl

theorem performed_retainTtl (s : Mem) (t : Clock) (key : String) (ttlSecs : Nat) :
    Performed K s (.retainTtl t key ttlSecs) (retainTtl s.container t key ttlSecs).container
      (retainTtl s.container t key ttlSecs).writes := by
  have hop : s.sweepOf (.retainTtl t key ttlSecs) = some (t 0) := rfl
  have hsweep := performed_sweep K hop
  have hchange {e : TypedEntry} (he : (s.container.swept (t 0)).entries.get key = some e) :=
    performed_change K hop he (a := .ttl (addU64 (t 1) ttlSecs)) rfl
  simp only [sweepExpired_eq] at hsweep hchange
  simp only [retainTtl, sweepExpired_eq]
  cases he : (s.container.swept (t 0)).entries.get key with
  | none => exact hsweep
  | some e =>
    simp only
    split_ifs
    · exact hsweep
    · exact hchange he

theorem performed_consentRevoked (s : Mem) (now swept : Nat) :
    Performed K s (.consentRevoked now swept) (consentRevoked s.container now swept).container
      (consentRevoked s.container now swept).writes := by
  simp only [consentRevoked, sweepExpired_eq]
  have hall := quarantine_all now (s.container.swept swept).entries.keys (s.container.swept swept)
    ((Mutation.expire (s.container.expiredKeys swept)).writes s.container) (fun x e he =>
      .inl ((Dict.mem_keys _ _).2 ⟨e, he⟩))
  obtain ⟨as, has, heq⟩ := fold_changes (quarantine_round now) (s.container.swept swept).entries.keys
    (s.container.swept swept) ((Mutation.expire (s.container.expiredKeys swept)).writes s.container)
  rw [heq] at hall ⊢
  exact ⟨_, .quarantine has hall, rfl, rfl⟩

section

variable {α : Type} (l : GrantLedger) (t : Clock) (grant : GrantHandle) (a : Act α)

/-- Whether the use is recorded or refused, the container is as the action left it. -/
theorem charge_container : (charge l t grant a).container = a.container := by
  unfold charge
  split
  · rfl
  · split <;> rfl

theorem charge_writes : (charge l t grant a).writes = a.writes := by
  unfold charge
  split
  · rfl
  · split <;> rfl

theorem charge_ok {out : α} (h : (charge l t grant a).res = .ok out) : a.res = .ok out := by
  unfold charge at h
  split at h
  · cases h
  · rename_i out' ha
    split at h
    · cases h
    · cases h
      exact ha

end

/-- No pin stands in a closure that is not blocked. -/
theorem free_of_not_blocked {c : TypedContainer} {key : String}
    (h : (planCascade key c.children c.retained).blockedBy = []) {x : String} (hx : Reaches c key x) :
    x ∉ c.retained := by
  intro hr
  have hmem := (mem_blockedBy key c.children c.retained).2 ⟨mem_plan.2 hx, hr⟩
  rw [h] at hmem
  cases hmem

/-- What the section of `forget_cascade` does. -/
theorem cascadeSection_cases (c : TypedContainer) (key : String) :
    (∃ e, cascadeSection c key = ⟨.error e, c, []⟩) ∨
    (Live c key ∧ (∀ x, Reaches c key x → x ∉ c.retained) ∧
      ∃ closure, (∀ x, x ∈ closure ↔ Reaches c key x) ∧
        cascadeSection c key = ⟨.ok closure, c.removeAll closure, [.delete closure]⟩) := by
  unfold cascadeSection
  cases hk : c.entries.has key with
  | false => exact .inl ⟨_, rfl⟩
  | true =>
    simp only [Bool.not_true, Bool.false_eq_true, if_false]
    split_ifs with hb
    · exact .inl ⟨_, rfl⟩
    · have hfree : (planCascade key c.children c.retained).blockedBy = [] := not_not.1 hb
      refine .inr ⟨hk, fun x => free_of_not_blocked hfree,
        (planCascade key c.children c.retained).closure, fun x => mem_plan, ?_⟩
      rw [removeClosure_eq (nodup_closure _ _ _)]

theorem performed_forgetCascade (s : Mem) (t : Clock) (key : String) (grant : GrantHandle) :
    Performed K s (.forgetCascade t key grant) (forgetCascade s.grants s.container t key grant).container
      (forgetCascade s.grants s.container t key grant).writes := by
  unfold forgetCascade
  cases forgetGates s.grants s.container.id (t 0) grant with
  | error e => exact ⟨[], .nothing rfl, rfl, rfl⟩
  | ok _ =>
    simp only [charge_container, charge_writes]
    rcases cascadeSection_cases s.container key with ⟨e, hs⟩ | ⟨hlive, hfree, closure, hclosure, hs⟩
    · rw [hs]
      exact ⟨[], .nothing rfl, rfl, rfl⟩
    · rw [hs]
      exact ⟨_, .cascade hlive hfree hclosure, rfl, rfl⟩

/-- What the section of `forget_front` does. -/
theorem frontSection_cases (c : TypedContainer) (now : Nat) (key : String) (dryRun : Bool) :
    ((frontSection c now key dryRun).container = c.swept now ∧
      (frontSection c now key dryRun).writes = (sweepExpired c now).2 ∧
      (dryRun = false → ∃ e, (frontSection c now key dryRun).res = .error e)) ∨
    (dryRun = false ∧ Live (c.swept now) key ∧
      (∀ x, Reaches (c.swept now) key x → x ∉ (c.swept now).retained) ∧
      ∃ derived : List String, (∀ x, x ∈ derived ↔ Reaches (c.swept now) key x ∧ x ≠ key) ∧
        (frontSection c now key dryRun).container =
          ((c.swept now).mutateAll (changes (derived.map (·, .poison)))).removeEntry key ∧
        (frontSection c now key dryRun).writes = (sweepExpired c now).2 ++
          (writesAll (c.swept now) (changes (derived.map (·, .poison))) ++ [.delete [key]])) := by
  simp only [frontSection, sweepExpired_eq]
  cases hk : (c.swept now).entries.has key with
  | false => exact .inl ⟨rfl, rfl, fun _ => ⟨_, rfl⟩⟩
  | true =>
    simp only [Bool.not_true, Bool.false_eq_true, if_false]
    split_ifs with hb hdry
    · exact .inl ⟨rfl, rfl, fun _ => ⟨_, rfl⟩⟩
    · exact .inl ⟨rfl, rfl, fun h => by simp [hdry] at h⟩
    · have hfree : (planCascade key (c.swept now).children (c.swept now).retained).blockedBy = [] :=
        not_not.1 hb
      refine .inr ⟨by simpa using hdry, hk, fun x => free_of_not_blocked hfree,
        (planCascade key (c.swept now).children (c.swept now).retained).closure.filter (· ≠ key),
        fun x => ?_, ?_, ?_⟩
      · simp [mem_plan]
      · simp only [frontApply]
        rw [poison_fold _ (by simp)]
      · simp only [frontApply]
        rw [poison_fold _ (by simp), List.nil_append]

theorem performed_forgetFront (s : Mem) (t : Clock) (key : String) (grant : GrantHandle)
    (dryRun consented : Bool) :
    Performed K s (.forgetFront t key grant dryRun consented)
      (forgetFront s.grants s.container t key grant dryRun consented).container
      (forgetFront s.grants s.container t key grant dryRun consented).writes := by
  cases hg : frontGates s.grants s.container (t 0) key grant consented with
  | error e =>
    have hop : s.sweepOf (.forgetFront t key grant dryRun consented) = none := by
      simp [Mem.sweepOf, hg, Except.toOption]
    simp only [forgetFront, hg]
    exact ⟨[], .nothing hop, rfl, rfl⟩
  | ok u =>
    have hop (dry : Bool) : s.sweepOf (.forgetFront t key grant dry consented) = some (t 1) := by
      simp [Mem.sweepOf, hg, Except.toOption]
    have hact : (forgetFront s.grants s.container t key grant dryRun consented).container =
          (frontSection s.container (t 1) key dryRun).container ∧
        (forgetFront s.grants s.container t key grant dryRun consented).writes =
          (frontSection s.container (t 1) key dryRun).writes := by
      simp only [forgetFront, hg]
      split_ifs
      · exact ⟨rfl, rfl⟩
      · exact ⟨charge_container _ _ _ _, charge_writes _ _ _ _⟩
    rw [hact.1, hact.2]
    rcases frontSection_cases s.container (t 1) key dryRun with ⟨hc, hw, -⟩ |
      ⟨rfl, hlive, hfree, derived, hder, hc, hw⟩
    · rw [hc, hw]
      exact performed_sweep K (hop dryRun)
    · refine ⟨_, .front (hop false) hlive hfree hder, ?_, ?_⟩
      · rw [hc, mutateAll_cons, mutateAll_append]
        rfl
      · rw [hw, sweepExpired_eq, writesAll, writesAll_append]
        rfl

theorem step_performs (s : Mem) (op : Op) :
    Performed K s op (s.step K op).container (s.exec K op).2 := by
  cases op with
  | grants call => exact ⟨[], .nothing rfl, rfl, rfl⟩
  | put t nonce key text derivedFrom opts => exact performed_put K s t nonce key text derivedFrom opts
  | read t key => exact performed_read K s t key
  | keys t => exact performed_keys K s t
  | «recall» now swept query consented => exact performed_recall K s now swept query consented
  | retain key => exact performed_retain K s key
  | release key => exact performed_release K s key
  | retainTtl t key ttlSecs => exact performed_retainTtl K s t key ttlSecs
  | forgetFront t key grant dryRun consented => exact performed_forgetFront K s t key grant dryRun consented
  | forgetCascade t key grant => exact performed_forgetCascade K s t key grant
  | consentRevoked now swept => exact performed_consentRevoked K s now swept

/-! ## What a put writes -/

/-- The checks a put passed and the entry it made. -/
structure Puts (c : TypedContainer) (t : Clock) (derivedFrom : List String) (opts : PutOpts)
    (entry : TypedEntry) : Prop where
  parents : ∀ p ∈ derivedFrom, Live c p
  derivedFrom : entry.derivedFrom = derivedFrom
  clean : entry.poisoned = false
  created : entry.createdUnix = t 1
  touched : entry.lastAccessUnix = t 1
  ttl : ttlOf (t 0) opts.ttlSecs = .ok entry.ttlUnix

variable {K}

theorem putEntry_cases {c : TypedContainer} {t : Clock} {nonce : ByteArray} {key text : String}
    {derivedFrom : List String} {opts : PutOpts} {entry : TypedEntry}
    (h : putEntry K c t nonce key text derivedFrom opts = .ok entry) :
    (∀ p ∈ derivedFrom, Live c p) ∧ ∃ ttl stored, ttlOf (t 0) opts.ttlSecs = .ok ttl ∧
      storedOf K c text nonce = .ok stored ∧
      entry = { TypedEntry.new stored derivedFrom (t 1) with
        priority := opts.priority.getD ⟨some 1, "1"⟩
        decayRate := opts.decayRate.getD ⟨some (1 / 100), "0.01"⟩
        ttlUnix := ttl } := by
  unfold putEntry at h
  split_ifs at h
  cases hp : derivedFrom.find? fun p => !c.entries.has p with
  | some parent =>
    rw [hp] at h
    cases h
  | none =>
    rw [hp] at h
    simp only at h
    split_ifs at h
    obtain ⟨ttl, httl, h⟩ := bind_ok.1 h
    obtain ⟨stored, hstored, h⟩ := bind_ok.1 h
    refine ⟨fun p hmem => ?_, ttl, stored, httl, hstored, (Except.ok.inj h).symm⟩
    simpa [Live] using List.find?_eq_none.1 hp p hmem

theorem putEntry_ok {c : TypedContainer} {t : Clock} {nonce : ByteArray} {key text : String}
    {derivedFrom : List String} {opts : PutOpts} {entry : TypedEntry}
    (h : putEntry K c t nonce key text derivedFrom opts = .ok entry) : Puts c t derivedFrom opts entry := by
  obtain ⟨hlive, ttl, stored, httl, -, rfl⟩ := putEntry_cases h
  exact ⟨hlive, rfl, rfl, rfl, rfl, httl⟩

/-! ## The graph under changes of attributes -/

/-- The same entries with the same parents, the same index and the same pins. -/
structure SameGraph (c c' : TypedContainer) : Prop where
  parents : ∀ x, c'.parents x = c.parents x
  live : ∀ x, Live c' x ↔ Live c x
  children : c'.children = c.children
  retained : c'.retained = c.retained

theorem SameGraph.trans {c c' c'' : TypedContainer} (h : SameGraph c c') (h' : SameGraph c' c'') :
    SameGraph c c'' where
  parents x := (h'.parents x).trans (h.parents x)
  live x := (h'.live x).trans (h.live x)
  children := h'.children.trans h.children
  retained := h'.retained.trans h.retained

theorem SameGraph.linked {c c' : TypedContainer} (h : SameGraph c c') (hl : Linked c) : Linked c' where
  names {p x} hc := by
    rw [Child, TypedContainer.kids, h.children] at hc
    rw [Names, h.parents]
    exact hl.names hc
  live {p x} hc := by
    rw [Child, TypedContainer.kids, h.children] at hc
    exact (h.live p).2 (hl.live hc)
  pinned {x} hx := by
    rw [h.retained] at hx
    exact (h.live x).2 (hl.pinned hx)

theorem sameGraph_modifyEntry (c : TypedContainer) (key : String) (a : AttrChange) :
    SameGraph c (c.modifyEntry key a.apply) where
  parents x := by
    simp only [TypedContainer.parents, get_modifyEntry]
    split_ifs
    · cases c.entries.get x with
      | none => rfl
      | some e => cases a <;> rfl
    · rfl
  live x := by
    rw [live_iff, live_iff, get_modifyEntry]
    split_ifs
    · cases c.entries.get x <;> simp
    · rfl
  children := rfl
  retained := rfl

theorem sameGraph_changes (c : TypedContainer) (as : List (String × AttrChange)) :
    SameGraph c (c.mutateAll (changes as)) := by
  induction as generalizing c with
  | nil => exact ⟨fun _ => rfl, fun _ => Iff.rfl, rfl, rfl⟩
  | cons x as ih => exact (sameGraph_modifyEntry c x.1 x.2).trans (ih _)

theorem Linked.performs {s : Mem} {op : Op} {ms : List Mutation} (h : Linked s.container)
    (hp : Performs K s op ms) : Linked (s.container.mutateAll ms) := by
  have hswept (now : Nat) : Linked (s.container.swept now) := h.removeAll
  cases hp with
  | nothing => exact h
  | put hok =>
    have hput := putEntry_ok hok
    refine h.insertEntry fun p hmem => hput.parents p ?_
    rwa [hput.derivedFrom] at hmem
  | attrs => exact (sameGraph_changes _ _).linked (hswept _)
  | pin hlive =>
    refine ⟨h.names, h.live, fun {x} hx => ?_⟩
    rcases Finset.mem_union.1 hx with hx | hx
    · exact h.pinned hx
    · exact h.reaches_live hlive (mem_plan.1 (List.mem_toFinset.1 hx))
  | unpin hlive => exact ⟨h.names, h.live, fun {x} hx => h.pinned (Finset.mem_sdiff.1 hx).1⟩
  | front =>
    rw [mutateAll_cons, mutateAll_append]
    exact Linked.removeAll ((sameGraph_changes _ _).linked (hswept _))
  | cascade => exact h.removeAll
  | quarantine => exact (sameGraph_changes _ _).linked (hswept _)

/-- Every call of a run meets `ok` in the state it starts from. -/
def Along (K : Cipher) (ok : Mem → Op → Prop) : Mem → List Op → Prop
  | _, [] => True
  | s, op :: ops => ok s op ∧ Along K ok (s.step K op) ops

theorem along_of_forall {ok : Mem → Op → Prop} {ops : List Op} (h : ∀ op ∈ ops, ∀ s, ok s op) (s : Mem) :
    Along K ok s ops := by
  induction ops generalizing s with
  | nil => trivial
  | cons op ops ih => exact ⟨h op (by simp) s, ih (fun op' hop' => h op' (by simp [hop'])) _⟩

/-- What every call that meets `ok` keeps holds after every run whose calls do. -/
theorem Mem.run_invariant {P : Mem → Prop} {ok : Mem → Op → Prop} {s : Mem} (h0 : P s)
    (hstep : ∀ s op ms, P s → ok s op → Performs K s op ms →
      (s.step K op).container = s.container.mutateAll ms → P (s.step K op))
    (ops : List Op) (hok : Along K ok s ops) : P (s.run K ops) := by
  induction ops generalizing s with
  | nil => exact h0
  | cons op ops ih =>
    obtain ⟨ms, hp, hc, -⟩ := step_performs K s op
    exact ih (hstep s op ms h0 hok.1 hp hc) hok.2

end Metalogos.Memory
