import Metalogos.Grants.Quota
import Metalogos.Memory.Cascade
import Metalogos.Memory.Store

/-!
# Typed memory: the store mirrors the registry

`Mirrors db c` says that the rows of a container are those of its entries, and `Same` that two containers
hold the same. What is loaded from rows that mirror a container is the same container, and every mutation
keeps the mirror while three things do not happen:

* an overwrite of a pinned entry: the row is written with the pin column at 0, the pin stays in memory
  (`pin_lost`);
* an entry goes while one that stays names it: deleting it deletes the edges to it, and the entry that
  stays goes on naming it in memory;
* a time of `2^63` seconds or more: the column is signed, and a negative time is read back as 0.

`Persists` excludes the three.
-/
namespace Metalogos.Memory

open Metalogos.Lib Metalogos.Grants Relation

variable {K : Cipher}

/-! ## What a statement does to the rows -/

section

variable (db : Db) (id i k x p : String)

theorem mem_insertEdges (es : List Edge) (e : Edge) (edges : List Edge) :
    e ∈ es.foldl insertEdge edges ↔ e ∈ edges ∨ e ∈ es := by
  induction es generalizing edges with
  | nil => simp
  | cons a es ih =>
    have hone : e ∈ insertEdge edges a ↔ e ∈ edges ∨ e = a := by
      unfold insertEdge
      split_ifs with ha
      · constructor
        · exact .inl
        · rintro (he | rfl)
          · exact he
          · exact ha
      · simp
    rw [List.foldl_cons, ih, hone, List.mem_cons, or_assoc]

theorem mem_edges_entryPut (key : String) (entry : TypedEntry) :
    ⟨i, x, p⟩ ∈ (db.entryPut id key entry).edges ↔
      if i = id ∧ x = key then p ∈ entry.derivedFrom else ⟨i, x, p⟩ ∈ db.edges := by
  simp only [Db.entryPut, mem_insertEdges, List.mem_filter, List.mem_map, decide_eq_true_eq, Edge.mk.injEq]
  by_cases hk : i = id ∧ x = key
  · obtain ⟨rfl, rfl⟩ := hk
    simp
  · rw [if_neg hk]
    constructor
    · rintro (⟨he, -⟩ | ⟨q, -, rfl, rfl, -⟩)
      · exact he
      · exact absurd ⟨rfl, rfl⟩ hk
    · exact fun he => .inl ⟨he, hk⟩

variable (ks : List String)

theorem containers_deleteAll : (ks.foldl (Db.deleteKey id) db).containers = db.containers := by
  induction ks generalizing db with
  | nil => rfl
  | cons k ks ih => exact ih (db.deleteKey id k)

theorem entries_deleteAll : (ks.foldl (Db.deleteKey id) db).entries.get (i, k) =
    if i = id ∧ k ∈ ks then none else db.entries.get (i, k) := by
  induction ks generalizing db with
  | nil => simp
  | cons a ks ih =>
    rw [List.foldl_cons, ih]
    simp only [Db.deleteKey, Dict.get_erase, Prod.mk.injEq, List.mem_cons]
    by_cases hi : i = id <;> by_cases ha : k = a <;> by_cases hk : k ∈ ks <;> simp [hi, ha, hk]

theorem attrs_deleteAll : (ks.foldl (Db.deleteKey id) db).attrs.get (i, k) =
    if i = id ∧ k ∈ ks then none else db.attrs.get (i, k) := by
  induction ks generalizing db with
  | nil => simp
  | cons a ks ih =>
    rw [List.foldl_cons, ih]
    simp only [Db.deleteKey, Dict.get_erase, Prod.mk.injEq, List.mem_cons]
    by_cases hi : i = id <;> by_cases ha : k = a <;> by_cases hk : k ∈ ks <;> simp [hi, ha, hk]

theorem edges_deleteAll : ⟨i, x, p⟩ ∈ (ks.foldl (Db.deleteKey id) db).edges ↔
    ⟨i, x, p⟩ ∈ db.edges ∧ ¬ (i = id ∧ (x ∈ ks ∨ p ∈ ks)) := by
  induction ks generalizing db with
  | nil => simp
  | cons a ks ih =>
    rw [List.foldl_cons, ih]
    simp only [Db.deleteKey, List.mem_filter, List.mem_cons, decide_eq_true_eq]
    tauto

/-- The pins of a list of keys, written one by one. -/
theorem applyAll_pins (retained : Bool) (db : Db) :
    (db.applyAll id (ks.map (.pin · retained))).containers = db.containers ∧
    (db.applyAll id (ks.map (.pin · retained))).attrs = db.attrs ∧
    (db.applyAll id (ks.map (.pin · retained))).edges = db.edges ∧
    (db.applyAll id (ks.map (.pin · retained))).entries.get (i, k) =
      if i = id ∧ k ∈ ks then
        (db.entries.get (i, k)).map fun r => { r with retained := if retained then 1 else 0 }
      else db.entries.get (i, k) := by
  induction ks generalizing db with
  | nil => simp [Db.applyAll]
  | cons a ks ih =>
    obtain ⟨hc, ha, he, hr⟩ := ih (db.pin id a retained)
    refine ⟨hc, ha, he, ?_⟩
    have hcons : db.applyAll id ((a :: ks).map (.pin · retained)) =
        (db.pin id a retained).applyAll id (ks.map (.pin · retained)) := rfl
    rw [hcons, hr]
    simp only [Db.pin, Dict.get_modify, Prod.mk.injEq, List.mem_cons]
    by_cases hi : i = id <;> by_cases hka : k = a <;> by_cases hk : k ∈ ks <;>
      simp [hi, hka, hk, Option.map_map, Function.comp_def]

end

/-! ## Rows that mirror a container -/

/-- The pin column of a key. -/
def TypedContainer.pinColumn (c : TypedContainer) (k : String) : Int := if k ∈ c.retained then 1 else 0

/-- A time that a signed column holds. -/
def InColumn (t : Nat) : Prop := t < 2 ^ 63

instance (t : Nat) : Decidable (InColumn t) := inferInstanceAs (Decidable (t < 2 ^ 63))

structure TypedEntry.Fits (e : TypedEntry) : Prop where
  created : InColumn e.createdUnix
  access : InColumn e.lastAccessUnix
  ttl : ∀ t, e.ttlUnix = some t → InColumn t

/-- The container's rows, with the times in range and the index the inverse of the edges. -/
structure Mirrors (db : Db) (c : TypedContainer) : Prop where
  container : db.containers.get c.id = some ⟨c.subject, c.label.asStr, toI64 c.createdUnix⟩
  entries : ∀ k, db.entries.get (c.id, k) = (c.entries.get k).map (·.row (c.pinColumn k))
  attrs : ∀ k, db.attrs.get (c.id, k) = (c.entries.get k).map (·.attrRow)
  edges : ∀ x p, ⟨c.id, x, p⟩ ∈ db.edges ↔ Names c x p
  provenance : Provenance c
  created : InColumn c.createdUnix
  fits : ∀ k e, c.entries.get k = some e → e.Fits

/-! ## Mutations keep the mirror -/

/-- Entries that go together with what names them. -/
def Closed (c : TypedContainer) (ks : List String) : Prop := ∀ x p, Names c x p → p ∈ ks → x ∈ ks

def AttrChange.Fits : AttrChange → Prop
  | .touch now => InColumn now
  | .ttl deadline => InColumn deadline
  | .poison => True
  | .quarantine now => InColumn now

/-- What keeps the mirror. -/
def Mutation.Safe (c : TypedContainer) : Mutation → Prop
  | .put key entry => (∀ p ∈ entry.derivedFrom, Live c p) ∧ key ∉ c.retained ∧ entry.Fits
  | .expire ks => Closed c ks
  | .forget ks => Closed c ks
  | .attrs _ a => a.Fits
  | .pin ks => ∀ k ∈ ks, Live c k
  | .unpin _ => True

section

variable {db : Db} {c : TypedContainer}

theorem Mirrors.put (h : Mirrors db c) {key : String} {entry : TypedEntry}
    (hparents : ∀ p ∈ entry.derivedFrom, Live c p) (hpin : key ∉ c.retained) (hfits : entry.Fits) :
    Mirrors (db.entryPut c.id key entry) (c.insertEntry key entry) where
  container := h.container
  entries k := by
    have hcol : (c.insertEntry key entry).pinColumn k = c.pinColumn k := rfl
    show (db.entries.set (c.id, key) (entry.row 0)).get (c.id, k) = _
    rw [Dict.get_set, get_insertEntry, hcol]
    by_cases hk : k = key
    · subst hk
      simp [TypedContainer.pinColumn, hpin]
    · simp [hk, h.entries]
  attrs k := by
    show (db.attrs.set (c.id, key) entry.attrRow).get (c.id, k) = _
    rw [Dict.get_set, get_insertEntry]
    by_cases hk : k = key
    · simp [hk]
    · simp [hk, h.attrs]
  edges x p := by
    show ⟨c.id, x, p⟩ ∈ (db.entryPut c.id key entry).edges ↔ _
    rw [mem_edges_entryPut, Names, parents_insertEntry]
    by_cases hx : x = key
    · simp [hx]
    · simp only [hx, and_false, if_false]
      exact h.edges x p
  provenance := h.provenance.insertEntry hparents
  created := h.created
  fits k e he := by
    rw [get_insertEntry] at he
    split_ifs at he with hk
    · cases he
      exact hfits
    · exact h.fits k e he

theorem Mirrors.delete (h : Mirrors db c) {ks : List String} (hclosed : Closed c ks) :
    Mirrors (ks.foldl (Db.deleteKey c.id) db) (c.removeAll ks) := by
  obtain ⟨hid, hsubject, hlabel, hcreated⟩ := removeAll_identity c ks
  refine ⟨?_, fun k => ?_, fun k => ?_, fun x p => ?_, h.provenance.removeAll hclosed, ?_, fun k e he => ?_⟩
  · rw [containers_deleteAll, hid, hsubject, hlabel, hcreated]
    exact h.container
  · rw [entries_deleteAll, hid, get_removeAll, h.entries]
    by_cases hk : k ∈ ks
    · simp [hk]
    · simp [hk, TypedContainer.pinColumn, retained_removeAll]
  · rw [attrs_deleteAll, hid, get_removeAll, h.attrs]
    by_cases hk : k ∈ ks <;> simp [hk]
  · rw [edges_deleteAll, hid, names_removeAll, h.edges]
    constructor
    · rintro ⟨hn, hks⟩
      exact ⟨hn, fun hx => hks ⟨rfl, .inl hx⟩⟩
    · rintro ⟨hn, hx⟩
      refine ⟨hn, ?_⟩
      rintro ⟨-, hx' | hp⟩
      · exact hx hx'
      · exact hx (hclosed x p hn hp)
  · rw [hcreated]
    exact h.created
  · rw [get_removeAll] at he
    split_ifs at he
    exact h.fits k e he

theorem AttrChange.Fits.apply {a : AttrChange} (ha : a.Fits) {e : TypedEntry} (he : e.Fits) :
    (a.apply e).Fits := by
  cases a with
  | touch now => exact ⟨he.created, ha, he.ttl⟩
  | ttl deadline =>
    refine ⟨he.created, he.access, fun t ht => ?_⟩
    obtain rfl : deadline = t := Option.some.inj ht
    exact ha
  | poison => exact ⟨he.created, he.access, he.ttl⟩
  | quarantine now => exact ⟨he.created, ha, he.ttl⟩

/-- Attributes are not in the row of an entry. -/
theorem row_apply (a : AttrChange) (e : TypedEntry) (retained : Int) :
    (a.apply e).row retained = e.row retained := by
  cases a <;> rfl

theorem Provenance.sameGraph {c c' : TypedContainer} (h : Provenance c) (hg : SameGraph c c') :
    Provenance c' where
  toLinked := hg.linked h.toLinked
  index {x p} hn := by
    rw [Names, hg.parents] at hn
    rw [Child, TypedContainer.kids, hg.children]
    exact h.index hn
  parents_live {x p} hn := by
    rw [Names, hg.parents] at hn
    exact (hg.live p).2 (h.parents_live hn)

theorem Mirrors.change (h : Mirrors db c) (key : String) {a : AttrChange} (ha : a.Fits) :
    Mirrors (db.applyAll c.id ((Mutation.attrs key a).writes c)) (c.modifyEntry key a.apply) := by
  have hgraph := sameGraph_modifyEntry c key a
  -- the statement writes the row of an entry that is there and no row else
  have hattrs (k : String) : (db.applyAll c.id ((Mutation.attrs key a).writes c)).attrs.get (c.id, k) =
      if k = key then (c.entries.get k).map fun e => (a.apply e).attrRow else db.attrs.get (c.id, k) := by
    cases he : c.entries.get key with
    | none =>
      simp only [Mutation.writes, he, Option.map_none, Option.toList_none, Db.applyAll, List.foldl_nil]
      split_ifs with hk
      · rw [hk, h.attrs, he]
        rfl
      · rfl
    | some e =>
      simp only [Mutation.writes, he, Option.map_some, Option.toList_some, Db.applyAll, List.foldl_cons,
        List.foldl_nil, Db.apply, Dict.get_set, Prod.mk.injEq, true_and]
      split_ifs with hk
      · rw [hk, he]
        rfl
      · rfl
  have hrest : (db.applyAll c.id ((Mutation.attrs key a).writes c)).containers = db.containers ∧
      (db.applyAll c.id ((Mutation.attrs key a).writes c)).entries = db.entries ∧
      (db.applyAll c.id ((Mutation.attrs key a).writes c)).edges = db.edges := by
    cases he : c.entries.get key with
    | none => simp [Mutation.writes, he, Db.applyAll]
    | some e => simp [Mutation.writes, he, Db.applyAll, Db.apply]
  obtain ⟨hcont, hent, hedge⟩ := hrest
  refine ⟨?_, fun k => ?_, fun k => ?_, fun x p => ?_, h.provenance.sameGraph hgraph, h.created,
    fun k e he => ?_⟩
  · rw [hcont]
    exact h.container
  · have hcol : (c.modifyEntry key a.apply).pinColumn k = c.pinColumn k := rfl
    show (db.applyAll c.id _).entries.get (c.id, k) = _
    rw [hent, h.entries, get_modifyEntry, hcol]
    split_ifs
    · simp [Option.map_map, Function.comp_def, row_apply]
    · rfl
  · show (db.applyAll c.id _).attrs.get (c.id, k) = _
    rw [hattrs, get_modifyEntry]
    split_ifs
    · simp [Option.map_map, Function.comp_def]
    · exact h.attrs k
  · show ⟨c.id, x, p⟩ ∈ (db.applyAll c.id _).edges ↔ _
    rw [hedge, Names, hgraph.parents]
    exact h.edges x p
  · rw [get_modifyEntry] at he
    split_ifs at he
    · obtain ⟨e₀, he₀, rfl⟩ := Option.map_eq_some_iff.1 he
      exact ha.apply (h.fits k e₀ he₀)
    · exact h.fits k e he

theorem Mirrors.pins (h : Mirrors db c) (ks : List String) (retained : Bool) {ret : Finset String}
    (hret : ∀ k, k ∈ ret ↔ if k ∈ ks then retained = true else k ∈ c.retained)
    (hlive : ∀ k ∈ ret, Live c k) :
    Mirrors (db.applyAll c.id (ks.map (.pin · retained))) { c with retained := ret } := by
  refine ⟨?_, fun k => ?_, fun k => ?_, fun x p => ?_, h.provenance.pins hlive, h.created, h.fits⟩
  · rw [(applyAll_pins c.id c.id "" ks retained db).1]
    exact h.container
  · show (db.applyAll c.id _).entries.get (c.id, k) = _
    rw [(applyAll_pins c.id c.id k ks retained db).2.2.2, h.entries]
    simp only [TypedContainer.pinColumn, hret]
    by_cases hk : k ∈ ks
    · simp [hk, Option.map_map, Function.comp_def, TypedEntry.row]
    · simp [hk]
  · rw [(applyAll_pins c.id c.id "" ks retained db).2.1]
    exact h.attrs k
  · rw [(applyAll_pins c.id c.id "" ks retained db).2.2.1]
    exact h.edges x p

theorem Mirrors.mutate (h : Mirrors db c) {m : Mutation} (hm : m.Safe c) :
    Mirrors (db.applyAll c.id (m.writes c)) (c.mutate m) := by
  cases m with
  | put key entry => exact h.put hm.1 hm.2.1 hm.2.2
  | expire ks =>
    by_cases hks : ks = []
    · subst hks
      exact h
    · have hw : (Mutation.expire ks).writes c = [.delete ks] := if_neg hks
      rw [hw]
      exact h.delete hm
  | forget ks => exact h.delete hm
  | attrs key a => exact h.change key hm
  | pin ks =>
    refine h.pins ks true (fun k => ?_) fun k hk => ?_
    · simp only [Finset.mem_union, List.mem_toFinset]
      split_ifs with hk <;> simp [hk]
    · rcases Finset.mem_union.1 hk with hk | hk
      · exact h.provenance.pinned hk
      · exact hm k (List.mem_toFinset.1 hk)
  | unpin ks =>
    refine h.pins ks false (fun k => ?_) fun k hk => h.provenance.pinned (Finset.mem_sdiff.1 hk).1
    simp only [Finset.mem_sdiff, List.mem_toFinset]
    split_ifs with hk <;> simp [hk]

end

theorem mutate_identity (c : TypedContainer) (m : Mutation) :
    (c.mutate m).id = c.id ∧ (c.mutate m).subject = c.subject ∧ (c.mutate m).label = c.label := by
  have hremove (ks : List String) := removeAll_identity c ks
  cases m with
  | expire ks => exact ⟨(hremove ks).1, (hremove ks).2.1, (hremove ks).2.2.1⟩
  | forget ks => exact ⟨(hremove ks).1, (hremove ks).2.1, (hremove ks).2.2.1⟩
  | put => exact ⟨rfl, rfl, rfl⟩
  | attrs => exact ⟨rfl, rfl, rfl⟩
  | pin => exact ⟨rfl, rfl, rfl⟩
  | unpin => exact ⟨rfl, rfl, rfl⟩

theorem mutateAll_identity (c : TypedContainer) (ms : List Mutation) :
    (c.mutateAll ms).id = c.id ∧ (c.mutateAll ms).subject = c.subject ∧
      (c.mutateAll ms).label = c.label := by
  induction ms generalizing c with
  | nil => exact ⟨rfl, rfl, rfl⟩
  | cons m ms ih =>
    obtain ⟨hid, hsubject, hlabel⟩ := mutate_identity c m
    obtain ⟨hid', hsubject', hlabel'⟩ := ih (c.mutate m)
    exact ⟨hid'.trans hid, hsubject'.trans hsubject, hlabel'.trans hlabel⟩

/-! ## Calls -/

/-- Each mutation of a list is safe where it happens. -/
def SafeAll : TypedContainer → List Mutation → Prop
  | _, [] => True
  | c, m :: ms => m.Safe c ∧ SafeAll (c.mutate m) ms

theorem safeAll_append {c : TypedContainer} {ms ms' : List Mutation} (h : SafeAll c ms)
    (h' : SafeAll (c.mutateAll ms) ms') : SafeAll c (ms ++ ms') := by
  induction ms generalizing c with
  | nil => exact h'
  | cons m ms ih => exact ⟨h.1, ih h.2 h'⟩

theorem safeAll_changes {as : List (String × AttrChange)} (has : ∀ x ∈ as, x.2.Fits) (c : TypedContainer) :
    SafeAll c (changes as) := by
  induction as generalizing c with
  | nil => trivial
  | cons x as ih =>
    exact ⟨has x (by simp), ih (fun y hy => has y (by simp [hy])) (c.modifyEntry x.1 x.2.apply)⟩

theorem applyAll_append (db : Db) (id : String) (ws ws' : List Write) :
    db.applyAll id (ws ++ ws') = (db.applyAll id ws).applyAll id ws' := List.foldl_append

theorem Mirrors.mutateAll {db : Db} {c : TypedContainer} {ms : List Mutation} (h : Mirrors db c)
    (hms : SafeAll c ms) : Mirrors (db.applyAll c.id (writesAll c ms)) (c.mutateAll ms) := by
  induction ms generalizing db c with
  | nil => exact h
  | cons m ms ih =>
    have hone := ih (h.mutate hms.1) hms.2
    rw [(mutate_identity c m).1] at hone
    rw [writesAll, applyAll_append]
    exact hone

/-- A put that passes its checks leaves the pins alone. -/
def PutPersists (K : Cipher) (s : Mem) : Op → Prop
  | .put t nonce key text derivedFrom opts =>
    ∀ entry, putEntry K s.container t nonce key text derivedFrom opts = .ok entry →
      key ∉ s.container.retained ∧ entry.Fits
  | _ => True

/-- A forget whose root can go leaves nothing that names the root. -/
def FrontPersists (s : Mem) : Op → Prop
  | .forgetFront t key grant false consented =>
    ∀ now, s.sweepOf (.forgetFront t key grant false consented) = some now →
      (∀ x, Reaches (s.container.swept now) key x → x ∉ (s.container.swept now).retained) →
      Closed (s.container.swept now) [key]
  | _ => True

/-- The change a call makes, and the quarantine of a revoked consent, are at times in range. -/
def Op.Timely (op : Op) : Prop :=
  (∀ a, op.Makes a → a.Fits) ∧ ∀ now swept, op = .consentRevoked now swept → InColumn now

/-- A sweep takes entries out together with what names them. -/
structure Persists (K : Cipher) (s : Mem) (op : Op) : Prop where
  sweep : ∀ now, s.sweepOf op = some now → Closed s.container (s.container.expiredKeys now)
  put : PutPersists K s op
  front : FrontPersists s op
  times : op.Timely

theorem Closed.changes {c : TypedContainer} {as : List (String × AttrChange)} {ks : List String}
    (h : Closed c ks) : Closed (c.mutateAll (changes as)) ks := by
  intro x p hn
  rw [Names, (sameGraph_changes c as).parents] at hn
  exact h x p hn

theorem safeAll_performs {s : Mem} {op : Op} {ms : List Mutation} (h : Provenance s.container)
    (hop : Persists K s op) (hp : Performs K s op ms) : SafeAll s.container ms := by
  cases hp with
  | nothing => trivial
  | put hok =>
    have hput := putEntry_ok hok
    obtain ⟨hpin, hfits⟩ := hop.put _ hok
    refine ⟨⟨fun p hmem => hput.parents p ?_, hpin, hfits⟩, trivial⟩
    rwa [hput.derivedFrom] at hmem
  | attrs hs hmakes =>
    exact ⟨hop.sweep _ hs, safeAll_changes (fun x hx => hop.times.1 _ (hmakes x hx)) _⟩
  | pin hlive => exact ⟨fun k hk => h.reaches_live hlive (mem_plan.1 hk), trivial⟩
  | unpin => exact ⟨trivial, trivial⟩
  | front hs hlive hfree hderived =>
    have hclosed := hop.front _ hs hfree
    refine ⟨hop.sweep _ hs, safeAll_append (safeAll_changes (fun x hx => ?_) _) ⟨hclosed.changes, trivial⟩⟩
    obtain ⟨y, -, rfl⟩ := List.mem_map.1 hx
    trivial
  | cascade hlive hfree hclosure =>
    refine ⟨fun x p hn hmem => ?_, trivial⟩
    rw [hclosure] at hmem ⊢
    exact hmem.tail (h.index hn)
  | quarantine hmakes =>
    refine ⟨hop.sweep _ rfl, safeAll_changes (fun x hx => ?_) _⟩
    rw [hmakes x hx]
    exact hop.times.2 _ _ rfl

/-- One call. -/
theorem Mirrors.exec {db : Db} {s : Mem} {op : Op} (h : Mirrors db s.container) (hop : Persists K s op) :
    Mirrors (db.applyAll s.container.id (s.exec K op).2) (s.exec K op).1.container ∧
      (s.exec K op).1.container.id = s.container.id := by
  obtain ⟨ms, hp, hc, hws⟩ := step_performs K s op
  rw [Mem.step] at hc
  rw [hc, hws]
  exact ⟨h.mutateAll (safeAll_performs h.provenance hop hp), (mutateAll_identity _ _).1⟩

/-! ## Other containers -/

/-- The rows of a container. -/
structure SameRows (db db' : Db) (i : String) : Prop where
  container : db'.containers.get i = db.containers.get i
  entries : ∀ k, db'.entries.get (i, k) = db.entries.get (i, k)
  attrs : ∀ k, db'.attrs.get (i, k) = db.attrs.get (i, k)
  edges : ∀ x p, ⟨i, x, p⟩ ∈ db'.edges ↔ ⟨i, x, p⟩ ∈ db.edges

theorem Mirrors.sameRows {db db' : Db} {c : TypedContainer} (h : Mirrors db c) (hr : SameRows db db' c.id) :
    Mirrors db' c where
  container := hr.container.trans h.container
  entries k := (hr.entries k).trans (h.entries k)
  attrs k := (hr.attrs k).trans (h.attrs k)
  edges x p := (hr.edges x p).trans (h.edges x p)
  provenance := h.provenance
  created := h.created
  fits := h.fits

theorem sameRows_apply (db : Db) {id i : String} (hne : i ≠ id) (w : Write) : SameRows db (db.apply id w) i := by
  cases w with
  | entryPut key entry =>
    refine ⟨rfl, fun k => ?_, fun k => ?_, fun x p => ?_⟩
    · simp [Db.apply, Db.entryPut, Dict.get_set, hne]
    · simp [Db.apply, Db.entryPut, Dict.get_set, hne]
    · simp [Db.apply, mem_edges_entryPut, hne]
  | pin key retained =>
    refine ⟨rfl, fun k => ?_, fun _ => rfl, fun _ _ => Iff.rfl⟩
    simp [Db.apply, Db.pin, Dict.get_modify, hne]
  | attrs key entry =>
    refine ⟨rfl, fun _ => rfl, fun k => ?_, fun _ _ => Iff.rfl⟩
    simp [Db.apply, Dict.get_set, hne]
  | delete ks =>
    refine ⟨?_, fun k => ?_, fun k => ?_, fun x p => ?_⟩
    · exact congrArg (·.get i) (containers_deleteAll db id ks)
    · exact (entries_deleteAll db id i k ks).trans (by simp [hne])
    · exact (attrs_deleteAll db id i k ks).trans (by simp [hne])
    · exact (edges_deleteAll db id i x p ks).trans (by simp [hne])

/-- A call writes no row of another container. -/
theorem sameRows_applyAll (db : Db) {id i : String} (hne : i ≠ id) (ws : List Write) :
    SameRows db (db.applyAll id ws) i := by
  induction ws generalizing db with
  | nil => exact ⟨rfl, fun _ => rfl, fun _ => rfl, fun _ _ => Iff.rfl⟩
  | cons w ws ih =>
    have hone := sameRows_apply db hne w
    have hrest := ih (db.apply id w)
    exact ⟨hrest.container.trans hone.container, fun k => (hrest.entries k).trans (hone.entries k),
      fun k => (hrest.attrs k).trans (hone.attrs k), fun x p => (hrest.edges x p).trans (hone.edges x p)⟩

theorem containers_applyAll (db : Db) (id : String) (ws : List Write) :
    (db.applyAll id ws).containers = db.containers := by
  induction ws generalizing db with
  | nil => rfl
  | cons w ws ih =>
    have hone : (db.apply id w).containers = db.containers := by
      cases w with
      | delete ks => exact containers_deleteAll db id ks
      | entryPut => rfl
      | pin => rfl
      | attrs => rfl
    exact (ih (db.apply id w)).trans hone

end Metalogos.Memory
