import Metalogos.Memory.Quarantine
import Metalogos.Memory.Restart

/-!
# Typed memory: contents and quarantine

What the store and the registry hold of an entry when its graph, its times and its pin are left aside: the
stored form, and whether it is in quarantine (`held`). On this much the store follows the registry in every
call, without the conditions the whole mirror needs (`Holds.exec`), and outside a put nothing that was not
held in the open before is held in the open after (`held_exec`).
-/
namespace Metalogos.Memory

open Metalogos.Lib Metalogos.Grants

variable {K : Cipher}

/-- The stored form of an entry, and whether it is in quarantine. -/
def TypedContainer.held (c : TypedContainer) (k : String) : Option (Stored × Bool) :=
  (c.entries.get k).map fun e => (e.stored, e.poisoned)

/-- The same of the rows of an entry. -/
def Db.held (db : Db) (id k : String) : Option (Stored × Bool) :=
  (db.entries.get (id, k)).map fun r => (r.toStored, (db.attrs.get (id, k)).any (·.poisoned ≠ 0))

/-- The store holds what the container does. -/
def Holds (db : Db) (c : TypedContainer) : Prop := ∀ k, db.held c.id k = c.held k

theorem held_loaded (db : Db) (id : String) (row : ContainerRow) (label : MemLabel) :
    Holds db (db.loadContainer id row label) := by
  intro k
  show db.held id k = ((db.loadContainer id row label).entries.get k).map _
  simp only [Db.loadContainer, Db.held]
  rw [get_addParents, get_mergeAttrs, get_loadEntries]
  cases db.entries.get (id, k) with
  | none => rfl
  | some r =>
    simp only [Option.map_some, Db.withAttrs, Option.some.injEq]
    cases db.attrs.get (id, k) with
    | none => rfl
    | some a => simp [AttrRow.merge, EntryRow.entry, TypedEntry.new]

/-! ## Statements -/

theorem held_sameRows {db db' : Db} {i : String} (h : SameRows db db' i) (k : String) : db'.held i k = db.held i k := by
  rw [Db.held, Db.held, h.entries, h.attrs]

theorem held_entryPut (db : Db) (id key k : String) (entry : TypedEntry) : (db.entryPut id key entry).held id k =
    if k = key then some (entry.stored, entry.poisoned) else db.held id k := by
  simp only [Db.held, Db.entryPut, Dict.get_set, Prod.mk.injEq, true_and]
  split_ifs with hk
  · have hstored : (entry.row 0).toStored = entry.stored := toStored_column entry.stored _ _
    cases hp : entry.poisoned <;> simp [hstored, TypedEntry.attrRow, hp]
  · rfl

theorem held_deleteAll (db : Db) (id k : String) (ks : List String) :
    (ks.foldl (Db.deleteKey id) db).held id k = if k ∈ ks then none else db.held id k := by
  rw [Db.held, Db.held, entries_deleteAll, attrs_deleteAll]
  by_cases hk : k ∈ ks <;> simp [hk]

theorem held_attrs (db : Db) (id key k : String) (e : TypedEntry) :
    Db.held { db with attrs := db.attrs.set (id, key) e.attrRow } id k =
      if k = key then (db.held id k).map fun h => (h.1, e.poisoned) else db.held id k := by
  simp only [Db.held, Dict.get_set, Prod.mk.injEq, true_and]
  split_ifs with hk
  · rw [Option.map_map]
    cases hp : e.poisoned <;> simp [Function.comp_def, TypedEntry.attrRow, hp]
  · rfl

theorem held_pins (db : Db) (id k : String) (ks : List String) (retained : Bool) :
    (db.applyAll id (ks.map (.pin · retained))).held id k = db.held id k := by
  obtain ⟨-, hattrs, -, hentries⟩ := applyAll_pins id id k ks retained db
  rw [Db.held, Db.held, hattrs, hentries]
  by_cases hk : id = id ∧ k ∈ ks
  · rw [if_pos hk, Option.map_map]
    rfl
  · rw [if_neg hk]

/-! ## Mutations -/

theorem Holds.mutate {db : Db} {c : TypedContainer} (h : Holds db c) (m : Mutation) :
    Holds (db.applyAll c.id (m.writes c)) (c.mutate m) := by
  intro k
  rw [(mutate_identity c m).1]
  have hdelete (ks : List String) : (ks.foldl (Db.deleteKey c.id) db).held c.id k = (c.removeAll ks).held k := by
    rw [held_deleteAll, TypedContainer.held, get_removeAll, h]
    split_ifs <;> rfl
  cases m with
  | put key entry =>
    show (db.entryPut c.id key entry).held c.id k = (c.insertEntry key entry).held k
    rw [held_entryPut, TypedContainer.held, get_insertEntry, h]
    split_ifs <;> rfl
  | expire ks =>
    by_cases hks : ks = []
    · subst hks
      exact h k
    · have hw : (Mutation.expire ks).writes c = [.delete ks] := if_neg hks
      rw [hw]
      exact hdelete ks
  | forget ks => exact hdelete ks
  | attrs key a =>
    have happly (e : TypedEntry) : (a.apply e).stored = e.stored := by cases a <;> rfl
    show _ = (c.modifyEntry key a.apply).held k
    rw [TypedContainer.held, get_modifyEntry]
    cases he : c.entries.get key with
    | none =>
      simp only [Mutation.writes, he, Option.map_none, Option.toList_none, Db.applyAll, List.foldl_nil, h k,
        TypedContainer.held]
      split_ifs with hk
      · rw [hk, he]
        rfl
      · rfl
    | some e =>
      simp only [Mutation.writes, he, Option.map_some, Option.toList_some, Db.applyAll, List.foldl_cons,
        List.foldl_nil, Db.apply]
      rw [held_attrs, h k, TypedContainer.held]
      split_ifs with hk
      · rw [hk, he]
        simp [happly]
      · rfl
  | pin ks => exact (held_pins db c.id k ks true).trans (h k)
  | unpin ks => exact (held_pins db c.id k ks false).trans (h k)

theorem Holds.mutateAll {db : Db} {c : TypedContainer} (h : Holds db c) (ms : List Mutation) :
    Holds (db.applyAll c.id (writesAll c ms)) (c.mutateAll ms) := by
  induction ms generalizing db c with
  | nil => exact h
  | cons m ms ih =>
    have hone := ih (h.mutate m)
    rw [(mutate_identity c m).1] at hone
    rw [writesAll, applyAll_append]
    exact hone

/-- Only a put brings content that is not in quarantine. -/
theorem held_mutate {c : TypedContainer} {m : Mutation} {k : String} {s : Stored}
    (h : (c.mutate m).held k = some (s, false)) :
    c.held k = some (s, false) ∨ ∃ entry, m = .put k entry ∧ s = entry.stored := by
  have hremove {ks : List String} (h : (c.removeAll ks).held k = some (s, false)) : c.held k = some (s, false) := by
    rw [TypedContainer.held, get_removeAll] at h
    split_ifs at h
    · cases h
    · exact h
  cases m with
  | put key entry =>
    have hput : (c.insertEntry key entry).held k = some (s, false) := h
    rw [TypedContainer.held, get_insertEntry] at hput
    split_ifs at hput with hk
    · subst hk
      exact .inr ⟨entry, rfl, (congrArg Prod.fst (Option.some.inj hput)).symm⟩
    · exact .inl hput
  | expire ks => exact .inl (hremove h)
  | forget ks => exact .inl (hremove h)
  | attrs key a =>
    have hattrs : (c.modifyEntry key a.apply).held k = some (s, false) := h
    rw [TypedContainer.held, get_modifyEntry] at hattrs
    split_ifs at hattrs with hk
    · obtain ⟨e', he', heq⟩ := Option.map_eq_some_iff.1 hattrs
      obtain ⟨e, he, rfl⟩ := Option.map_eq_some_iff.1 he'
      simp only [Prod.mk.injEq] at heq
      refine .inl ?_
      rw [TypedContainer.held, he, Option.map_some]
      cases a with
      | touch => rw [← heq.1, ← heq.2]; rfl
      | ttl => rw [← heq.1, ← heq.2]; rfl
      | poison => cases heq.2
      | quarantine => cases heq.2
    · exact .inl hattrs
  | pin ks => exact .inl h
  | unpin ks => exact .inl h

theorem held_mutateAll {c : TypedContainer} {ms : List Mutation} {k : String} {s : Stored}
    (h : (c.mutateAll ms).held k = some (s, false)) :
    c.held k = some (s, false) ∨ ∃ entry, Mutation.put k entry ∈ ms ∧ s = entry.stored := by
  induction ms generalizing c with
  | nil => exact .inl h
  | cons m ms ih =>
    rcases ih h with h | ⟨entry, hm, hs⟩
    · exact (held_mutate h).imp_right fun ⟨entry, hm, hs⟩ => ⟨entry, hm ▸ List.mem_cons_self .., hs⟩
    · exact .inr ⟨entry, List.mem_cons_of_mem _ hm, hs⟩

/-! ## Calls -/

theorem Holds.exec {db : Db} {s : Mem} (h : Holds db s.container) (op : Op) :
    Holds (db.applyAll s.container.id (s.exec K op).2) (s.step K op).container := by
  obtain ⟨ms, -, hc, hw⟩ := step_performs K s op
  rw [hc, hw]
  exact h.mutateAll ms

theorem put_mem_performs {s : Mem} {op : Op} {ms : List Mutation} (hp : Performs K s op ms) {k : String}
    {entry : TypedEntry} (hm : Mutation.put k entry ∈ ms) : ∃ t nonce text derivedFrom opts,
      op = .put t nonce k text derivedFrom opts ∧
      putEntry K s.container t nonce k text derivedFrom opts = .ok entry := by
  have hchanges {as : List (String × AttrChange)} : Mutation.put k entry ∉ changes as := by
    intro hm
    obtain ⟨x, -, hx⟩ := List.mem_map.1 hm
    cases hx
  cases hp with
  | nothing => cases hm
  | put hok =>
    obtain ⟨rfl, rfl⟩ := Mutation.put.inj (List.mem_singleton.1 hm)
    exact ⟨_, _, _, _, _, rfl, hok⟩
  | attrs => exact absurd ((List.mem_cons.1 hm).resolve_left nofun) hchanges
  | pin => exact nomatch List.mem_singleton.1 hm
  | unpin => exact nomatch List.mem_singleton.1 hm
  | front =>
    rcases List.mem_append.1 ((List.mem_cons.1 hm).resolve_left nofun) with hm | hm
    · exact absurd hm hchanges
    · exact nomatch List.mem_singleton.1 hm
  | cascade => exact nomatch List.mem_singleton.1 hm
  | quarantine => exact absurd ((List.mem_cons.1 hm).resolve_left nofun) hchanges

/-- What a call leaves in the open was so before, or is what it put. -/
theorem held_exec {s : Mem} {op : Op} {k : String} {st : Stored}
    (h : (s.step K op).container.held k = some (st, false)) :
    s.container.held k = some (st, false) ∨ ∃ t nonce text derivedFrom opts entry,
      op = .put t nonce k text derivedFrom opts ∧
      putEntry K s.container t nonce k text derivedFrom opts = .ok entry ∧ st = entry.stored := by
  obtain ⟨ms, hp, hc, -⟩ := step_performs K s op
  rw [hc] at h
  refine (held_mutateAll h).imp_right fun ⟨entry, hm, hs⟩ => ?_
  obtain ⟨t, nonce, text, derivedFrom, opts, hop, hok⟩ := put_mem_performs hp hm
  exact ⟨t, nonce, text, derivedFrom, opts, entry, hop, hok, hs⟩

/-- A revoked consent leaves nothing in the open. -/
theorem held_consentRevoked (c : TypedContainer) (now swept : Nat) (k : String) (st : Stored) :
    (consentRevoked c now swept).container.held k ≠ some (st, false) := by
  intro h
  obtain ⟨e, he, heq⟩ := Option.map_eq_some_iff.1 h
  simp only [consentRevoked, sweepExpired_eq] at he
  have hall := quarantine_all now (c.swept swept).entries.keys (c.swept swept)
    ((Mutation.expire (c.expiredKeys swept)).writes c) (fun x e he => .inl ((Dict.mem_keys _ _).2 ⟨e, he⟩)) k e he
  simp [hall] at heq

end Metalogos.Memory
