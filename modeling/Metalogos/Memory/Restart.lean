import Metalogos.Memory.Mirror

/-!
# Typed memory: what a restart finds

Loading a container from rows that mirror it gives the same container: the same entries, parents, index and
pins. So in every run whose calls meet `Persists`, over any number of containers, what the store yields for
a container of the registry is that container, and a new process goes on from it.
-/
namespace Metalogos.Memory

open Metalogos.Lib Metalogos.Grants Relation

variable {K : Cipher}

/-- An entry without its parents, which are compared as sets. -/
def TypedEntry.body (e : TypedEntry) : TypedEntry := { e with derivedFrom := [] }

/-- The same container but for the order of parents and children. -/
structure Same (c c' : TypedContainer) : Prop where
  identity : c'.id = c.id ∧ c'.subject = c.subject ∧ c'.label = c.label ∧ c'.createdUnix = c.createdUnix
  entries : ∀ k, (c'.entries.get k).map (·.body) = (c.entries.get k).map (·.body)
  parents : ∀ x p, Names c' x p ↔ Names c x p
  children : ∀ p x, Child c' p x ↔ Child c p x
  pins : c'.retained = c.retained

/-! ## Columns -/

theorem fromColumn_toI64 {t : Nat} (h : InColumn t) : fromColumn (toI64 t) = t := by
  have ht : InI64 (t : Int) := by
    unfold InColumn at h
    exact ⟨by omega, by omega⟩
  rw [toI64_eq ht]
  unfold fromColumn
  omega

theorem toStored_column (s : Stored) (created retained : Int) :
    EntryRow.toStored ⟨s.column.1, s.column.2, created, retained⟩ = s := by
  cases s with
  | plain s =>
    have hutf : String.fromUTF8? s.toUTF8 = some s := dif_pos s.isValidUTF8
    simp only [EntryRow.toStored, Stored.column, hutf]
    rfl
  | enc blob => simp [EntryRow.toStored, Stored.column]

/-- The row of an entry and the row of its attributes hold all of it but the parents. -/
theorem merge_entry {e : TypedEntry} (h : e.Fits) (retained : Int) :
    e.attrRow.merge (e.row retained).entry = e.body := by
  have hcreated := fromColumn_toI64 h.created
  have haccess := fromColumn_toI64 h.access
  have hpoison : ((if e.poisoned = true then (1 : Int) else 0) ≠ 0 : Bool) = e.poisoned := by
    cases e.poisoned <;> rfl
  have httl : (e.ttlUnix.map fun t : Nat => toI64 t).map fromColumn = e.ttlUnix := by
    cases ht : e.ttlUnix with
    | none => rfl
    | some t => simp [fromColumn_toI64 (h.ttl t ht)]
  simp only [AttrRow.merge, TypedEntry.attrRow, EntryRow.entry, TypedEntry.row, TypedEntry.new,
    TypedEntry.body, toStored_column, hcreated, haccess, httl, TypedEntry.mk.injEq, true_and]
  exact hpoison

/-! ## Rows read back -/

section

variable (db : Db) (id k : String)

theorem mem_keysIn {α : Type} (d : Dict (String × String) α) :
    k ∈ keysIn id d ↔ ∃ r, d.get (id, k) = some r := by
  rw [← Dict.mem_keys]
  simp [keysIn]

theorem get_loadEntry (a : String) (d : Dict String TypedEntry) : (db.loadEntry id d a).get k =
    if k = a then ((db.entries.get (id, k)).map (·.entry)).or (d.get k) else d.get k := by
  unfold Db.loadEntry
  cases hr : db.entries.get (id, a) with
  | none =>
    split_ifs with hk
    · simp [hk, hr]
    · rfl
  | some r =>
    simp only [Dict.get_set]
    split_ifs with hk
    · simp [hk, hr]
    · rfl

theorem get_loadEntries : (db.loadEntries id).get k = (db.entries.get (id, k)).map (·.entry) := by
  have hfold (ks : List String) (d : Dict String TypedEntry) : (ks.foldl (db.loadEntry id) d).get k =
      if k ∈ ks then ((db.entries.get (id, k)).map (·.entry)).or (d.get k) else d.get k := by
    induction ks generalizing d with
    | nil => rfl
    | cons a ks ih =>
      rw [List.foldl_cons, ih, get_loadEntry]
      cases db.entries.get (id, k) with
      | none => simp
      | some r => by_cases ha : k = a <;> simp [ha]
  rw [Db.loadEntries, hfold]
  split_ifs with hk
  · simp
  · rw [mem_keysIn] at hk
    cases hr : db.entries.get (id, k) with
    | none => rfl
    | some r => exact absurd ⟨r, hr⟩ hk

/-- An entry with its attributes, if they have a row. -/
def Db.withAttrs (e : TypedEntry) : TypedEntry :=
  match db.attrs.get (id, k) with
  | none => e
  | some r => r.merge e

theorem withAttrs_withAttrs (e : TypedEntry) :
    db.withAttrs id k (db.withAttrs id k e) = db.withAttrs id k e := by
  unfold Db.withAttrs
  cases db.attrs.get (id, k) <;> rfl

theorem get_mergeAttr (a : String) (d : Dict String TypedEntry) : (db.mergeAttr id d a).get k =
    if k = a then (d.get k).map (db.withAttrs id k) else d.get k := by
  unfold Db.mergeAttr Db.withAttrs
  cases hr : db.attrs.get (id, a) with
  | none =>
    split_ifs with hk
    · simp [hk, hr]
    · rfl
  | some r =>
    simp only [Dict.get_modify]
    split_ifs with hk
    · simp [hk, hr]
    · rfl

theorem get_mergeAttrs (d : Dict String TypedEntry) :
    (db.mergeAttrs id d).get k = (d.get k).map (db.withAttrs id k) := by
  have hfold (ks : List String) (d : Dict String TypedEntry) : (ks.foldl (db.mergeAttr id) d).get k =
      if k ∈ ks then (d.get k).map (db.withAttrs id k) else d.get k := by
    induction ks generalizing d with
    | nil => rfl
    | cons a ks ih =>
      rw [List.foldl_cons, ih, get_mergeAttr]
      by_cases ha : k = a
      · simp [ha, Option.map_map, Function.comp_def, withAttrs_withAttrs]
      · simp [ha]
  rw [Db.mergeAttrs, hfold]
  split_ifs with hk
  · rfl
  · have hnone : db.attrs.get (id, k) = none := by
      by_contra hne
      exact hk ((mem_keysIn id k _).2 (Option.ne_none_iff_exists'.1 hne))
    have hid : db.withAttrs id k = fun e => e := by
      funext e
      simp [Db.withAttrs, hnone]
    rw [hid, Option.map_id']

theorem mem_loadPins : k ∈ db.loadPins id ↔ ∃ r, db.entries.get (id, k) = some r ∧ r.retained ≠ 0 := by
  simp only [Db.loadPins, List.mem_toFinset, List.mem_filter, mem_keysIn]
  cases db.entries.get (id, k) <;> simp

theorem mem_edgesIn (e : Edge) : e ∈ db.edgesIn id ↔ e ∈ db.edges ∧ e.containerId = id := by
  simp [Db.edgesIn]

/-- Each edge adds a parent to its child's entry. -/
theorem get_addParents (es : List Edge) (d : Dict String TypedEntry) :
    (es.foldl (fun d e => d.modify e.child (.derive e.parent)) d).get k =
      (d.get k).map fun e => { e with
        derivedFrom := e.derivedFrom ++ (es.filter (·.child = k)).map (·.parent) } := by
  induction es generalizing d with
  | nil => simp
  | cons a es ih =>
    rw [List.foldl_cons, ih, Dict.get_modify]
    by_cases ha : k = a.child
    · subst ha
      simp [Option.map_map, Function.comp_def, TypedEntry.derive]
    · simp [ha, Ne.symm ha]

/-- And the child to the list of its parent. -/
theorem mem_kidsOf_edges (es : List Edge) (ch : Dict String (List String)) (p x : String) :
    x ∈ kidsOf (es.foldl (fun ch e => ch.set e.parent (kidsOf ch e.parent ++ [e.child])) ch) p ↔
      x ∈ kidsOf ch p ∨ ∃ e ∈ es, e.parent = p ∧ e.child = x := by
  induction es generalizing ch with
  | nil => simp
  | cons a es ih =>
    rw [List.foldl_cons, ih, kidsOf_set]
    by_cases ha : p = a.parent
    · subst ha
      simp [or_assoc, eq_comm]
    · simp [ha, Ne.symm ha]

end

/-- The load of a container whose rows are there gives the container back. -/
theorem Mirrors.load {db : Db} {c : TypedContainer} (h : Mirrors db c) :
    Same c (db.loadContainer c.id ⟨c.subject, c.label.asStr, toI64 c.createdUnix⟩ c.label) := by
  have hget (k : String) : (db.mergeAttrs c.id (db.loadEntries c.id)).get k =
      (c.entries.get k).map (·.body) := by
    rw [get_mergeAttrs, get_loadEntries, h.entries]
    cases he : c.entries.get k with
    | none => rfl
    | some e =>
      have hattrs : db.attrs.get (c.id, k) = some e.attrRow := by rw [h.attrs, he]; rfl
      simp only [Option.map_some, Db.withAttrs, hattrs]
      exact congrArg some (merge_entry (h.fits k e he) _)
  have hcreated := fromColumn_toI64 h.created
  refine ⟨?_, fun k => ?_, fun x p => ?_, fun p x => ?_, ?_⟩
  · simp only [Db.loadContainer, hcreated, and_self]
  · simp only [Db.loadContainer]
    rw [get_addParents, hget]
    cases c.entries.get k <;> rfl
  · rw [names_iff]
    simp only [Db.loadContainer]
    rw [get_addParents, hget]
    have hedge : p ∈ ((db.edgesIn c.id).filter (·.child = x)).map (·.parent) ↔ Names c x p := by
      rw [← h.edges, List.mem_map]
      constructor
      · rintro ⟨⟨i, y, q⟩, he, rfl⟩
        obtain ⟨hin, hx⟩ := List.mem_filter.1 he
        obtain rfl : y = x := by simpa using hx
        obtain ⟨hedge, rfl⟩ := (mem_edgesIn db c.id _).1 hin
        exact hedge
      · intro he
        exact ⟨⟨c.id, x, p⟩, List.mem_filter.2 ⟨(mem_edgesIn db c.id _).2 ⟨he, rfl⟩, by simp⟩, rfl⟩
    rw [← hedge]
    constructor
    · rintro ⟨e, he, hp⟩
      obtain ⟨e', he', rfl⟩ := Option.map_eq_some_iff.1 he
      obtain ⟨e₀, -, rfl⟩ := Option.map_eq_some_iff.1 he'
      simpa [TypedEntry.body] using hp
    · intro hp
      obtain ⟨e, he, -⟩ := names_iff.1 (hedge.1 hp)
      rw [he]
      exact ⟨_, rfl, by simpa [TypedEntry.body] using hp⟩
  · have hnames : Child c p x ↔ Names c x p := ⟨h.provenance.names, h.provenance.index⟩
    rw [hnames, ← h.edges, Child, TypedContainer.kids]
    simp only [Db.loadContainer]
    rw [mem_kidsOf_edges]
    constructor
    · rintro (hk | ⟨⟨i, y, q⟩, he, rfl, rfl⟩)
      · cases hk
      · obtain ⟨he, rfl⟩ := (mem_edgesIn db c.id _).1 he
        exact he
    · exact fun he => .inr ⟨⟨c.id, x, p⟩, (mem_edgesIn db c.id _).2 ⟨he, rfl⟩, rfl, rfl⟩
  · ext k
    simp only [Db.loadContainer]
    rw [mem_loadPins, h.entries]
    constructor
    · rintro ⟨r, hr, hpin⟩
      obtain ⟨e, -, rfl⟩ := Option.map_eq_some_iff.1 hr
      by_contra hk
      exact hpin (by simp [TypedEntry.row, TypedContainer.pinColumn, hk])
    · intro hk
      obtain ⟨e, he⟩ := live_iff.1 (h.provenance.pinned hk)
      rw [he]
      exact ⟨_, rfl, by simp [TypedEntry.row, TypedContainer.pinColumn, hk]⟩

/-! ## The same container in its place -/

theorem Same.live {c c' : TypedContainer} (h : Same c c') (x : String) : Live c' x ↔ Live c x := by
  have hx := h.entries x
  rw [live_iff, live_iff]
  cases he : c.entries.get x <;> cases he' : c'.entries.get x <;> simp [he, he'] at hx ⊢

theorem Same.provenance {c c' : TypedContainer} (h : Same c c') (hc : Provenance c) : Provenance c' where
  names hn := (h.parents _ _).2 (hc.names ((h.children _ _).1 hn))
  live hn := (h.live _).2 (hc.live ((h.children _ _).1 hn))
  pinned hx := by
    rw [h.pins] at hx
    exact (h.live _).2 (hc.pinned hx)
  index hn := (h.children _ _).2 (hc.index ((h.parents _ _).1 hn))
  parents_live hn := (h.live _).2 (hc.parents_live ((h.parents _ _).1 hn))

/-- What is not the parents of an entry depends on its body only. -/
theorem Same.map {α : Type} {c c' : TypedContainer} (h : Same c c') {f : TypedEntry → α}
    (hf : ∀ e, f e.body = f e) (k : String) : (c'.entries.get k).map f = (c.entries.get k).map f := by
  have hbody (o : Option TypedEntry) : (o.map (·.body)).map f = o.map f := by
    cases o with
    | none => rfl
    | some e => exact congrArg some (hf e)
  rw [← hbody, h.entries, hbody]

/-- A container that is the same has the same rows. -/
theorem Mirrors.same {db : Db} {c c' : TypedContainer} (h : Mirrors db c) (hs : Same c c') :
    Mirrors db c' := by
  obtain ⟨hid, hsubject, hlabel, hcreated⟩ := hs.identity
  have hpin (k : String) : c'.pinColumn k = c.pinColumn k := by
    simp only [TypedContainer.pinColumn, hs.pins]
  refine ⟨?_, fun k => ?_, fun k => ?_, fun x p => ?_, hs.provenance h.provenance, ?_, fun k e he => ?_⟩
  · rw [hid, hsubject, hlabel, hcreated]
    exact h.container
  · rw [hid, h.entries, hpin]
    exact (hs.map (fun _ => rfl) k).symm
  · rw [hid, h.attrs]
    exact (hs.map (fun _ => rfl) k).symm
  · rw [hid, h.edges, hs.parents]
  · rw [hcreated]
    exact h.created
  · have hk := hs.entries k
    rw [he] at hk
    obtain ⟨e', he', hbody⟩ := Option.map_eq_some_iff.1 hk.symm
    have hfits : e'.body.Fits := ⟨(h.fits k e' he').created, (h.fits k e' he').access, (h.fits k e' he').ttl⟩
    rw [hbody] at hfits
    exact ⟨hfits.created, hfits.access, hfits.ttl⟩

/-! ## The world -/

/-- No rows stand under an id without a container. -/
structure Db.Vacant (db : Db) (i : String) : Prop where
  entries : ∀ k, db.entries.get (i, k) = none
  attrs : ∀ k, db.attrs.get (i, k) = none
  edges : ∀ x p, ⟨i, x, p⟩ ∉ db.edges

/-- Every container of the store is the rows of some container, and those of the registry of theirs. -/
structure Mirrored (w : World) : Prop where
  rows : ∀ i row, w.db.containers.get i = some row → ∃ c : TypedContainer, c.id = i ∧ Mirrors w.db c
  registry : ∀ h c, w.registry.get h = some c → c.id = h ∧ Mirrors w.db c
  unique : ∀ i i' row row', w.db.containers.get i = some row → w.db.containers.get i' = some row' →
    row.subject = row'.subject → row.label = row'.label → i = i'
  vacant : ∀ i, w.db.containers.get i = none → w.db.Vacant i

/-- The id drawn for a new container is new, and its time in range. -/
def OpenPersists (w : World) (freshId : String) (now : Nat) : Prop :=
  w.db.containers.get freshId = none ∧ InColumn now

def World.Persists (K : Cipher) (w : World) : WorldOp → Prop
  | .open _ _ _ freshId now => OpenPersists w freshId now
  | .on handle op => ∀ c, w.registry.get handle = some c → Memory.Persists K ⟨w.grants, c⟩ op
  | .restart _ => True

theorem mirrored_start : Mirrored .start where
  rows _ _ h := by cases h
  registry _ _ h := by cases h
  unique _ _ _ _ h := by cases h
  vacant _ _ := ⟨fun _ => rfl, fun _ => rfl, fun _ _ h => by cases h⟩

theorem mem_selected {db : Db} {subject i : String} {label : MemLabel} :
    i ∈ db.containers.select (fun _ r => r.subject = subject && r.label = label.asStr) ↔
      ∃ row, db.containers.get i = some row ∧ row.subject = subject ∧ row.label = label.asStr := by
  simp [Dict.mem_select]

theorem asStr_injective {l l' : MemLabel} (h : l.asStr = l'.asStr) : l = l' := by
  cases l <;> cases l' <;> first | rfl | exact absurd h (by decide)

/-- A mirrored container is what the store yields for its subject and label. -/
theorem Mirrored.load {w : World} (hw : Mirrored w) {c : TypedContainer} (h : Mirrors w.db c) :
    w.db.load c.subject c.label =
      some (w.db.loadContainer c.id ⟨c.subject, c.label.asStr, toI64 c.createdUnix⟩ c.label) := by
  have hmem : c.id ∈ w.db.containers.select
      fun _ r => r.subject = c.subject && r.label = c.label.asStr :=
    mem_selected.2 ⟨_, h.container, rfl, rfl⟩
  have hhead : (w.db.containers.select
      fun _ r => r.subject = c.subject && r.label = c.label.asStr).head? = some c.id := by
    obtain ⟨i, hi⟩ := Option.isSome_iff_exists.1 (List.isSome_head?.2 (List.ne_nil_of_mem hmem))
    obtain ⟨row, hrow, hsubject, hlabel⟩ := mem_selected.1 (List.mem_of_mem_head? (Option.mem_def.2 hi))
    rw [hi, hw.unique i c.id row _ hrow h.container hsubject hlabel]
  simp only [Db.load, hhead, h.container, Option.bind_eq_bind, Option.bind_some]

/-- The store yields nothing for a subject and a label without a container. -/
theorem load_eq_none {db : Db} {subject : String} {label : MemLabel} (h : db.load subject label = none) (i : String)
    (row : ContainerRow) (hrow : db.containers.get i = some row) :
    ¬ (row.subject = subject ∧ row.label = label.asStr) := by
  intro hmatch
  have hmem := mem_selected.2 ⟨row, hrow, hmatch⟩
  obtain ⟨j, hj⟩ := Option.isSome_iff_exists.1 (List.isSome_head?.2 (List.ne_nil_of_mem hmem))
  obtain ⟨row', hrow', -⟩ := mem_selected.1 (List.mem_of_mem_head? (Option.mem_def.2 hj))
  simp only [Db.load, hj, hrow', Option.bind_eq_bind, Option.bind_some] at h
  cases h

/-- What is loaded is what the rows of one container mirror. -/
theorem Mirrored.loaded {w : World} (hw : Mirrored w) {subject : String} {label : MemLabel}
    {c' : TypedContainer} (h : w.db.load subject label = some c') : Mirrors w.db c' := by
  cases hhead : (w.db.containers.select
      fun _ r => r.subject = subject && r.label = label.asStr).head? with
  | none => simp [Db.load, hhead] at h
  | some i =>
    obtain ⟨row, hrow, hsubject, hlabel⟩ := mem_selected.1 (List.mem_of_mem_head? (Option.mem_def.2 hhead))
    obtain ⟨c, rfl, hc⟩ := hw.rows i row hrow
    obtain rfl : _ = row := Option.some.inj (hc.container.symm.trans hrow)
    obtain rfl := asStr_injective hlabel
    obtain rfl := hsubject
    rw [hw.load hc] at h
    cases h
    exact hc.same hc.load

theorem openContainer_fresh {db : Db} {id : String} (hnew : db.containers.get id = none) (subject : String)
    (label : MemLabel) (now : Nat) : db.openContainer (.fresh id subject label now) =
      { db with containers := db.containers.set id ⟨subject, label.asStr, toI64 now⟩ } := by
  unfold Db.openContainer
  rw [if_neg (by simp [TypedContainer.fresh, Dict.has, hnew])]
  rfl

theorem mirrors_fresh {db : Db} {id : String} (hnew : db.containers.get id = none) (hvacant : db.Vacant id)
    (subject : String) (label : MemLabel) {now : Nat} (hnow : InColumn now) :
    Mirrors (db.openContainer (.fresh id subject label now)) (.fresh id subject label now) := by
  rw [openContainer_fresh hnew]
  refine ⟨?_, hvacant.entries, hvacant.attrs, fun x p => ?_, provenance_fresh _ _ _ _, hnow, fun k e he => ?_⟩
  · simp [TypedContainer.fresh, Dict.get_set]
  · constructor
    · exact fun he => absurd he (hvacant.edges x p)
    · intro hn
      cases hn
  · cases he

/-- A loaded container goes into the registry. -/
theorem Mirrored.cache {w : World} (hw : Mirrored w) {c : TypedContainer} (hc : Mirrors w.db c) :
    Mirrored { w with registry := w.registry.set c.id c } where
  rows := hw.rows
  registry h c' hget := by
    rw [Dict.get_set] at hget
    split_ifs at hget with hh
    · cases hget
      exact ⟨hh.symm, hc⟩
    · exact hw.registry h c' hget
  unique := hw.unique
  vacant := hw.vacant

/-- A new container is written to both. -/
theorem Mirrored.create {w : World} (hw : Mirrored w) {subject : String} {label : MemLabel}
    (hnone : w.db.load subject label = none) {id : String} {now : Nat} (hop : OpenPersists w id now) :
    Mirrored { w with
      registry := w.registry.set id (.fresh id subject label now)
      db := w.db.openContainer (.fresh id subject label now) } := by
  have hfresh := mirrors_fresh hop.1 (hw.vacant id hop.1) subject label hop.2
  have hrows : w.db.openContainer (.fresh id subject label now) =
      { w.db with containers := w.db.containers.set id ⟨subject, label.asStr, toI64 now⟩ } :=
    openContainer_fresh hop.1 subject label now
  rw [hrows] at hfresh ⊢
  have hother {i : String} (hi : i ≠ id) : SameRows w.db
      { w.db with containers := w.db.containers.set id ⟨subject, label.asStr, toI64 now⟩ } i :=
    ⟨by simp [Dict.get_set, hi], fun _ => rfl, fun _ => rfl, fun _ _ => Iff.rfl⟩
  refine ⟨fun i row hrow => ?_, fun h c hget => ?_, fun i i' row row' hrow hrow' hs hl => ?_, fun i hi => ?_⟩
  · by_cases hi : i = id
    · subst hi
      exact ⟨_, rfl, hfresh⟩
    · obtain ⟨c, rfl, hc⟩ := hw.rows i row (by simpa [Dict.get_set, hi] using hrow)
      exact ⟨c, rfl, hc.sameRows (hother hi)⟩
  · rw [Dict.get_set] at hget
    split_ifs at hget with hh
    · cases hget
      exact ⟨hh.symm, hfresh⟩
    · obtain ⟨rfl, hc⟩ := hw.registry h c hget
      exact ⟨rfl, hc.sameRows (hother hh)⟩
  · -- no container of the store has the subject and the label of the new one
    simp only [Dict.get_set] at hrow hrow'
    split_ifs at hrow hrow' with hi hi' hi'
    · exact hi.trans hi'.symm
    · cases hrow
      exact absurd ⟨hs.symm, hl.symm⟩ (load_eq_none hnone i' row' hrow')
    · cases hrow'
      exact absurd ⟨hs, hl⟩ (load_eq_none hnone i row hrow)
    · exact hw.unique i i' row row' hrow hrow' hs hl
  · simp only [Dict.get_set] at hi
    split_ifs at hi with hid
    have hv := hw.vacant i hi
    exact ⟨hv.entries, hv.attrs, hv.edges⟩

theorem Mirrored.open {w : World} (hw : Mirrored w) (subject : String) (label : MemLabel) (consented : Bool)
    {freshId : String} {now : Nat} (hop : OpenPersists w freshId now) :
    Mirrored (w.openContainer subject label consented freshId now) := by
  unfold World.openContainer
  split_ifs
  · exact hw
  · exact hw
  · exact hw
  · cases hload : w.db.load subject label with
    | some c => exact hw.cache (hw.loaded hload)
    | none => exact hw.create hload hop

theorem Mirrored.on {w : World} (hw : Mirrored w) {handle : String} {c : TypedContainer}
    (hget : w.registry.get handle = some c) {op : Op} (hop : Persists K ⟨w.grants, c⟩ op) :
    Mirrored ⟨w.registry.set handle (Mem.exec K ⟨w.grants, c⟩ op).1.container,
      (Mem.exec K ⟨w.grants, c⟩ op).1.grants, w.db.applyAll c.id (Mem.exec K ⟨w.grants, c⟩ op).2⟩ := by
  obtain ⟨rfl, hc⟩ := hw.registry handle c hget
  obtain ⟨hmirror, hid⟩ := Mirrors.exec (s := ⟨w.grants, c⟩) hc hop
  have hother {i : String} (hi : i ≠ c.id) := sameRows_applyAll w.db hi (Mem.exec K ⟨w.grants, c⟩ op).2
  have hconts := containers_applyAll w.db c.id (Mem.exec K ⟨w.grants, c⟩ op).2
  refine ⟨fun i row hrow => ?_, fun h c' hget' => ?_, fun i i' row row' hrow hrow' hs hl => ?_,
    fun i hi => ?_⟩
  · by_cases hi : i = c.id
    · exact ⟨_, hid.trans hi.symm, hmirror⟩
    · rw [hconts] at hrow
      obtain ⟨c₀, rfl, hc₀⟩ := hw.rows i row hrow
      exact ⟨c₀, rfl, hc₀.sameRows (hother hi)⟩
  · rw [Dict.get_set] at hget'
    split_ifs at hget' with hh
    · cases hget'
      exact ⟨hid.trans hh.symm, hmirror⟩
    · obtain ⟨rfl, hc'⟩ := hw.registry h c' hget'
      exact ⟨rfl, hc'.sameRows (hother hh)⟩
  · rw [hconts] at hrow hrow'
    exact hw.unique i i' row row' hrow hrow' hs hl
  · rw [hconts] at hi
    have hne : i ≠ c.id := by
      rintro rfl
      rw [hc.container] at hi
      cases hi
    have hv := hw.vacant i hi
    have hrows := hother hne
    exact ⟨fun k => (hrows.entries k).trans (hv.entries k), fun k => (hrows.attrs k).trans (hv.attrs k),
      fun x p he => hv.edges x p ((hrows.edges x p).1 he)⟩

theorem step_on (w : World) (handle : String) (op : Op) : w.step K (.on handle op) =
    match w.registry.get handle with
    | none => w
    | some c => ⟨w.registry.set handle (Mem.exec K ⟨w.grants, c⟩ op).1.container,
        (Mem.exec K ⟨w.grants, c⟩ op).1.grants, w.db.applyAll c.id (Mem.exec K ⟨w.grants, c⟩ op).2⟩ := by
  unfold World.step
  rfl

theorem Mirrored.step {w : World} {op : WorldOp} (hw : Mirrored w) (hop : w.Persists K op) :
    Mirrored (w.step K op) := by
  cases op with
  | «open» subject label consented freshId now => exact hw.open subject label consented hop
  | on handle op =>
    rw [step_on]
    cases hget : w.registry.get handle with
    | none => exact hw
    | some c => exact hw.on hget (hop c hget)
  | restart grants =>
    refine ⟨hw.rows, fun _ _ hget => ?_, hw.unique, hw.vacant⟩
    cases hget

/-- Every call of a run meets the condition where it is made. -/
def World.PersistsAll (K : Cipher) : World → List WorldOp → Prop
  | _, [] => True
  | w, op :: ops => w.Persists K op ∧ World.PersistsAll K (w.step K op) ops

theorem Mirrored.run {w : World} {ops : List WorldOp} (hw : Mirrored w) (hops : w.PersistsAll K ops) :
    Mirrored (w.run K ops) := by
  induction ops generalizing w with
  | nil => exact hw
  | cons op ops ih => exact ih (hw.step hops.1) hops.2

/-- In every run whose calls persist, over any number of containers and restarts, the store yields every
container of the registry as it is in memory. -/
theorem store_mirrors (K : Cipher) (ops : List WorldOp) (hops : World.PersistsAll K .start ops)
    (handle : String) (c : TypedContainer)
    (hc : (World.run K .start ops).registry.get handle = some c) :
    ∃ c', (World.run K .start ops).db.load c.subject c.label = some c' ∧ Same c c' := by
  have hw := mirrored_start.run hops
  have hmirror := (hw.registry handle c hc).2
  exact ⟨_, hw.load hmirror, hmirror.load⟩

theorem persists_put {s : Mem} {t : Clock} {nonce : ByteArray} {key text : String} {derivedFrom : List String}
    (hkey : key ∉ s.container.retained) (ht : InColumn (t 1)) :
    Persists K s (.put t nonce key text derivedFrom {}) where
  sweep _ h := by cases h
  put entry hok := by
    have hput := putEntry_ok hok
    have httl : Except.ok none = Except.ok entry.ttlUnix := hput.ttl
    refine ⟨hkey, ?_, ?_, fun t' ht' => ?_⟩
    · rwa [hput.created]
    · rwa [hput.touched]
    · rw [← Except.ok.inj httl] at ht'
      cases ht'
  front := trivial
  times := by
    refine ⟨fun _ h => ?_, fun _ _ h => ?_⟩
    · cases h
    · cases h

theorem persists_retain (s : Mem) (key : String) : Persists K s (.retain key) where
  sweep _ h := by cases h
  put := trivial
  front := trivial
  times := by
    refine ⟨fun _ h => ?_, fun _ _ h => ?_⟩
    · cases h
    · cases h

def Sample.onM (op : Op) : WorldOp := .on "m" op

def Sample.openM : WorldOp := .open "s" .pub false "m" 0

/-- A pinned entry, a new process, and an entry that derives from it. -/
def Sample.resumed : List WorldOp :=
  [Sample.openM, Sample.onM (Sample.put "a" []), Sample.onM (.retain "a"), .restart .empty,
    .open "s" .pub false "n" 0, Sample.onM (Sample.put "b" ["a"])]

theorem store_mirrors_resumed : ∃ c c',
    (World.run Sample.cipher .start Sample.resumed).registry.get "m" = some c ∧
    (World.run Sample.cipher .start Sample.resumed).db.load c.subject c.label = some c' ∧ Same c c' := by
  have hops : World.PersistsAll Sample.cipher .start Sample.resumed := by
    refine ⟨⟨rfl, by decide⟩, fun c hc => ?_, fun c _ => persists_retain _ _, trivial, ⟨?_, by decide⟩,
      fun c hc => ?_, trivial⟩
    · obtain rfl : TypedContainer.fresh "m" "s" .pub 0 = c := Option.some.inj hc
      exact persists_put (by decide) (by decide)
    · decide +kernel
    · refine persists_put ?_ (by decide)
      have hpins : ((World.run Sample.cipher .start (Sample.resumed.take 5)).registry.get "m").map
          (·.retained) = some {"a"} := by decide +kernel
      have hc : (World.run Sample.cipher .start (Sample.resumed.take 5)).registry.get "m" = some c := hc
      rw [hc] at hpins
      have hret : c.retained = {"a"} := Option.some.inj hpins
      show "b" ∉ c.retained
      rw [hret]
      decide
  have hsome : ((World.run Sample.cipher .start Sample.resumed).registry.get "m").isSome = true := by
    decide +kernel
  obtain ⟨c, hc⟩ := Option.isSome_iff_exists.1 hsome
  obtain ⟨c', hload, hsame⟩ := store_mirrors Sample.cipher Sample.resumed hops "m" c hc
  exact ⟨c, c', hc, hload, hsame⟩

/-- A pinned entry is overwritten. -/
def Sample.overwritten : List WorldOp :=
  [Sample.openM, Sample.onM (Sample.put "a" []), Sample.onM (.retain "a"), Sample.onM (Sample.put "a" [])]

theorem pin_lost : ¬ ∀ (K : Cipher) ops handle c, (World.run K .start ops).registry.get handle = some c →
    ∃ c', (World.run K .start ops).db.load c.subject c.label = some c' ∧ Same c c' := by
  intro h
  have hpins : ((World.run Sample.cipher .start Sample.overwritten).registry.get "m").map
      (fun c => (c.subject, c.label, c.retained)) = some ("s", .pub, {"a"}) := by decide +kernel
  have hstored : ((World.run Sample.cipher .start Sample.overwritten).db.load "s" .pub).map
      (·.retained) = some ∅ := by decide +kernel
  obtain ⟨c, hc, heq⟩ := Option.map_eq_some_iff.1 hpins
  simp only [Prod.mk.injEq] at heq
  obtain ⟨hsubject, hlabel, hretained⟩ := heq
  obtain ⟨c', hload, hsame⟩ := h Sample.cipher Sample.overwritten "m" c hc
  rw [hsubject, hlabel] at hload
  rw [hload] at hstored
  have hempty : c'.retained = ∅ := Option.some.inj hstored
  rw [hsame.pins, hretained] at hempty
  exact absurd hempty (by decide)

end Metalogos.Memory
