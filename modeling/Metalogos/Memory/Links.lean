import Metalogos.Memory.Container

/-!
# Typed memory: the children index

What the operations on the index do, as membership: `x ∈ c.kids p` after an entry is written or taken out,
and the closure that `plan_cascade` computes. The index is maintained in steps while `derived_from` is the
ground truth. In one direction it is always right (`Linked`): a key stands in the list of a live entry only
if it names that entry. That is what makes an overwrite, which cleans the lists of the old parents only,
clean all of them.
-/
namespace Metalogos.Memory

open Metalogos.Lib Metalogos.Grants Relation

/-! ## Lists of the index -/

section

variable (ch : Dict String (List String)) (k p : String)

theorem kidsOf_erase : kidsOf (ch.erase k) p = if p = k then [] else kidsOf ch p := by
  simp only [kidsOf, Dict.get_erase]
  split_ifs <;> rfl

theorem kidsOf_set (l : List String) : kidsOf (ch.set k l) p = if p = k then l else kidsOf ch p := by
  simp only [kidsOf, Dict.get_set]
  split_ifs <;> rfl

theorem kidsOf_modify (f : List String → List String) (hf : f [] = []) :
    kidsOf (ch.modify k f) p = if p = k then f (kidsOf ch p) else kidsOf ch p := by
  simp only [kidsOf, Dict.get_modify]
  split_ifs
  · cases ch.get p <;> simp [hf]
  · rfl

variable {ch k p} {x : String}

theorem mem_kidsOf_unlink {ps : List String} :
    x ∈ kidsOf (unlink ch k ps) p ↔ x ∈ kidsOf ch p ∧ ¬ (x = k ∧ p ∈ ps) := by
  induction ps generalizing ch with
  | nil => simp [unlink]
  | cons q ps ih =>
    have hcons : unlink ch k (q :: ps) = unlink (ch.modify q (·.filter (· ≠ k))) k ps := rfl
    rw [hcons, ih, kidsOf_modify _ _ _ _ rfl, List.mem_cons]
    by_cases hq : p = q
    · subst hq
      by_cases hx : x = k <;> simp [hx]
    · simp [hq]

theorem mem_kidsOf_link {ps : List String} :
    x ∈ kidsOf (link ch k ps) p ↔ x ∈ kidsOf ch p ∨ (x = k ∧ p ∈ ps) := by
  induction ps generalizing ch with
  | nil => simp [link]
  | cons q ps ih =>
    have hcons : link ch k (q :: ps) = link (ch.set q (kidsOf ch q ++ [k])) k ps := rfl
    rw [hcons, ih, kidsOf_set, List.mem_cons]
    by_cases hq : p = q
    · subst hq
      by_cases hx : x = k <;> simp [hx]
    · simp [hq]

theorem unlink_erase {ps : List String} : unlink (ch.erase k) k ps = (unlink ch k ps).erase k := by
  induction ps generalizing ch with
  | nil => rfl
  | cons q ps ih =>
    have hcons (ch : Dict String (List String)) :
        unlink ch k (q :: ps) = unlink (ch.modify q (·.filter (· ≠ k))) k ps := rfl
    rw [hcons, hcons, ← Dict.modify_erase, ih]

end

/-! ## The index against the ground truth -/

/-- `x` names `p` as something it derives from. -/
def Names (c : TypedContainer) (x p : String) : Prop := p ∈ c.parents x

/-- A link of the index. -/
def Child (c : TypedContainer) (p x : String) : Prop := x ∈ c.kids p

def Live (c : TypedContainer) (x : String) : Prop := c.entries.has x = true

structure Linked (c : TypedContainer) : Prop where
  names : ∀ {p x}, Child c p x → Names c x p
  live : ∀ {p x}, Child c p x → Live c p
  pinned : ∀ {x}, x ∈ c.retained → Live c x

theorem live_iff {c : TypedContainer} {x : String} : Live c x ↔ ∃ e, c.entries.get x = some e :=
  c.entries.has_eq_true x

theorem names_iff {c : TypedContainer} {x p : String} :
    Names c x p ↔ ∃ e, c.entries.get x = some e ∧ p ∈ e.derivedFrom := by
  simp only [Names, TypedContainer.parents]
  cases c.entries.get x <;> simp

theorem Names.live {c : TypedContainer} {x p : String} (h : Names c x p) : Live c x := by
  obtain ⟨e, he, -⟩ := names_iff.1 h
  exact live_iff.2 ⟨e, he⟩

theorem linked_fresh (id subject : String) (label : MemLabel) (now : Nat) :
    Linked (.fresh id subject label now) where
  names h := by simp [Child, TypedContainer.kids, TypedContainer.fresh, kidsOf] at h
  live h := by simp [Child, TypedContainer.kids, TypedContainer.fresh, kidsOf] at h
  pinned h := by simp [TypedContainer.fresh] at h

/-! ## Writing an entry -/

section

variable (c : TypedContainer) (key : String) (entry : TypedEntry) (x p : String)

theorem get_insertEntry :
    (c.insertEntry key entry).entries.get x = if x = key then some entry else c.entries.get x :=
  c.entries.get_set key x entry

theorem parents_insertEntry :
    (c.insertEntry key entry).parents x = if x = key then entry.derivedFrom else c.parents x := by
  simp only [TypedContainer.parents, get_insertEntry]
  split_ifs <;> rfl

variable {c} {x p}

theorem child_insertEntry (h : Linked c) :
    Child (c.insertEntry key entry) p x ↔ if x = key then p ∈ entry.derivedFrom else Child c p x := by
  simp only [Child, TypedContainer.kids, TypedContainer.insertEntry, mem_kidsOf_link, mem_kidsOf_unlink]
  by_cases hx : x = key
  · subst hx
    -- the key stands in the lists of its old parents only
    have hold : x ∈ kidsOf c.children p → p ∈ c.parents x := fun hc => h.names hc
    simp only [true_and, if_true]
    constructor
    · rintro (⟨hc, hn⟩ | hp)
      · exact absurd (hold hc) hn
      · exact hp
    · exact .inr
  · simp [hx]

theorem live_insertEntry : Live (c.insertEntry key entry) x ↔ x = key ∨ Live c x := by
  rw [live_iff, live_iff, get_insertEntry]
  by_cases hx : x = key <;> simp [hx]

variable {key entry}

theorem Linked.insertEntry (h : Linked c) (hparents : ∀ p ∈ entry.derivedFrom, Live c p) :
    Linked (c.insertEntry key entry) where
  names {p x} hc := by
    rw [child_insertEntry key entry h] at hc
    rw [Names, parents_insertEntry]
    split_ifs at hc ⊢
    · exact hc
    · exact h.names hc
  live {p x} hc := by
    rw [child_insertEntry key entry h] at hc
    rw [live_insertEntry]
    split_ifs at hc
    · exact .inr (hparents p hc)
    · exact .inr (h.live hc)
  pinned {x} hx := (live_insertEntry key entry).2 (.inr (h.pinned hx))

end

/-! ## Taking entries out -/

section

variable (c : TypedContainer) (k x p : String)

theorem get_removeEntry :
    (c.removeEntry k).entries.get x = if x = k then none else c.entries.get x :=
  c.entries.get_erase k x

theorem live_removeEntry : Live (c.removeEntry k) x ↔ Live c x ∧ x ≠ k := by
  rw [live_iff, live_iff, get_removeEntry]
  by_cases hx : x = k <;> simp [hx]

variable {c}

theorem child_removeEntry (h : Linked c) :
    Child (c.removeEntry k) p x ↔ Child c p x ∧ p ≠ k ∧ x ≠ k := by
  simp only [Child, TypedContainer.kids, TypedContainer.removeEntry, kidsOf_erase]
  by_cases hp : p = k
  · simp [hp]
  · have hold : x ∈ kidsOf c.children p → p ∈ c.parents x := fun hc => h.names hc
    rw [if_neg hp, mem_kidsOf_unlink]
    constructor
    · rintro ⟨hc, hn⟩
      refine ⟨hc, hp, ?_⟩
      rintro rfl
      exact hn ⟨rfl, hold hc⟩
    · rintro ⟨hc, -, hx⟩
      exact ⟨hc, fun hn => hx hn.1⟩

theorem Linked.removeEntry (h : Linked c) : Linked (c.removeEntry k) where
  names {p x} hc := by
    obtain ⟨hc, -, hx⟩ := (child_removeEntry k x p h).1 hc
    obtain ⟨e, he, hp⟩ := names_iff.1 (h.names hc)
    exact names_iff.2 ⟨e, by rw [get_removeEntry, if_neg hx, he], hp⟩
  live {p x} hc := by
    obtain ⟨hc, hp, -⟩ := (child_removeEntry k x p h).1 hc
    exact (live_removeEntry c k p).2 ⟨h.live hc, hp⟩
  pinned {x} hx := by
    have hx : x ≠ k ∧ x ∈ c.retained := by simpa [TypedContainer.removeEntry] using hx
    exact (live_removeEntry c k x).2 ⟨h.pinned hx.2, hx.1⟩

/-- Any number of entries, one after the other. -/
def TypedContainer.removeAll (c : TypedContainer) (ks : List String) : TypedContainer :=
  ks.foldl .removeEntry c

variable {ks : List String}

theorem Linked.removeAll (h : Linked c) : Linked (c.removeAll ks) := by
  induction ks generalizing c with
  | nil => exact h
  | cons k ks ih => exact ih (h.removeEntry k)

variable (c ks)

theorem get_removeAll : (c.removeAll ks).entries.get x = if x ∈ ks then none else c.entries.get x := by
  induction ks generalizing c with
  | nil => simp [TypedContainer.removeAll]
  | cons k ks ih =>
    have hcons : c.removeAll (k :: ks) = (c.removeEntry k).removeAll ks := rfl
    rw [hcons, ih, get_removeEntry]
    simp only [List.mem_cons]
    by_cases hk : x = k <;> by_cases hks : x ∈ ks <;> simp [hk, hks]

theorem retained_removeAll : (c.removeAll ks).retained = c.retained \ ks.toFinset := by
  induction ks generalizing c with
  | nil => simp [TypedContainer.removeAll]
  | cons k ks ih =>
    have hcons : c.removeAll (k :: ks) = (c.removeEntry k).removeAll ks := rfl
    rw [hcons, ih]
    ext y
    simp only [TypedContainer.removeEntry, Finset.mem_sdiff, Finset.mem_erase, List.mem_toFinset,
      List.mem_cons, not_or]
    exact ⟨fun hy => ⟨hy.1.2, hy.1.1, hy.2⟩, fun hy => ⟨⟨hy.2.1, hy.1⟩, hy.2.2⟩⟩

theorem live_removeAll : Live (c.removeAll ks) x ↔ Live c x ∧ x ∉ ks := by
  rw [live_iff, live_iff, get_removeAll]
  by_cases hx : x ∈ ks <;> simp [hx]

theorem names_removeAll : Names (c.removeAll ks) x p ↔ Names c x p ∧ x ∉ ks := by
  rw [names_iff, names_iff, get_removeAll]
  by_cases hx : x ∈ ks <;> simp [hx]

variable {c ks}

theorem child_removeAll (h : Linked c) :
    Child (c.removeAll ks) p x ↔ Child c p x ∧ p ∉ ks ∧ x ∉ ks := by
  induction ks generalizing c with
  | nil => simp [TypedContainer.removeAll]
  | cons k ks ih =>
    have hcons : c.removeAll (k :: ks) = (c.removeEntry k).removeAll ks := rfl
    rw [hcons, ih (h.removeEntry k), child_removeEntry k x p h, List.mem_cons, List.mem_cons]
    tauto

/-- The cascade takes the entries out one by one, each from the lists of the parents it had at first. -/
theorem removeClosure_eq (hnodup : ks.Nodup) : c.removeClosure ks = c.removeAll ks := by
  have hone (c : TypedContainer) (k : String) : c.cascadeEntry (k, c.parents k) = c.removeEntry k := by
    simp only [TypedContainer.cascadeEntry, TypedContainer.removeEntry, unlink_erase]
  have hfold (ps : String → List String) : ∀ ks : List String, ks.Nodup → ∀ c : TypedContainer,
      (∀ k ∈ ks, c.parents k = ps k) →
      (ks.map fun d => (d, ps d)).foldl TypedContainer.cascadeEntry c = c.removeAll ks := by
    intro ks hnd
    induction ks with
    | nil => exact fun _ _ => rfl
    | cons k ks ih =>
      intro c hps
      have hk := hps k (by simp)
      rw [List.map_cons, List.foldl_cons, ← hk, hone]
      refine ih (List.nodup_cons.1 hnd).2 _ fun k' hk' => ?_
      have hne : k' ≠ k := by
        rintro rfl
        exact (List.nodup_cons.1 hnd).1 hk'
      rw [← hps k' (by simp [hk']), TypedContainer.parents, TypedContainer.parents, get_removeEntry,
        if_neg hne]
  exact hfold c.parents ks hnodup c fun _ _ => rfl

end

/-! ## The closure -/

/-- Reachable from `k` through the index. -/
def Reaches (c : TypedContainer) : String → String → Prop := ReflTransGen (Child c)

theorem kidsOf_subset {ch : Dict String (List String)} {p x : String} (h : x ∈ kidsOf ch p) :
    x ∈ ch.pairs.flatMap (·.2) := by
  unfold kidsOf at h
  cases hg : ch.get p with
  | none => simp [hg] at h
  | some l =>
    rw [hg, Option.getD_some] at h
    exact List.mem_flatMap.2 ⟨(p, l), Dict.mem_pairs_of_get hg, h⟩

section

variable (root : String) (ch : Dict String (List String)) (ret : Finset String)

theorem reach_subset {x : String} (h : ReflTransGen (Links (kidsOf ch)) root x) :
    x ∈ root :: ch.pairs.flatMap (·.2) := by
  cases h with
  | refl => exact List.mem_cons_self
  | tail _ hs => exact List.mem_cons_of_mem _ (kidsOf_subset hs)

theorem mem_closure {x : String} :
    x ∈ (planCascade root ch ret).closure ↔ ReflTransGen (Links (kidsOf ch)) root x := by
  simp only [planCascade, List.mem_insertionSort]
  exact mem_bfs (fun x => reach_subset root ch) (by simp [searchFuel])

theorem nodup_closure : (planCascade root ch ret).closure.Nodup := by
  simp only [planCascade]
  rw [(List.perm_insertionSort _ _).nodup_iff]
  exact nodup_bfs (fun x => reach_subset root ch) (by simp [searchFuel])

theorem mem_blockedBy {x : String} : x ∈ (planCascade root ch ret).blockedBy ↔
    x ∈ (planCascade root ch ret).closure ∧ x ∈ ret := by
  simp [planCascade]

end

theorem mem_plan {c : TypedContainer} {root x : String} {ret : Finset String} :
    x ∈ (planCascade root c.children ret).closure ↔ Reaches c root x :=
  mem_closure root c.children ret

theorem Linked.reaches_live {c : TypedContainer} (h : Linked c) {k x : String} (hk : Live c k)
    (hr : Reaches c k x) : Live c x := by
  cases hr with
  | refl => exact hk
  | tail _ hs => exact (h.names hs).live

end Metalogos.Memory
