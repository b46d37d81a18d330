import Metalogos.Memory.Cascade

/-!
# Typed memory: the derived-from graph

The source calls the graph a DAG by construction, since a put checks that the parents exist before the
child. A key can be written again, though: over an entry that its new parents derive from, which closes a
cycle (`overwrite_cycle`), or after it was deleted while an entry that names it lives on, which the index
then does not know. `Grows` excludes the two; without them the graph stays acyclic and the index exact,
whatever is pinned, forgotten or expires.
-/
namespace Metalogos.Memory

open Metalogos.Lib Metalogos.Grants Relation

variable {K : Cipher}

structure Dag (c : TypedContainer) : Prop extends Linked c where
  acyclic : ∀ x, ¬ TransGen (Names c) x x
  index : ∀ {x p}, Names c x p → Live c p → Child c p x

/-- No parent of a written key is the key or derives from it, and a key that is new, or new again, is named
by no entry. -/
def Grows (K : Cipher) (s : Mem) : Op → Prop
  | .put t nonce key text derivedFrom opts =>
    ∀ entry, putEntry K s.container t nonce key text derivedFrom opts = .ok entry →
      (∀ p ∈ derivedFrom, ¬ Derived s.container p key) ∧
        (Live s.container key ∨ ∀ x, ¬ Names s.container x key)
  | _ => True

/-! ## Writing an entry -/

section

variable {c : TypedContainer} {key : String} {entry : TypedEntry}

/-- A chain up to the written key meets it first by old links. -/
theorem derived_of_insertEntry {x : String} (h : Derived (c.insertEntry key entry) x key) :
    Derived c x key := by
  induction h using ReflTransGen.head_induction_on with
  | refl => exact .refl
  | @head y z hs _ ih =>
    rw [Names, parents_insertEntry] at hs
    split_ifs at hs with hy
    · rw [hy]
      exact .refl
    · exact .head hs ih

/-- A chain is old, or passes the written key. -/
theorem chain_insertEntry {x y : String} (h : TransGen (Names (c.insertEntry key entry)) x y) :
    TransGen (Names c) x y ∨
      (Derived (c.insertEntry key entry) x key ∧ TransGen (Names (c.insertEntry key entry)) key y) := by
  have hold {a b : String} (hs : Names (c.insertEntry key entry) a b) (ha : a ≠ key) : Names c a b := by
    rwa [Names, parents_insertEntry, if_neg ha] at hs
  induction h with
  | @single b hs =>
    by_cases hx : x = key
    · rw [hx] at hs ⊢
      exact .inr ⟨.refl, .single hs⟩
    · exact .inl (.single (hold hs hx))
  | @tail b d hxb hs ih =>
    rcases ih with hall | ⟨hup, hdown⟩
    · by_cases hb : b = key
      · rw [hb] at hxb hs
        exact .inr ⟨hxb.to_reflTransGen, .single hs⟩
      · exact .inl (.tail hall (hold hs hb))
    · exact .inr ⟨hup, .tail hdown hs⟩

theorem acyclic_insertEntry (h : ∀ x, ¬ TransGen (Names c) x x)
    (hup : ∀ p ∈ entry.derivedFrom, ¬ Derived c p key) (x : String) :
    ¬ TransGen (Names (c.insertEntry key entry)) x x := by
  -- a cycle would pass the key and come back to it from one of its parents
  have hkey : ¬ TransGen (Names (c.insertEntry key entry)) key key := by
    intro hcycle
    obtain ⟨p, hp, hback⟩ := TransGen.head'_iff.1 hcycle
    rw [Names, parents_insertEntry, if_pos rfl] at hp
    exact hup p hp (derived_of_insertEntry hback)
  intro hcycle
  rcases chain_insertEntry hcycle with hold | ⟨hto, hfrom⟩
  · exact h x hold
  · exact hkey (hfrom.trans_left hto)

theorem Dag.insertEntry (h : Dag c) (hparents : ∀ p ∈ entry.derivedFrom, Live c p)
    (hup : ∀ p ∈ entry.derivedFrom, ¬ Derived c p key)
    (hnew : Live c key ∨ ∀ x, ¬ Names c x key) : Dag (c.insertEntry key entry) where
  toLinked := h.toLinked.insertEntry hparents
  acyclic := acyclic_insertEntry h.acyclic hup
  index {x p} hn hp := by
    rw [Names, parents_insertEntry] at hn
    rw [live_insertEntry] at hp
    rw [child_insertEntry key entry h.toLinked]
    split_ifs at hn ⊢ with hx
    · exact hn
    · rcases hp with rfl | hp
      · rcases hnew with hlive | hnone
        · exact h.index hn hlive
        · exact absurd hn (hnone x)
      · exact h.index hn hp

end

/-! ## Everything else -/

theorem Dag.removeAll {c : TypedContainer} (h : Dag c) (ks : List String) : Dag (c.removeAll ks) where
  toLinked := h.toLinked.removeAll
  acyclic x hcycle := by
    have hsub : ∀ a b, Names (c.removeAll ks) a b → Names c a b :=
      fun a b hab => ((names_removeAll c a b ks).1 hab).1
    exact h.acyclic x (TransGen.mono hsub x x hcycle)
  index {x p} hn hp := by
    obtain ⟨hn, hx⟩ := (names_removeAll c x p ks).1 hn
    obtain ⟨hp, hpk⟩ := (live_removeAll c p ks).1 hp
    exact (child_removeAll x p h.toLinked).2 ⟨h.index hn hp, hpk, hx⟩

theorem Dag.sameGraph {c c' : TypedContainer} (h : Dag c) (hs : SameGraph c c') : Dag c' := by
  have hnames : Names c' = Names c := by
    funext x p
    rw [Names, Names, hs.parents]
  refine ⟨hs.linked h.toLinked, ?_, fun {x p} hn hp => ?_⟩
  · rw [hnames]
    exact h.acyclic
  · rw [hnames] at hn
    rw [Child, TypedContainer.kids, hs.children]
    exact h.index hn ((hs.live p).1 hp)

theorem Dag.pins {c : TypedContainer} (h : Dag c) {ret : Finset String} (hret : ∀ x ∈ ret, Live c x) :
    Dag { c with retained := ret } where
  names := h.names
  live := h.live
  pinned := hret _
  acyclic := h.acyclic
  index := h.index

theorem Dag.performs {s : Mem} {op : Op} {ms : List Mutation} (h : Dag s.container) (hop : Grows K s op)
    (hp : Performs K s op ms) : Dag (s.container.mutateAll ms) := by
  have hl := h.toLinked.performs hp
  cases hp with
  | nothing => exact h
  | put hok =>
    have hput := putEntry_ok hok
    obtain ⟨hup, hnew⟩ := hop _ hok
    refine h.insertEntry (fun p hp => ?_) (fun p hp => ?_) hnew
    · rw [hput.derivedFrom] at hp
      exact hput.parents p hp
    · rw [hput.derivedFrom] at hp
      exact hup p hp
  | attrs => exact (h.removeAll _).sameGraph (sameGraph_changes _ _)
  | pin => exact h.pins fun x => hl.pinned
  | unpin => exact h.pins fun x => hl.pinned
  | front =>
    rw [mutateAll_cons, mutateAll_append]
    exact ((h.removeAll _).sameGraph (sameGraph_changes _ _)).removeAll _
  | cascade => exact h.removeAll _
  | quarantine => exact (h.removeAll _).sameGraph (sameGraph_changes _ _)

theorem dag_fresh (id subject : String) (label : MemLabel) (now : Nat) :
    Dag (.fresh id subject label now) where
  toLinked := linked_fresh id subject label now
  acyclic x hcycle := by
    obtain ⟨p, hp, -⟩ := TransGen.head'_iff.1 hcycle
    cases hp
  index hn := by cases hn

/-- Where every put grows the graph upwards, `derived_from` has no cycle and the index is its inverse in
every state, whatever else is called. -/
theorem graph_is_dag (id subject : String) (label : MemLabel) (now : Nat) (ops : List Op)
    (hops : Along K (Grows K) (.start id subject label now) ops) (c : TypedContainer)
    (hc : c = ((Mem.start id subject label now).run K ops).container) :
    (∀ x, ¬ TransGen (Names c) x x) ∧
      ∀ p x, Live c p → Live c x → (x ∈ c.kids p ↔ p ∈ c.parents x) := by
  have h : Dag c := by
    rw [hc]
    refine Mem.run_invariant (P := fun s => Dag s.container) (dag_fresh id subject label now) ?_ ops hops
    intro s op ms hs hop hp hstep
    rw [hstep]
    exact hs.performs hop hp
  exact ⟨h.acyclic, fun p x hp _ => ⟨h.names, fun hn => h.index hn hp⟩⟩

/-- A key that no entry names can be written with any other parents. -/
theorem grows_of_unnamed {s : Mem} {key : String} {derivedFrom : List String}
    (hnone : ∀ x, ¬ Names s.container x key) (hself : key ∉ derivedFrom) (t : Clock) (nonce : ByteArray)
    (text : String) (opts : PutOpts) : Grows K s (.put t nonce key text derivedFrom opts) := by
  intro entry _
  refine ⟨fun p hp hd => ?_, .inr hnone⟩
  cases hd with
  | refl => exact hself hp
  | tail _ hs => exact hnone _ hs

theorem unnamed_of_pairs {c : TypedContainer} {key : String}
    (h : c.entries.pairs.all (fun q => key ∉ q.2.derivedFrom) = true) (x : String) : ¬ Names c x key := by
  intro hn
  obtain ⟨e, he, hmem⟩ := names_iff.1 hn
  have hq := List.all_eq_true.1 h _ (Dict.mem_pairs_of_get he)
  exact absurd hmem (by simpa using hq)

/-- A chain of two, the second of them overwritten with the same parent. -/
def Sample.rewritten : List Op := [Sample.put "a" [], Sample.put "b" ["a"], Sample.put "b" ["a"]]

theorem graph_is_dag_rewritten :
    ¬ TransGen (Names ((Mem.start "m" "s" .pub 0).run Sample.cipher Sample.rewritten).container) "a" "a" := by
  have hops : Along Sample.cipher (Grows Sample.cipher) (.start "m" "s" .pub 0) Sample.rewritten := by
    refine ⟨grows_of_unnamed (unnamed_of_pairs ?_) (by decide) _ _ _ _,
      grows_of_unnamed (unnamed_of_pairs ?_) (by decide) _ _ _ _,
      grows_of_unnamed (unnamed_of_pairs ?_) (by decide) _ _ _ _, trivial⟩
    · decide +kernel
    · decide +kernel
    · decide +kernel
  exact (graph_is_dag "m" "s" .pub 0 Sample.rewritten hops _ rfl).1 "a"

/-- An overwrite that names an entry derived from the key. -/
theorem overwrite_cycle : ¬ ∀ (K : Cipher) id subject label now (ops : List Op) x,
    ¬ TransGen (Names ((Mem.start id subject label now).run K ops).container) x x := by
  intro h
  refine h Sample.cipher "m" "s" .pub 0 [Sample.put "a" [], Sample.put "b" ["a"], Sample.put "a" ["b"]] "a" ?_
  have hup : "b" ∈ ((Mem.start "m" "s" .pub 0).run Sample.cipher
      [Sample.put "a" [], Sample.put "b" ["a"], Sample.put "a" ["b"]]).container.parents "a" := by
    decide +kernel
  have hdown : "a" ∈ ((Mem.start "m" "s" .pub 0).run Sample.cipher
      [Sample.put "a" [], Sample.put "b" ["a"], Sample.put "a" ["b"]]).container.parents "b" := by
    decide +kernel
  exact .tail (.single hup) hdown

end Metalogos.Memory
