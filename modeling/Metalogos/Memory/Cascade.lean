import Metalogos.Memory.Run

/-!
# Typed memory: cascading forgetting

`put` without a lifetime, `retain`, `release` and `forget_cascade` keep the index the exact inverse of
`derived_from`, and every parent of an entry alive: an entry goes only together with all that derives from
it. The graph may have cycles (an overwrite can close one); nothing here depends on it. So a cascade
deletes exactly what derives from its root and leaves everything else as it was.
-/
namespace Metalogos.Memory

open Metalogos.Lib Metalogos.Grants Relation

variable {K : Cipher}

/-- `x` is `k` or derives from it. -/
def Derived (c : TypedContainer) : String → String → Prop := ReflTransGen (Names c)

structure Provenance (c : TypedContainer) : Prop extends Linked c where
  index : ∀ {x p}, Names c x p → Child c p x
  parents_live : ∀ {x p}, Names c x p → Live c p

/-- A run of these needs no sweep. -/
def Op.Plain : Op → Prop
  | .put _ _ _ _ _ opts => opts.ttlSecs = none
  | .retain _ => True
  | .release _ => True
  | .forgetCascade _ _ _ => True
  | .grants _ => True
  | _ => False

theorem sweepOf_plain {s : Mem} {op : Op} (h : op.Plain) : s.sweepOf op = none := by
  cases op with
  | grants => rfl
  | put => rfl
  | retain => rfl
  | release => rfl
  | forgetCascade => rfl
  | read => cases h
  | keys => cases h
  | «recall» => cases h
  | retainTtl => cases h
  | forgetFront => cases h
  | consentRevoked => cases h

theorem Provenance.reaches_iff {c : TypedContainer} (h : Provenance c) {k x : String} :
    Reaches c k x ↔ Derived c x k := by
  rw [Derived, Reaches, ← reflTransGen_swap]
  have hrel : Function.swap (Child c) = Names c := by
    funext x p
    exact propext ⟨h.names, h.index⟩
  rw [hrel]

theorem Provenance.insertEntry {c : TypedContainer} (h : Provenance c) {key : String} {entry : TypedEntry}
    (hparents : ∀ p ∈ entry.derivedFrom, Live c p) : Provenance (c.insertEntry key entry) where
  toLinked := h.toLinked.insertEntry hparents
  index {x p} hn := by
    rw [Names, parents_insertEntry] at hn
    rw [child_insertEntry key entry h.toLinked]
    split_ifs at hn ⊢
    · exact hn
    · exact h.index hn
  parents_live {x p} hn := by
    rw [Names, parents_insertEntry] at hn
    rw [live_insertEntry]
    split_ifs at hn
    · exact .inr (hparents p hn)
    · exact .inr (h.parents_live hn)

/-- Entries go together with what derives from them. -/
theorem Provenance.removeAll {c : TypedContainer} (h : Provenance c) {ks : List String}
    (hclosed : ∀ x p, Names c x p → p ∈ ks → x ∈ ks) : Provenance (c.removeAll ks) where
  toLinked := h.toLinked.removeAll
  index {x p} hn := by
    obtain ⟨hn, hx⟩ := (names_removeAll c x p ks).1 hn
    exact (child_removeAll x p h.toLinked).2 ⟨h.index hn, fun hp => hx (hclosed x p hn hp), hx⟩
  parents_live {x p} hn := by
    obtain ⟨hn, hx⟩ := (names_removeAll c x p ks).1 hn
    exact (live_removeAll c p ks).2 ⟨h.parents_live hn, fun hp => hx (hclosed x p hn hp)⟩

theorem Provenance.pins {c : TypedContainer} (h : Provenance c) {ret : Finset String}
    (hret : ∀ x ∈ ret, Live c x) : Provenance { c with retained := ret } where
  names := h.names
  live := h.live
  pinned := hret _
  index := h.index
  parents_live := h.parents_live

theorem Provenance.performs {s : Mem} {op : Op} {ms : List Mutation} (h : Provenance s.container)
    (hop : op.Plain) (hp : Performs K s op ms) : Provenance (s.container.mutateAll ms) := by
  have hnone : s.sweepOf op = none := sweepOf_plain hop
  cases hp with
  | nothing => exact h
  | put hok =>
    have hput := putEntry_ok hok
    refine h.insertEntry fun p hmem => hput.parents p ?_
    rwa [hput.derivedFrom] at hmem
  | attrs hs =>
    rw [hnone] at hs
    cases hs
  | pin hlive =>
    refine h.pins fun x hx => ?_
    rcases Finset.mem_union.1 hx with hx | hx
    · exact h.pinned hx
    · exact h.reaches_live hlive (mem_plan.1 (List.mem_toFinset.1 hx))
  | unpin hlive => exact h.pins fun x hx => h.pinned (Finset.mem_sdiff.1 hx).1
  | front => cases hop
  | cascade hlive hfree hclosure =>
    refine h.removeAll fun x p hn hp => ?_
    rw [hclosure] at hp ⊢
    exact hp.tail (h.index hn)
  | quarantine => cases hop

theorem provenance_fresh (id subject : String) (label : MemLabel) (now : Nat) :
    Provenance (.fresh id subject label now) where
  toLinked := linked_fresh id subject label now
  index hn := by cases hn
  parents_live hn := by cases hn

theorem provenance_run (id subject : String) (label : MemLabel) (now : Nat) (ops : List Op)
    (hops : ∀ op ∈ ops, op.Plain) :
    Provenance ((Mem.start id subject label now).run K ops).container := by
  have hplain : Along K (fun _ op => op.Plain) (.start id subject label now) ops :=
    along_of_forall (fun op hop _ => hops op hop) _
  refine Mem.run_invariant (P := fun s => Provenance s.container) (provenance_fresh id subject label now)
    ?_ ops hplain
  intro s op ms h hop hp hc
  rw [hc]
  exact h.performs hop hp

/-! ## One cascade -/

/-- What a cascade that succeeds leaves: everything but the closure, as it was. -/
structure Forgotten (c c' : TypedContainer) (key : String) (deleted : List String) : Prop where
  deleted : ∀ x, x ∈ deleted ↔ Derived c x key
  gone : ∀ x, Derived c x key → c'.entries.get x = none
  kept : ∀ x, ¬ Derived c x key → c'.entries.get x = c.entries.get x
  parents : ∀ x p, Live c' x → Names c x p → Live c' p
  pins : ∀ x, ¬ Derived c x key → (x ∈ c'.retained ↔ x ∈ c.retained)
  index : ∀ p x, ¬ Derived c p key → ¬ Derived c x key → (x ∈ c'.kids p ↔ x ∈ c.kids p)
  identity : c'.id = c.id ∧ c'.subject = c.subject ∧ c'.label = c.label ∧ c'.createdUnix = c.createdUnix

theorem removeAll_identity (c : TypedContainer) (ks : List String) :
    (c.removeAll ks).id = c.id ∧ (c.removeAll ks).subject = c.subject ∧
      (c.removeAll ks).label = c.label ∧ (c.removeAll ks).createdUnix = c.createdUnix := by
  induction ks generalizing c with
  | nil => exact ⟨rfl, rfl, rfl, rfl⟩
  | cons k ks ih => exact ih (c.removeEntry k)

theorem Provenance.forgotten {c : TypedContainer} (h : Provenance c) {key : String} {closure : List String}
    (hclosure : ∀ x, x ∈ closure ↔ Reaches c key x) : Forgotten c (c.removeAll closure) key closure := by
  have hmem (x : String) : x ∈ closure ↔ Derived c x key := (hclosure x).trans h.reaches_iff
  refine ⟨hmem, fun x hx => ?_, fun x hx => ?_, fun x p hx hn => ?_, fun x hx => ?_, fun p x hp hx => ?_,
    removeAll_identity c closure⟩
  · rw [get_removeAll, if_pos ((hmem x).2 hx)]
  · rw [get_removeAll, if_neg fun hin => hx ((hmem x).1 hin)]
  · have hsurvives := ((live_removeAll c x closure).1 hx).2
    refine (live_removeAll c p closure).2 ⟨h.parents_live hn, fun hin => hsurvives ?_⟩
    exact (hmem x).2 (.head hn ((hmem p).1 hin))
  · rw [retained_removeAll, Finset.mem_sdiff, List.mem_toFinset, hmem]
    exact ⟨fun hr => hr.1, fun hr => ⟨hr, hx⟩⟩
  · have hchild : Child (c.removeAll closure) p x ↔ Child c p x ∧ p ∉ closure ∧ x ∉ closure :=
      child_removeAll x p h.toLinked
    rw [hmem, hmem] at hchild
    exact hchild.trans ⟨fun hc => hc.1, fun hc => ⟨hc, hp, hx⟩⟩

theorem forgetCascade_ok {c : TypedContainer} (h : Provenance c) {l : GrantLedger} {t : Clock} {key : String}
    {grant : GrantHandle} {deleted : List String} (hok : (forgetCascade l c t key grant).res = .ok deleted) :
    Forgotten c (forgetCascade l c t key grant).container key deleted := by
  unfold forgetCascade at hok ⊢
  cases hg : forgetGates l c.id (t 0) grant with
  | error e =>
    rw [hg] at hok
    cases hok
  | ok u =>
    rw [hg] at hok
    have hsec := charge_ok _ _ _ _ hok
    simp only [charge_container]
    rcases cascadeSection_cases c key with ⟨e, hs⟩ | ⟨-, -, closure, hclosure, hs⟩
    · rw [hs] at hsec
      cases hsec
    · rw [hs] at hsec ⊢
      obtain rfl : closure = deleted := Except.ok.inj hsec
      exact h.forgotten hclosure

/-- A pin in the closure is a veto. -/
theorem forgetCascade_veto {c : TypedContainer} (h : Provenance c) {x key : String} (hx : Derived c x key)
    (hpin : x ∈ c.retained) (l : GrantLedger) (t : Clock) (grant : GrantHandle) :
    (∃ e, (forgetCascade l c t key grant).res = .error e) ∧
      (forgetCascade l c t key grant).container = c := by
  unfold forgetCascade
  cases forgetGates l c.id (t 0) grant with
  | error e => exact ⟨⟨e, rfl⟩, rfl⟩
  | ok u =>
    simp only [charge_container]
    rcases cascadeSection_cases c key with ⟨e, hs⟩ | ⟨-, hfree, -⟩
    · rw [hs]
      exact ⟨⟨e, rfl⟩, rfl⟩
    · exact absurd hpin (hfree x (h.reaches_iff.2 hx))

/-- In every state that puts without a lifetime, pins and cascades reach, the index is the inverse of
`derived_from` and every parent is alive; so a cascade deletes what derives from its root and nothing else,
and refuses where a pin stands in the way. -/
theorem cascade_keeps_provenance (id subject : String) (label : MemLabel) (now : Nat) (ops : List Op)
    (hops : ∀ op ∈ ops, op.Plain) (c : TypedContainer)
    (hc : c = ((Mem.start id subject label now).run K ops).container) :
    (∀ p x, Live c p → Live c x → (x ∈ c.kids p ↔ p ∈ c.parents x)) ∧
    (∀ x p, p ∈ c.parents x → Live c p) ∧
    ∀ l t key grant,
      (∀ deleted, (forgetCascade l c t key grant).res = .ok deleted →
        Forgotten c (forgetCascade l c t key grant).container key deleted) ∧
      ∀ x, Derived c x key → x ∈ c.retained →
        (∃ e, (forgetCascade l c t key grant).res = .error e) ∧
          (forgetCascade l c t key grant).container = c := by
  have h : Provenance c := by
    rw [hc]
    exact provenance_run id subject label now ops hops
  refine ⟨fun p x _ _ => ⟨h.names, h.index⟩, fun x p => h.parents_live, fun l t key grant => ⟨?_, ?_⟩⟩
  · exact fun deleted => forgetCascade_ok h
  · exact fun x hx hpin => forgetCascade_veto h hx hpin l t grant

/-- Public containers need no cipher. -/
def Sample.cipher : Cipher := ⟨fun _ _ _ => .error "no key", fun _ _ => .error "no key"⟩

def Sample.put (key : String) (derivedFrom : List String) : Op :=
  .put (fun _ => 10) .empty key "text" derivedFrom {}

/-- A grant to forget anything, as the program holds it. -/
def Sample.eraser : GrantHandle := ⟨⟨1, 0⟩, "memory:*:*", .unlimited, 110, "program"⟩

def Sample.issueEraser : Op :=
  .grants (.issue (fun _ => 10) 1 [.string "memory:*:*", .number (.whole 100), .string "unlimited"])

/-- A chain of two, the first of them overwritten, and one apart. -/
def Sample.notes : List Op :=
  [Sample.issueEraser, Sample.put "a" [], Sample.put "b" ["a", "a"], Sample.put "a" [], Sample.put "z" []]

def Sample.noted : Mem := (Mem.start "m" "s" .pub 0).run Sample.cipher Sample.notes

theorem cascade_keeps_provenance_notes :
    Forgotten Sample.noted.container
      (forgetCascade Sample.noted.grants Sample.noted.container (fun _ => 20) "a" Sample.eraser).container
      "a" ["a", "b"] := by
  have hplain : ∀ op ∈ Sample.notes, op.Plain := by
    intro op hop
    simp only [Sample.notes, List.mem_cons, List.not_mem_nil, or_false] at hop
    rcases hop with rfl | rfl | rfl | rfl | rfl
    · trivial
    · rfl
    · rfl
    · rfl
    · rfl
  have hok : (forgetCascade Sample.noted.grants Sample.noted.container (fun _ => 20) "a" Sample.eraser).res =
      .ok ["a", "b"] := by decide +kernel
  exact ((cascade_keeps_provenance "m" "s" .pub 0 Sample.notes hplain Sample.noted.container rfl).2.2
    Sample.noted.grants (fun _ => 20) "a" Sample.eraser).1 _ hok

end Metalogos.Memory
