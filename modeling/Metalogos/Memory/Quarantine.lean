import Metalogos.Memory.Graph

/-!
# Typed memory: forgetting reaches every derivative

A forget walks the children index as it stands; what derives from the forgotten key is a matter of the
parents named when each entry was put. The two can part: a sweep takes an expired entry out of the middle
of a chain and the index forgets the link across it (`severed_chain`), and a put may name a parent that is
already in quarantine. `Seals` excludes the two. Then the entries that are still readable keep whole chains
(`Sealed`): each parent such an entry named is readable too, or nothing above it is left to forget. So a
forget finds all it has to.
-/
namespace Metalogos.Memory

open Metalogos.Lib Metalogos.Grants Relation

variable {K : Cipher}

/-! ## The recorded history -/

/-- A put that succeeds records the parents it names. -/
def Mem.recordedBy (K : Cipher) (s : Mem) : Op → List (String × List String)
  | .put t nonce key text derivedFrom opts =>
    ((putEntry K s.container t nonce key text derivedFrom opts).toOption.map fun _ =>
      (key, derivedFrom)).toList
  | _ => []

def Mem.recorded (K : Cipher) (s : Mem) : List Op → List (String × List String)
  | [] => []
  | op :: ops => s.recordedBy K op ++ (s.step K op).recorded K ops

/-- `x` was put with `p` as a parent. -/
def Rec (R : List (String × List String)) (x p : String) : Prop := ∃ ps, (x, ps) ∈ R ∧ p ∈ ps

/-- There and not in quarantine: its content can be read. -/
def Clean (c : TypedContainer) (x : String) : Prop := ∃ e, c.entries.get x = some e ∧ e.poisoned = false

theorem Clean.live {c : TypedContainer} {x : String} (h : Clean c x) : Live c x := by
  obtain ⟨e, he, -⟩ := h
  exact live_iff.2 ⟨e, he⟩

/-- A forget of `k` that succeeds. -/
def Forgets (s : Mem) (k : String) : Op → Prop
  | .forgetFront t key grant dryRun consented => key = k ∧ dryRun = false ∧
      ∃ out, (forgetFront s.grants s.container t key grant dryRun consented).res = .ok out
  | .forgetCascade t key grant => key = k ∧
      ∃ out, (forgetCascade s.grants s.container t key grant).res = .ok out
  | _ => False

/-- No expired entry stands between a live parent and an entry that stays readable. -/
def SweepSeals (c : TypedContainer) (now : Nat) : Prop :=
  ∀ x y ex ey, c.entries.get x = some ex → ex.expired now = true → c.entries.get y = some ey →
    ey.expired now = false → ey.poisoned = false → x ∈ ey.derivedFrom → ∀ p ∈ ex.derivedFrom, ¬ Live c p

/-- A put names no parent in quarantine. -/
def PutSeals (K : Cipher) (s : Mem) : Op → Prop
  | .put t nonce key text derivedFrom opts =>
    ∀ entry, putEntry K s.container t nonce key text derivedFrom opts = .ok entry →
      ∀ p ∈ derivedFrom, Clean s.container p
  | _ => True

structure Seals (K : Cipher) (s : Mem) (op : Op) : Prop where
  sweep : ∀ now, s.sweepOf op = some now → SweepSeals s.container now
  put : PutSeals K s op

/-! ## Whole chains -/

/-- Neither `p` nor anything above it is there. -/
def Dead (c : TypedContainer) (R : List (String × List String)) (p : String) : Prop :=
  ∀ q, ReflTransGen (Rec R) p q → ¬ Live c q

structure Sealed (c : TypedContainer) (R : List (String × List String)) : Prop where
  linked : Linked c
  recorded : ∀ {x e}, c.entries.get x = some e → (x, e.derivedFrom) ∈ R
  unique : (R.map (·.1)).Nodup
  known : ∀ {x p}, Rec R x p → p ∈ R.map (·.1)
  index : ∀ {x p}, Rec R x p → Live c x → Live c p → Child c p x
  chain : ∀ {x p}, Clean c x → Rec R x p → Clean c p ∨ Dead c R p

/-- Nothing that derives from `k` is readable. -/
def Gone (c : TypedContainer) (R : List (String × List String)) (k : String) : Prop :=
  ∀ x, ReflTransGen (Rec R) x k → ¬ Clean c x

section

variable {c c' : TypedContainer} {R : List (String × List String)} {x p k : String}

theorem Dead.mono (h : Dead c R p) (hlive : ∀ x, Live c' x → Live c x) : Dead c' R p :=
  fun q hq hl => h q hq (hlive q hl)

theorem Sealed.names (h : Sealed c R) (hx : Live c x) : Rec R x p ↔ Names c x p := by
  obtain ⟨e, he⟩ := live_iff.1 hx
  rw [names_iff]
  constructor
  · rintro ⟨ps, hmem, hp⟩
    have heq : ps = e.derivedFrom := by
      have hpair := List.inj_on_of_nodup_map h.unique hmem (h.recorded he) rfl
      exact (Prod.mk.inj hpair).2
    exact ⟨e, he, heq ▸ hp⟩
  · rintro ⟨e', he', hp⟩
    obtain rfl : e = e' := Option.some.inj (he.symm.trans he')
    exact ⟨_, h.recorded he, hp⟩

/-- A readable entry that derives from a live key is found by the index. -/
theorem Sealed.reaches (h : Sealed c R) (hk : Live c k) (hchain : ReflTransGen (Rec R) x k)
    (hx : Clean c x) : Reaches c k x := by
  induction hchain using ReflTransGen.head_induction_on with
  | refl => exact .refl
  | @head x y hs hy ih =>
    rcases h.chain hx hs with hclean | hdead
    · exact (ih hclean).tail (h.index hs hx.live hclean.live)
    · exact absurd hk (hdead k hy)

/-- A change that takes entries out or puts them in quarantine. What it owes: a parent that a readable
entry loses has nothing above it. -/
theorem Sealed.fade (h : Sealed c R) (hlinked : Linked c')
    (hget : ∀ {x e'}, c'.entries.get x = some e' → ∃ e, c.entries.get x = some e ∧
      e'.derivedFrom = e.derivedFrom ∧ (e'.poisoned = false → e.poisoned = false))
    (hindex : ∀ {x p}, Child c p x → Live c' p → Live c' x → Child c' p x)
    (hkeep : ∀ {x p}, Clean c' x → Clean c p → Names c x p → Clean c' p ∨ Dead c' R p) :
    Sealed c' R := by
  have hlive (x : String) (hx : Live c' x) : Live c x := by
    obtain ⟨e', he'⟩ := live_iff.1 hx
    obtain ⟨e, he, -⟩ := hget he'
    exact live_iff.2 ⟨e, he⟩
  refine ⟨hlinked, fun {x e'} he' => ?_, h.unique, h.known, fun {x p} hr hx hp => ?_,
    fun {x p} hx hr => ?_⟩
  · obtain ⟨e, he, hd, -⟩ := hget he'
    rw [hd]
    exact h.recorded he
  · exact hindex (h.index hr (hlive x hx) (hlive p hp)) hp hx
  · have hclean : Clean c x := by
      obtain ⟨e', he', hp⟩ := hx
      obtain ⟨e, he, -, hback⟩ := hget he'
      exact ⟨e, he, hback hp⟩
    rcases h.chain hclean hr with hp | hdead
    · exact hkeep hx hp ((h.names hclean.live).1 hr)
    · exact .inr (hdead.mono hlive)

end

/-! ## Readability under the mutations -/

section

variable {c : TypedContainer} {R : List (String × List String)} {x p : String}

theorem clean_removeAll {ks : List String} : Clean (c.removeAll ks) x ↔ Clean c x ∧ x ∉ ks := by
  simp only [Clean, get_removeAll]
  by_cases hx : x ∈ ks <;> simp [hx]

/-- No change of attributes adds parents or takes an entry out of quarantine. -/
theorem get_changes {as : List (String × AttrChange)} {e' : TypedEntry}
    (h : (c.mutateAll (changes as)).entries.get x = some e') : ∃ e, c.entries.get x = some e ∧
      e'.derivedFrom = e.derivedFrom ∧ (e'.poisoned = false → e.poisoned = false) := by
  induction as generalizing c with
  | nil => exact ⟨e', h, rfl, id⟩
  | cons y as ih =>
    obtain ⟨e₁, he₁, hd₁, hp₁⟩ := ih (c := c.modifyEntry y.1 y.2.apply) h
    rw [get_modifyEntry] at he₁
    split_ifs at he₁ with hx
    · obtain ⟨e, he, rfl⟩ := Option.map_eq_some_iff.1 he₁
      refine ⟨e, he, hd₁.trans ?_, fun hclean => ?_⟩
      · cases y.2 <;> rfl
      · have hnext := hp₁ hclean
        cases hy : y.2 with
        | touch now =>
          rw [hy] at hnext
          exact hnext
        | ttl deadline =>
          rw [hy] at hnext
          exact hnext
        | poison =>
          rw [hy] at hnext
          cases hnext
        | quarantine now =>
          rw [hy] at hnext
          cases hnext
    · exact ⟨e₁, he₁, hd₁, hp₁⟩

theorem clean_modify_mild {y : String} {a : AttrChange} (ha : a.Mild) (h : Clean c x) :
    Clean (c.modifyEntry y a.apply) x := by
  obtain ⟨e, he, hp⟩ := h
  rw [Clean, get_modifyEntry, he]
  split_ifs
  · refine ⟨a.apply e, rfl, ?_⟩
    cases a with
    | touch now => exact hp
    | ttl deadline => exact hp
    | poison => cases ha
    | quarantine now => cases ha
  · exact ⟨e, rfl, hp⟩

theorem clean_changes_mild {as : List (String × AttrChange)} (has : ∀ y ∈ as, y.2.Mild) (h : Clean c x) :
    Clean (c.mutateAll (changes as)) x := by
  induction as generalizing c with
  | nil => exact h
  | cons y as ih =>
    exact ih (fun z hz => has z (by simp [hz])) (clean_modify_mild (has y (by simp)) h)

theorem clean_changes_poison {ks : List String} :
    Clean (c.mutateAll (changes (ks.map (·, .poison)))) x ↔ Clean c x ∧ x ∉ ks := by
  induction ks generalizing c with
  | nil => simp [changes]
  | cons k ks ih =>
    have hone : Clean (c.modifyEntry k AttrChange.poison.apply) x ↔ Clean c x ∧ x ≠ k := by
      simp only [Clean, get_modifyEntry]
      by_cases hx : x = k
      · simp [hx, AttrChange.apply, TypedEntry.poison]
      · simp [hx]
    rw [List.map_cons, mutateAll_changes_cons, ih, hone, List.mem_cons, not_or, and_assoc]

theorem child_changes {as : List (String × AttrChange)} (h : Child c p x) :
    Child (c.mutateAll (changes as)) p x := by
  rw [Child, TypedContainer.kids, (sameGraph_changes c as).children]
  exact h

/-! ## What the calls keep -/

theorem Sealed.removeAll (h : Sealed c R) {ks : List String}
    (hkeep : ∀ {x p}, x ∉ ks → p ∈ ks → Clean c x → Clean c p → Names c x p → Dead (c.removeAll ks) R p) :
    Sealed (c.removeAll ks) R := by
  refine h.fade h.linked.removeAll (fun {x e'} he' => ?_) (fun {x p} hc hp hx => ?_) fun {x p} hx hp hn => ?_
  · rw [get_removeAll] at he'
    split_ifs at he'
    exact ⟨e', he', rfl, id⟩
  · exact (child_removeAll x p h.linked).2
      ⟨hc, ((live_removeAll c p ks).1 hp).2, ((live_removeAll c x ks).1 hx).2⟩
  · obtain ⟨hx, hxk⟩ := clean_removeAll.1 hx
    by_cases hpk : p ∈ ks
    · exact .inr (hkeep hxk hpk hx hp hn)
    · exact .inl (clean_removeAll.2 ⟨hp, hpk⟩)

theorem mem_expiredKeys {now : Nat} :
    x ∈ c.expiredKeys now ↔ ∃ e, c.entries.get x = some e ∧ e.expired now = true :=
  c.entries.mem_select x

theorem Sealed.sweep (h : Sealed c R) {now : Nat} (hk : SweepSeals c now) : Sealed (c.swept now) R := by
  refine h.removeAll fun {x p} hx hp hcx hcp hn => ?_
  obtain ⟨ep, hep, hexp⟩ := mem_expiredKeys.1 hp
  obtain ⟨ex, hex, hclean⟩ := hcx
  have hstays : ex.expired now = false := by
    cases hb : ex.expired now with
    | false => rfl
    | true => exact absurd (mem_expiredKeys.2 ⟨ex, hex, hb⟩) hx
  have hnames : p ∈ ex.derivedFrom := by
    obtain ⟨e, he, hmem⟩ := names_iff.1 hn
    rw [hex] at he
    cases he
    exact hmem
  -- nothing above the expired parent is there: its own parents are not, and they are dead
  have habove := hk p x ep ex hep hexp hex hstays hclean hnames
  intro q hq hlive
  rcases ReflTransGen.cases_head hq with rfl | ⟨r, hr, hrq⟩
  · exact ((live_removeAll c p _).1 hlive).2 hp
  · have hlive := ((live_removeAll c q _).1 hlive).1
    rcases h.chain hcp hr with hrclean | hdead
    · obtain ⟨e, he, hmem⟩ := names_iff.1 ((h.names hcp.live).1 hr)
      rw [hep] at he
      cases he
      exact habove r hmem hrclean.live
    · exact hdead q hrq hlive

theorem Sealed.mild (h : Sealed c R) {as : List (String × AttrChange)} (has : ∀ y ∈ as, y.2.Mild) :
    Sealed (c.mutateAll (changes as)) R :=
  h.fade ((sameGraph_changes c as).linked h.linked) get_changes (fun hc _ _ => child_changes hc)
    fun _ hp _ => .inl (clean_changes_mild has hp)

/-- A forget takes out, or into quarantine, all that the index reaches from its root. -/
theorem Sealed.not_split (h : Sealed c R) {key : String} (hcx : Clean c x) (hcp : Clean c p)
    (hn : Names c x p) (hp : Reaches c key p) : Reaches c key x :=
  hp.tail (h.index ((h.names hcx.live).2 hn) hcx.live hcp.live)

theorem Sealed.cascade (h : Sealed c R) {key : String} {closure : List String}
    (hclosure : ∀ x, x ∈ closure ↔ Reaches c key x) : Sealed (c.removeAll closure) R := by
  refine h.removeAll fun {x p} hx hp hcx hcp hn => ?_
  exact absurd ((hclosure x).2 (h.not_split hcx hcp hn ((hclosure p).1 hp))) hx

theorem Sealed.front (h : Sealed c R) {key : String} {derived : List String}
    (hderived : ∀ x, x ∈ derived ↔ Reaches c key x ∧ x ≠ key) :
    Sealed ((c.mutateAll (changes (derived.map (·, .poison)))).removeAll [key]) R := by
  have hgraph := sameGraph_changes c (derived.map (·, .poison))
  refine h.fade (Linked.removeAll (hgraph.linked h.linked)) (fun {x e'} he' => ?_)
    (fun {x p} hc hp hx => ?_) fun {x p} hx hp hn => ?_
  · rw [get_removeAll] at he'
    split_ifs at he'
    exact get_changes he'
  · exact (child_removeAll x p (hgraph.linked h.linked)).2 ⟨child_changes hc,
      ((live_removeAll _ p _).1 hp).2, ((live_removeAll _ x _).1 hx).2⟩
  · obtain ⟨hx, hxk⟩ := clean_removeAll.1 hx
    obtain ⟨hx, hxd⟩ := clean_changes_poison.1 hx
    have hout : ¬ Reaches c key x := fun hr => hxd ((hderived x).2 ⟨hr, by simpa using hxk⟩)
    have hpout : ¬ Reaches c key p := fun hr => hout (h.not_split hx hp hn hr)
    refine .inl (clean_removeAll.2 ⟨clean_changes_poison.2 ⟨hp, fun hd => ?_⟩, fun hk => ?_⟩)
    · exact hpout ((hderived p).1 hd).1
    · obtain rfl : p = key := by simpa using hk
      exact hpout .refl

theorem Sealed.pins (h : Sealed c R) {ret : Finset String} (hret : ∀ x ∈ ret, Live c x) :
    Sealed { c with retained := ret } R :=
  ⟨⟨h.linked.names, h.linked.live, hret _⟩, h.recorded, h.unique, h.known, h.index, h.chain⟩

/-- In a container that is all in quarantine nothing is readable. -/
theorem Sealed.quarantine (h : Sealed c R) {as : List (String × AttrChange)}
    (hall : ∀ x e, (c.mutateAll (changes as)).entries.get x = some e → e.poisoned = true) :
    Sealed (c.mutateAll (changes as)) R := by
  refine h.fade ((sameGraph_changes c as).linked h.linked) get_changes (fun hc _ _ => child_changes hc)
    fun {x p} hx _ _ => ?_
  obtain ⟨e, he, hp⟩ := hx
  rw [hall x e he] at hp
  cases hp

end

/-! ## A new entry -/

section

variable {c : TypedContainer} {R : List (String × List String)} {x p k key : String} {entry : TypedEntry}
  {ps : List String}

theorem rec_append : Rec (R ++ [(key, ps)]) x p ↔ Rec R x p ∨ (x = key ∧ p ∈ ps) := by
  simp only [Rec, List.mem_append, List.mem_singleton, Prod.mk.injEq]
  constructor
  · rintro ⟨qs, hmem | ⟨rfl, rfl⟩, hp⟩
    · exact .inl ⟨qs, hmem, hp⟩
    · exact .inr ⟨rfl, hp⟩
  · rintro (⟨qs, hmem, hp⟩ | ⟨rfl, hp⟩)
    · exact ⟨qs, .inl hmem, hp⟩
    · exact ⟨ps, .inr ⟨rfl, rfl⟩, hp⟩

theorem Rec.mem (h : Rec R x p) : x ∈ R.map (·.1) := by
  obtain ⟨qs, hmem, -⟩ := h
  exact List.mem_map_of_mem hmem

/-- Chains from recorded keys are as before. -/
theorem Sealed.chain_old (h : Sealed c R) (hfresh : key ∉ R.map (·.1)) (hx : x ∈ R.map (·.1))
    (hchain : ReflTransGen (Rec (R ++ [(key, ps)])) x k) :
    ReflTransGen (Rec R) x k ∧ k ∈ R.map (·.1) := by
  induction hchain with
  | refl => exact ⟨.refl, hx⟩
  | @tail b d _ hs ih =>
    rcases rec_append.1 hs with hs | ⟨rfl, -⟩
    · exact ⟨.tail ih.1 hs, h.known hs⟩
    · exact absurd ih.2 hfresh

theorem Sealed.known_live (h : Sealed c R) (hx : Live c x) : x ∈ R.map (·.1) := by
  obtain ⟨e, he⟩ := live_iff.1 hx
  exact List.mem_map_of_mem (h.recorded he)

theorem clean_insertEntry_of_ne (hne : x ≠ key) : Clean (c.insertEntry key entry) x ↔ Clean c x := by
  simp only [Clean, get_insertEntry, if_neg hne]

theorem Sealed.put (h : Sealed c R) (hparents : ∀ p ∈ entry.derivedFrom, Clean c p)
    (hfresh : key ∉ R.map (·.1)) :
    Sealed (c.insertEntry key entry) (R ++ [(key, entry.derivedFrom)]) := by
  have hne {x : String} (hx : x ∈ R.map (·.1)) : x ≠ key := fun heq => hfresh (heq ▸ hx)
  have hold {x p : String} (hx : x ≠ key) (hr : Rec (R ++ [(key, entry.derivedFrom)]) x p) : Rec R x p :=
    (rec_append.1 hr).resolve_right fun heq => hx heq.1
  refine ⟨h.linked.insertEntry fun p hp => (hparents p hp).live, fun {x e} he => ?_, ?_, fun {x p} hr => ?_,
    fun {x p} hr hx hp => ?_, fun {x p} hx hr => ?_⟩
  · rw [get_insertEntry] at he
    split_ifs at he with hx
    · cases he
      exact List.mem_append_right _ (by simp [hx])
    · exact List.mem_append_left _ (h.recorded he)
  · rw [List.map_append, List.nodup_append]
    refine ⟨h.unique, by simp, ?_⟩
    intro a ha b hb
    obtain rfl : b = key := by simpa using hb
    exact hne ha
  · rw [List.map_append, List.mem_append]
    rcases rec_append.1 hr with hr | ⟨-, hp⟩
    · exact .inl (h.known hr)
    · exact .inl (h.known_live (hparents p hp).live)
  · rw [child_insertEntry key entry h.linked]
    rcases rec_append.1 hr with hr | ⟨rfl, hmem⟩
    · have hx := ((live_insertEntry key entry).1 hx).resolve_left (hne hr.mem)
      have hp := ((live_insertEntry key entry).1 hp).resolve_left (hne (h.known hr))
      rw [if_neg (hne hr.mem)]
      exact h.index hr hx hp
    · rw [if_pos rfl]
      exact hmem
  · rcases rec_append.1 hr with hr | ⟨rfl, hp⟩
    · rw [clean_insertEntry_of_ne (hne hr.mem)] at hx
      rw [clean_insertEntry_of_ne (hne (h.known hr))]
      refine (h.chain hx hr).imp id fun hdead q hq hlive => ?_
      obtain ⟨hq, hqR⟩ := h.chain_old hfresh (h.known hr) hq
      exact hdead q hq (((live_insertEntry key entry).1 hlive).resolve_left (hne hqR))
    · have hclean := hparents p hp
      exact .inl ((clean_insertEntry_of_ne (hne (h.known_live hclean.live))).2 hclean)

/-- What is gone stays gone when nothing is derived from it any more. -/
theorem Gone.put (hg : Gone c R k) (hk : k ∈ R.map (·.1)) (h : Sealed c R)
    (hparents : ∀ p ∈ entry.derivedFrom, Clean c p) (hfresh : key ∉ R.map (·.1)) :
    Gone (c.insertEntry key entry) (R ++ [(key, entry.derivedFrom)]) k := by
  intro x hchain hx
  by_cases hxR : x ∈ R.map (·.1)
  · have hne : x ≠ key := fun heq => hfresh (heq ▸ hxR)
    exact hg x (h.chain_old hfresh hxR hchain).1 ((clean_insertEntry_of_ne hne).1 hx)
  · rcases ReflTransGen.cases_head hchain with rfl | ⟨p, hr, hp⟩
    · exact hxR hk
    · rcases rec_append.1 hr with hr | ⟨-, hmem⟩
      · exact hxR hr.mem
      · have hclean := hparents p hmem
        exact hg p (h.chain_old hfresh (h.known_live hclean.live) hp).1 hclean

theorem Gone.fade {c' : TypedContainer} (hg : Gone c R k) (hfade : ∀ x, Clean c' x → Clean c x) :
    Gone c' R k :=
  fun x hchain hx => hg x hchain (hfade x hx)

end

/-! ## Whole runs -/

theorem clean_changes {c : TypedContainer} {as : List (String × AttrChange)} {x : String}
    (h : Clean (c.mutateAll (changes as)) x) : Clean c x := by
  obtain ⟨e', he', hp⟩ := h
  obtain ⟨e, he, -, hback⟩ := get_changes he'
  exact ⟨e, he, hback hp⟩

/-- Only a put makes an entry readable. -/
theorem Performs.fades {s : Mem} {op : Op} {ms : List Mutation} (hp : Performs K s op ms)
    (hput : ∀ t nonce key text derivedFrom opts, op ≠ .put t nonce key text derivedFrom opts) {x : String}
    (hx : Clean (s.container.mutateAll ms) x) : Clean s.container x := by
  have hswept {now : Nat} (h : Clean (s.container.swept now) x) : Clean s.container x :=
    (clean_removeAll.1 h).1
  cases hp with
  | nothing => exact hx
  | put => exact absurd rfl (hput _ _ _ _ _ _)
  | attrs => exact hswept (clean_changes hx)
  | pin => exact hx
  | unpin => exact hx
  | front =>
    rw [mutateAll_cons, mutateAll_append] at hx
    exact hswept (clean_changes (clean_removeAll.1 hx).1)
  | cascade => exact (clean_removeAll.1 hx).1
  | quarantine => exact hswept (clean_changes hx)

theorem Sealed.performs {s : Mem} {R : List (String × List String)} {op : Op} {ms : List Mutation}
    (h : Sealed s.container R) (hs : Seals K s op) (hp : Performs K s op ms)
    (hput : ∀ t nonce key text derivedFrom opts, op ≠ .put t nonce key text derivedFrom opts) :
    Sealed (s.container.mutateAll ms) R := by
  have hl := h.linked.performs hp
  cases hp with
  | nothing => exact h
  | put => exact absurd rfl (hput _ _ _ _ _ _)
  | attrs hop hmakes => exact (h.sweep (hs.sweep _ hop)).mild fun x hx => (hmakes x hx).mild
  | pin => exact h.pins fun x => hl.pinned
  | unpin => exact h.pins fun x => hl.pinned
  | front hop hlive hfree hderived =>
    rw [mutateAll_cons, mutateAll_append]
    exact (h.sweep (hs.sweep _ hop)).front hderived
  | cascade hlive hfree hclosure => exact h.cascade hclosure
  | quarantine _ hall => exact (h.sweep (hs.sweep _ rfl)).quarantine hall

theorem sealed_step {s : Mem} {R : List (String × List String)} {op : Op} (h : Sealed s.container R)
    (hs : Seals K s op) (hnodup : ((R ++ s.recordedBy K op).map (·.1)).Nodup) :
    Sealed (s.step K op).container (R ++ s.recordedBy K op) ∧
      ∀ k ∈ R.map (·.1), Gone s.container R k → Gone (s.step K op).container (R ++ s.recordedBy K op) k := by
  have hother (hput : ∀ t nonce key text derivedFrom opts, op ≠ .put t nonce key text derivedFrom opts)
      (hnil : s.recordedBy K op = []) : Sealed (s.step K op).container (R ++ s.recordedBy K op) ∧
      ∀ k ∈ R.map (·.1), Gone s.container R k →
        Gone (s.step K op).container (R ++ s.recordedBy K op) k := by
    obtain ⟨ms, hp, hc, -⟩ := step_performs K s op
    rw [hnil, List.append_nil, hc]
    exact ⟨h.performs hs hp hput, fun k _ hg => hg.fade fun x hx => hp.fades hput hx⟩
  cases op with
  | put t nonce key text derivedFrom opts =>
    simp only [Mem.recordedBy, Mem.step, Mem.exec, put] at hnodup ⊢
    cases hok : putEntry K s.container t nonce key text derivedFrom opts with
    | error e =>
      simp only [Except.toOption, Option.map_none, Option.toList_none, List.append_nil]
      exact ⟨h, fun k _ hg => hg⟩
    | ok entry =>
      have hentry := putEntry_ok hok
      have hclean : ∀ p ∈ entry.derivedFrom, Clean s.container p := by
        rw [hentry.derivedFrom]
        exact hs.put entry hok
      rw [hok] at hnodup
      simp only [Except.toOption, Option.map_some, Option.toList_some] at hnodup ⊢
      have hfresh : key ∉ R.map (·.1) := by
        rw [List.map_append, List.nodup_append] at hnodup
        intro hmem
        exact hnodup.2.2 key hmem key (by simp) rfl
      rw [← hentry.derivedFrom]
      exact ⟨h.put hclean hfresh, fun k hk hg => hg.put hk h hclean hfresh⟩
  | grants => exact hother (by simp) rfl
  | read => exact hother (by simp) rfl
  | keys => exact hother (by simp) rfl
  | «recall» => exact hother (by simp) rfl
  | retain => exact hother (by simp) rfl
  | release => exact hother (by simp) rfl
  | retainTtl => exact hother (by simp) rfl
  | forgetFront => exact hother (by simp) rfl
  | forgetCascade => exact hother (by simp) rfl
  | consentRevoked => exact hother (by simp) rfl

theorem sealed_run {s : Mem} {R : List (String × List String)} (ops : List Op) (h : Sealed s.container R)
    (hs : Along K (Seals K) s ops) (hnodup : ((R ++ s.recorded K ops).map (·.1)).Nodup) :
    Sealed (s.run K ops).container (R ++ s.recorded K ops) ∧
      ∀ k ∈ R.map (·.1), Gone s.container R k → Gone (s.run K ops).container (R ++ s.recorded K ops) k := by
  induction ops generalizing s R with
  | nil =>
    simp only [Mem.recorded, List.append_nil]
    exact ⟨h, fun k _ hg => hg⟩
  | cons op ops ih =>
    simp only [Mem.recorded, ← List.append_assoc] at hnodup ⊢
    have hfirst : ((R ++ s.recordedBy K op).map (·.1)).Nodup := by
      rw [List.map_append] at hnodup
      exact (List.nodup_append.1 hnodup).1
    obtain ⟨hstep, hgone⟩ := sealed_step h hs.1 hfirst
    obtain ⟨hrun, hlater⟩ := ih hstep hs.2 hnodup
    refine ⟨hrun, fun k hk hg => hlater k ?_ (hgone k hk hg)⟩
    rw [List.map_append]
    exact List.mem_append_left _ hk

/-! ## A forget that succeeds -/

theorem forgets_gone {s : Mem} {R : List (String × List String)} {op : Op} {k : String}
    (h : Sealed s.container R) (hs : Seals K s op) (hf : Forgets s k op) :
    k ∈ R.map (·.1) ∧ Gone (s.step K op).container R k := by
  cases op with
  | forgetFront t key grant dryRun consented =>
    obtain ⟨rfl, rfl, out, hok⟩ := hf
    simp only [Mem.step, Mem.exec]
    unfold forgetFront at hok ⊢
    cases hg : frontGates s.grants s.container (t 0) key grant consented with
    | error e =>
      rw [hg] at hok
      cases hok
    | ok u =>
      have hop : s.sweepOf (.forgetFront t key grant false consented) = some (t 1) := by
        simp [Mem.sweepOf, hg, Except.toOption]
      have hswept := h.sweep (hs.sweep _ hop)
      rw [hg] at hok
      have hsec := charge_ok _ _ _ _ hok
      simp only [Bool.false_eq_true, if_false, charge_container]
      rcases frontSection_cases s.container (t 1) key false with ⟨-, -, herr⟩ |
        ⟨-, hlive, -, derived, hderived, hc, -⟩
      · obtain ⟨e, he⟩ := herr rfl
        rw [he] at hsec
        cases hsec
      · refine ⟨hswept.known_live hlive, fun x hchain hx => ?_⟩
        rw [hc] at hx
        obtain ⟨hx, hne⟩ := clean_removeAll.1 (show Clean (TypedContainer.removeAll _ [key]) x from hx)
        obtain ⟨hx, hout⟩ := clean_changes_poison.1 hx
        have hreach := hswept.reaches hlive hchain hx
        exact hout ((hderived x).2 ⟨hreach, by simpa using hne⟩)
  | forgetCascade t key grant =>
    obtain ⟨rfl, out, hok⟩ := hf
    simp only [Mem.step, Mem.exec]
    unfold forgetCascade at hok ⊢
    cases hg : forgetGates s.grants s.container.id (t 0) grant with
    | error e =>
      rw [hg] at hok
      cases hok
    | ok u =>
      rw [hg] at hok
      have hsec := charge_ok _ _ _ _ hok
      simp only [charge_container]
      rcases cascadeSection_cases s.container key with ⟨e, he⟩ | ⟨hlive, -, closure, hclosure, hc⟩
      · rw [he] at hsec
        cases hsec
      · refine ⟨h.known_live hlive, fun x hchain hx => ?_⟩
        rw [hc] at hx
        obtain ⟨hx, hout⟩ := clean_removeAll.1 hx
        exact hout ((hclosure x).2 (h.reaches hlive hchain hx))
  | grants => cases hf
  | put => cases hf
  | read => cases hf
  | keys => cases hf
  | «recall» => cases hf
  | retain => cases hf
  | release => cases hf
  | retainTtl => cases hf
  | consentRevoked => cases hf

/-! ## What is not readable is not returned -/

section

variable {c : TypedContainer} {x : String}

theorem not_clean_get (h : ¬ Clean c x) {e : TypedEntry} (he : c.entries.get x = some e) :
    e.poisoned = true := by
  cases hp : e.poisoned with
  | true => rfl
  | false => exact absurd ⟨e, he, hp⟩ h

theorem not_clean_swept (h : ¬ Clean c x) (now : Nat) : ¬ Clean (c.swept now) x :=
  fun hx => h (clean_removeAll.1 hx).1

theorem read_refused (h : ¬ Clean c x) (t : Clock) : ∃ e, (read K c t x).res = .error e := by
  simp only [read, sweepExpired_eq]
  cases he : (c.swept (t 0)).entries.get x with
  | none => exact ⟨_, rfl⟩
  | some e =>
    simp only [not_clean_get (not_clean_swept h (t 0)) he, if_true]
    exact ⟨_, rfl⟩

theorem export_refused (h : ¬ Clean c x) : ∃ e, exportEntry c x = .error e := by
  unfold exportEntry
  cases he : c.entries.get x with
  | none => exact ⟨_, rfl⟩
  | some e =>
    simp only [not_clean_get h he, if_true]
    exact ⟨_, rfl⟩

theorem hitOf_key {query key : String} {h : RecallEntry} (hh : hitOf K c query key = some h) :
    h.key = key ∧ Clean c key := by
  unfold hitOf at hh
  cases he : c.entries.get key with
  | none => simp [he] at hh
  | some e =>
    simp only [he, Option.bind_eq_bind, Option.bind_some] at hh
    split_ifs at hh with hp
    split at hh
    · cases hh
    · split_ifs at hh
      cases hh
      exact ⟨rfl, e, he, by simpa using hp⟩

theorem recall_silent (h : ¬ Clean c x) {now swept : Nat} {query : String} {consented : Bool}
    {hits : List RecallEntry} (hr : («recall» K c now swept query consented).res = .ok hits) :
    ∀ hit ∈ hits, hit.key ≠ x := by
  rintro hit hmem rfl
  simp only [«recall», sweepExpired_eq] at hr
  split_ifs at hr
  · cases hr
    cases hmem
  · cases hr
    obtain ⟨key, -, hhit⟩ := List.mem_filterMap.1 hmem
    obtain ⟨hkey, hclean⟩ := hitOf_key hhit
    exact not_clean_swept h swept (hkey ▸ hclean)

end

/-- Nothing is returned of an entry. -/
structure Withheld (K : Cipher) (c : TypedContainer) (x : String) : Prop where
  entry : ∀ e, c.entries.get x = some e → e.poisoned = true
  read : ∀ t, ∃ e, (read K c t x).res = .error e
  exported : ∃ e, exportEntry c x = .error e
  «recall» : ∀ now swept query consented hits, («recall» K c now swept query consented).res = .ok hits →
    ∀ hit ∈ hits, hit.key ≠ x

theorem Mem.recorded_append (s : Mem) (ops ops' : List Op) :
    s.recorded K (ops ++ ops') = s.recorded K ops ++ (s.run K ops).recorded K ops' := by
  induction ops generalizing s with
  | nil => rfl
  | cons op ops ih =>
    simp only [List.cons_append, Mem.recorded, ih, List.append_assoc]
    rfl

theorem Mem.run_append (s : Mem) (ops ops' : List Op) :
    s.run K (ops ++ ops') = (s.run K ops).run K ops' := List.foldl_append

theorem along_append {ok : Mem → Op → Prop} {s : Mem} {ops ops' : List Op} :
    Along K ok s (ops ++ ops') ↔ Along K ok s ops ∧ Along K ok (s.run K ops) ops' := by
  induction ops generalizing s with
  | nil => exact ⟨fun h => ⟨trivial, h⟩, fun h => h.2⟩
  | cons op ops ih =>
    simp only [List.cons_append, Along, ih, and_assoc]
    rfl

theorem sealed_start (id subject : String) (label : MemLabel) (now : Nat) :
    Sealed (Mem.start id subject label now).container [] where
  linked := linked_fresh id subject label now
  recorded he := by cases he
  unique := List.nodup_nil
  known hr := by
    obtain ⟨ps, hmem, -⟩ := hr
    cases hmem
  index hr := by
    obtain ⟨ps, hmem, -⟩ := hr
    cases hmem
  chain _ hr := by
    obtain ⟨ps, hmem, -⟩ := hr
    cases hmem

/-- After a forget of `k` that succeeds, and in every later state, all that was put as a derivative of `k`,
through any chain, is absent or in quarantine and is returned by nothing. -/
theorem forgetting_reaches (id subject : String) (label : MemLabel) (now : Nat) (before after : List Op)
    (op : Op) (k : String) (hf : Forgets ((Mem.start id subject label now).run K before) k op)
    (honce : (((Mem.start id subject label now).recorded K (before ++ op :: after)).map (·.1)).Nodup)
    (hs : Along K (Seals K) (.start id subject label now) (before ++ op :: after)) (x : String)
    (hx : ReflTransGen (Rec ((Mem.start id subject label now).recorded K (before ++ op :: after))) x k) :
    Withheld K ((Mem.start id subject label now).run K (before ++ op :: after)).container x := by
  generalize hs₀ : Mem.start id subject label now = s₀ at hf honce hs hx ⊢
  have h₀ : Sealed s₀.container [] := hs₀ ▸ sealed_start id subject label now
  rw [along_append] at hs
  obtain ⟨hbefore, hop, hafter⟩ := hs
  rw [Mem.recorded_append, Mem.recorded] at honce hx
  -- nothing is recorded by a forget
  have hnil : (s₀.run K before).recordedBy K op = [] := by
    cases op with
    | put => cases hf
    | _ => rfl
  rw [hnil, List.nil_append] at honce hx
  have honce₁ : ((s₀.recorded K before).map (·.1)).Nodup := by
    rw [List.map_append] at honce
    exact (List.nodup_append.1 honce).1
  obtain ⟨h₁, -⟩ := sealed_run before h₀ hbefore honce₁
  rw [List.nil_append] at h₁
  obtain ⟨hk, hgone⟩ := forgets_gone h₁ hop hf
  obtain ⟨h₂, -⟩ := sealed_step h₁ hop (by rwa [hnil, List.append_nil])
  rw [hnil, List.append_nil] at h₂
  obtain ⟨-, hlater⟩ := sealed_run after h₂ hafter honce
  have hx := hlater k hk hgone x hx
  have hrun : s₀.run K (before ++ op :: after) = ((s₀.run K before).step K op).run K after := by
    rw [Mem.run_append]
    rfl
  rw [hrun]
  exact ⟨fun e he => not_clean_get hx he, read_refused hx, export_refused hx,
    fun _ _ _ _ _ hr => recall_silent hx hr⟩

theorem sweepSeals_of_nil {c : TypedContainer} {now : Nat} (h : c.expiredKeys now = []) :
    SweepSeals c now := by
  intro x y ex ey hx hexp
  have hmem := mem_expiredKeys.2 ⟨ex, hx, hexp⟩
  rw [h] at hmem
  cases hmem

theorem clean_of_any {c : TypedContainer} {x : String}
    (h : (c.entries.get x).any (fun e => !e.poisoned) = true) : Clean c x := by
  cases he : c.entries.get x with
  | none => simp [he] at h
  | some e => exact ⟨e, he, by simpa [he] using h⟩

theorem seals_put {s : Mem} {t : Clock} {nonce : ByteArray} {key text : String} {derivedFrom : List String}
    {opts : PutOpts}
    (h : derivedFrom.all (fun p => (s.container.entries.get p).any fun e => !e.poisoned) = true) :
    Seals K s (.put t nonce key text derivedFrom opts) :=
  ⟨fun _ hop => (by cases hop), fun _ _ p hp => clean_of_any (List.all_eq_true.1 h p hp)⟩

/-- A note and one derived from it. -/
def Sample.derived : List Op := [Sample.issueEraser, Sample.put "a" [], Sample.put "b" ["a"]]

def Sample.forgetA : Op := .forgetFront (fun _ => 21) "a" Sample.eraser false true

theorem forgetting_reaches_derived :
    Withheld Sample.cipher ((Mem.start "m" "s" .pub 0).run Sample.cipher
      (Sample.derived ++ Sample.forgetA :: [])).container "b" := by
  have hok : (forgetFront ((Mem.start "m" "s" .pub 0).run Sample.cipher Sample.derived).grants
      ((Mem.start "m" "s" .pub 0).run Sample.cipher Sample.derived).container (fun _ => 21) "a"
      Sample.eraser false true).res = .ok ⟨"a", ["a"], ["b"], false⟩ := by decide +kernel
  have hseals : Along Sample.cipher (Seals Sample.cipher) (.start "m" "s" .pub 0)
      (Sample.derived ++ Sample.forgetA :: []) := by
    refine ⟨⟨fun _ hop => (by cases hop), trivial⟩, seals_put ?_, seals_put ?_,
      ⟨fun now hop => ?_, trivial⟩, trivial⟩
    · decide +kernel
    · decide +kernel
    · refine sweepSeals_of_nil ?_
      have hnow : now = 21 := by
        simp only [Sample.forgetA, Mem.sweepOf] at hop
        obtain ⟨-, -, rfl⟩ := Option.map_eq_some_iff.1 hop
        rfl
      subst hnow
      decide +kernel
  have hrec : (Mem.start "m" "s" .pub 0).recorded Sample.cipher (Sample.derived ++ Sample.forgetA :: []) =
      [("a", []), ("b", ["a"])] := by decide +kernel
  refine forgetting_reaches "m" "s" .pub 0 Sample.derived [] Sample.forgetA "a" ⟨rfl, rfl, _, hok⟩ ?_ hseals
    "b" ?_
  · rw [hrec]
    decide
  · rw [hrec]
    exact .single ⟨["a"], by decide, by decide⟩

/-- A chain of three whose middle expires before its first is forgotten. -/
def Sample.expiring : List Op :=
  [Sample.issueEraser, Sample.put "a" [],
    .put (fun _ => 10) .empty "b" "text" ["a"] { ttlSecs := some ⟨some 5, "5"⟩ },
    Sample.put "c" ["b"], .keys fun _ => 20]

theorem severed_chain : ¬ ∀ (K : Cipher) id subject label now before after op k,
    Forgets ((Mem.start id subject label now).run K before) k op →
    (((Mem.start id subject label now).recorded K (before ++ op :: after)).map (·.1)).Nodup → ∀ x,
    ReflTransGen (Rec ((Mem.start id subject label now).recorded K (before ++ op :: after))) x k →
    Withheld K ((Mem.start id subject label now).run K (before ++ op :: after)).container x := by
  intro h
  have hok : (forgetFront ((Mem.start "m" "s" .pub 0).run Sample.cipher Sample.expiring).grants
      ((Mem.start "m" "s" .pub 0).run Sample.cipher Sample.expiring).container (fun _ => 21) "a"
      Sample.eraser false true).res = .ok ⟨"a", ["a"], [], false⟩ := by decide +kernel
  have hrec : (Mem.start "m" "s" .pub 0).recorded Sample.cipher (Sample.expiring ++ Sample.forgetA :: []) =
      [("a", []), ("b", ["a"]), ("c", ["b"])] := by decide +kernel
  have hcb : Rec [("a", []), ("b", ["a"]), ("c", ["b"])] "c" "b" := ⟨["b"], by decide, by decide⟩
  have hba : Rec [("a", []), ("b", ["a"]), ("c", ["b"])] "b" "a" := ⟨["a"], by decide, by decide⟩
  have hwithheld := h Sample.cipher "m" "s" .pub 0 Sample.expiring [] Sample.forgetA "a" ⟨rfl, rfl, _, hok⟩
    (by
      rw [hrec]
      decide) "c" (by
      rw [hrec]
      exact .tail (.single hcb) hba)
  have hread : (read Sample.cipher ((Mem.start "m" "s" .pub 0).run Sample.cipher
      (Sample.expiring ++ Sample.forgetA :: [])).container (fun _ => 30) "c").res = .ok (.string "text") := by
    decide +kernel
  obtain ⟨e, he⟩ := hwithheld.read fun _ => 30
  rw [hread] at he
  cases he

end Metalogos.Memory
