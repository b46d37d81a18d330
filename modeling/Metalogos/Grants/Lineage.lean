import Mathlib.Logic.Relation
import Metalogos.Grants.Builtins

/-!
# Capability grants: derivation chains

A grant derives from its parent, its parent's parent and so on. `subgrant` compares a child with its
direct parent only; that the law holds along every chain needs the relation on scopes to be transitive
(`scopeAttenuates_trans`). `revoke` follows only children that are not revoked yet; that it reaches
every descendant needs the ledger never to hold a live child of a revoked grant, which is part of the
invariant `Lawful` and, inside the loop of `revoke`, of `Guarded`.
-/
namespace Metalogos.Grants

open Metalogos.Lib

/-! ## Scopes -/

theorem sameSegment_iff {a b : List Char} : sameSegment a b = true ↔ a.map Char.toLower = b.map Char.toLower := by
  simp [sameSegment]

/-- No letter: only the wildcard itself reads as the wildcard. -/
theorem eq_star_of_sameSegment {a : List Char} (h : sameSegment a ['*'] = true) : a = ['*'] := by
  rw [sameSegment_iff] at h
  obtain ⟨c, rfl⟩ : ∃ c, a = [c] := by
    have hl := congrArg List.length h
    simp only [List.length_map, List.length_singleton] at hl
    exact List.length_eq_one_iff.1 hl
  have hc : c.toLower = '*' := by simpa using h
  unfold Char.toLower at hc
  split_ifs at hc with hup
  · exfalso
    have hv := congrArg Char.val hc
    simp only at hv
    have h1 : (65 : UInt32) ≤ c.val := hup.1
    have h2 : c.val ≤ (90 : UInt32) := hup.2
    rw [← UInt32.toNat_inj] at hv
    rw [UInt32.le_iff_toNat_le] at h1 h2
    have h32 : ((97 : UInt32) - 65).toNat = 32 := rfl
    simp only [UInt32.toNat_add, h32, UInt32.reduceToNat, Char.reduceVal] at hv h1 h2
    omega
  · rw [hc]

/-- One segment of a chain. -/
def covers (p c : List Char) : Bool := p = ['*'] ∨ sameSegment p c

theorem covers_trans {a b c : List Char} (hab : covers a b = true) (hbc : covers b c = true) :
    covers a c = true := by
  simp only [covers, Bool.decide_or, Bool.or_eq_true, decide_eq_true_eq] at *
  rcases hab with rfl | hab
  · exact .inl rfl
  · rcases hbc with rfl | hbc
    · exact .inl (eq_star_of_sameSegment hab)
    · rw [sameSegment_iff] at *
      exact .inr (hab.trans hbc)

theorem zip_all_trans {as : List (List Char)} : ∀ {bs cs : List (List Char)},
    bs.length ≤ as.length → cs.length ≤ bs.length →
    (as.zip bs).all (fun x => covers x.1 x.2) = true → (bs.zip cs).all (fun x => covers x.1 x.2) = true →
    (as.zip cs).all (fun x => covers x.1 x.2) = true := by
  induction as with
  | nil => simp
  | cons a as ih =>
    intro bs cs hba hcb hab hbc
    cases cs with
    | nil => simp
    | cons c cs =>
      cases bs with
      | nil => simp at hcb
      | cons b bs =>
        simp only [List.zip_cons_cons, List.all_cons, Bool.and_eq_true] at hab hbc ⊢
        exact ⟨covers_trans hab.1 hbc.1,
          ih (by simpa using hba) (by simpa using hcb) hab.2 hbc.2⟩

theorem scopeAttenuates_iff {p c : String} : scopeAttenuates p c = true ↔
    (segments c).length ≤ (segments p).length ∧
      ((segments p).zip (segments c)).all (fun x => covers x.1 x.2) = true := by
  simp only [scopeAttenuates, covers]
  split_ifs with h
  · simp only [false_iff, not_and]
    omega
  · exact ⟨fun hall => ⟨by omega, hall⟩, fun hall => hall.2⟩

theorem scopeAttenuates_trans {a b c : String} (hab : scopeAttenuates a b = true)
    (hbc : scopeAttenuates b c = true) : scopeAttenuates a c = true := by
  rw [scopeAttenuates_iff] at *
  exact ⟨Nat.le_trans hbc.1 hab.1, zip_all_trans hab.1 hbc.1 hab.2 hbc.2⟩

/-! ## Descriptors: what no call changes -/

/-- The part of a row that is written once. -/
structure Desc where
  parentId : Option GrantId
  scope : String
  cls : String
  expiresAt : Int
  deriving DecidableEq

def GrantRow.desc (r : GrantRow) : Desc := ⟨r.parentId, r.scope, r.cls, r.expiresAt⟩

def descOf (rows : Rows) (id : GrantId) : Option Desc := (rows.get id).map (·.desc)

/-- `g` was split off `p`. -/
def ParentOf (rows : Rows) (g p : GrantId) : Prop := ∃ d, descOf rows g = some d ∧ d.parentId = some p

/-- `a` is `g` or an ancestor of it. -/
def Derives (rows : Rows) : GrantId → GrantId → Prop := Relation.ReflTransGen (ParentOf rows)

def Revoked (rows : Rows) (id : GrantId) : Prop := ∃ r, rows.get id = some r ∧ r.state = .revoked

/-- The attenuation law between a parent and its child, as the code reads the columns. -/
structure Attenuates (p c : Desc) : Prop where
  scope : scopeAttenuates p.scope c.scope = true
  expires : toU64 c.expiresAt ≤ toU64 p.expiresAt
  power : (GrantClass.fromLedgerStr c.cls).power ≤ (GrantClass.fromLedgerStr p.cls).power

structure Lawful (l : GrantLedger) : Prop where
  fresh : ∀ {id d}, descOf l.rows id = some d → id.seq < l.seq
  parent : ∀ {id d p}, descOf l.rows id = some d → d.parentId = some p →
    ∃ dp, descOf l.rows p = some dp ∧ Attenuates dp d
  older : ∀ {g p}, ParentOf l.rows g p → p.seq < g.seq
  revoked : ∀ {g p}, ParentOf l.rows g p → Revoked l.rows p → Revoked l.rows g

section

variable (rows : Rows) (id id' : GrantId)

theorem descOf_modify {f : GrantRow → GrantRow} (hf : ∀ r, (f r).desc = r.desc) :
    descOf (rows.modify id f) id' = descOf rows id' := by
  simp only [descOf, Dict.get_modify]
  by_cases h : id' = id
  · simp only [h, if_true]
    cases rows.get id <;> simp [hf]
  · simp only [h, if_false]

theorem descOf_set (r : GrantRow) :
    descOf (rows.set id r) id' = if id' = id then some r.desc else descOf rows id' := by
  simp only [descOf, Dict.get_set]
  split_ifs <;> rfl

theorem descOf_debitParent (cls : GrantClass) (after : Int) :
    descOf (debitParent rows id cls after) id' = descOf rows id' := by
  cases cls with
  | once => exact descOf_modify rows id id' fun _ => rfl
  | n k => exact descOf_modify rows id id' fun _ => rfl
  | unlimited => rfl

variable {rows id id'}

theorem ParentOf.congr {rows' : Rows} (h : ∀ id, descOf rows' id = descOf rows id) {g p : GrantId} :
    ParentOf rows' g p ↔ ParentOf rows g p := by
  simp only [ParentOf, h]

/-- Writing states other than `revoked` into rows that are not revoked. -/
theorem revoked_modify {f : GrantRow → GrantRow} {r : GrantRow} (hr : rows.get id = some r)
    (hold : r.state ≠ .revoked) (hnew : (f r).state ≠ .revoked) :
    Revoked (rows.modify id f) id' ↔ Revoked rows id' := by
  simp only [Revoked, Dict.get_modify]
  by_cases h : id' = id
  · subst h
    simp [hr, hold, hnew]
  · simp only [h, if_false]

theorem revoked_debitParent {cls : GrantClass} {after : Int} {r : GrantRow} (hr : rows.get id = some r)
    (hact : r.state = .active) : Revoked (debitParent rows id cls after) id' ↔ Revoked rows id' := by
  cases cls with
  | once => exact revoked_modify hr (by simp [hact]) (by simp)
  | n k => exact revoked_modify hr (by simp [hact]) (by simp [hact])
  | unlimited => rfl

theorem revoked_set {r : GrantRow} (hid : rows.get id = none) (hr : r.state ≠ .revoked) :
    Revoked (rows.set id r) id' ↔ Revoked rows id' := by
  simp only [Revoked, Dict.get_set]
  by_cases h : id' = id
  · subst h
    simp [hid, hr]
  · simp only [h, if_false]

end

/-! ## The cascade -/

theorem isLive_iff {rows : Rows} {id : GrantId} :
    isLive rows id = true ↔ ∃ r, rows.get id = some r ∧ r.state ≠ .revoked := by
  simp only [isLive, GrantRow.live]
  cases rows.get id <;> simp

theorem revoked_modify_revokeRow {rows : Rows} {id id' : GrantId} (h : isLive rows id = true) :
    Revoked (rows.modify id revokeRow) id' ↔ id' = id ∨ Revoked rows id' := by
  obtain ⟨r, hr, -⟩ := isLive_iff.1 h
  simp only [Revoked, Dict.get_modify]
  by_cases hid : id' = id
  · subst hid
    simp [hr, revokeRow]
  · simp only [hid, if_false, false_or]

/-- Every live child of a revoked grant still stands on the stack. -/
def Guarded (rows : Rows) (frontier : List GrantId) : Prop :=
  ∀ {g p}, ParentOf rows g p → Revoked rows p → Revoked rows g ∨ g ∈ frontier

theorem mem_liveChildren {rows : Rows} {id g : GrantId} :
    g ∈ liveChildren rows id ↔ ParentOf rows g id ∧ isLive rows g = true := by
  rw [liveChildren, Dict.mem_select, isLive_iff]
  simp only [ParentOf, descOf, GrantRow.live]
  cases rows.get g <;> simp [GrantRow.desc]

theorem guarded_round {rows : Rows} {id : GrantId} {rest : List GrantId}
    (h : Guarded rows (id :: rest)) {rows' : Rows} (hdesc : ∀ x, descOf rows' x = descOf rows x)
    (hrev : ∀ {x}, Revoked rows' x ↔ (x = id ∧ isLive rows id = true) ∨ Revoked rows x)
    (hid : ∀ {d}, descOf rows id = some d → Revoked rows' id) :
    Guarded rows' ((liveChildren rows id).reverse ++ rest) := by
  intro g p hgp hp
  rw [ParentOf.congr hdesc] at hgp
  have hchild : p = id → Revoked rows' g ∨ g ∈ (liveChildren rows id).reverse ++ rest := by
    rintro rfl
    by_cases hl : isLive rows g = true
    · exact .inr (List.mem_append_left _ (List.mem_reverse.2 (mem_liveChildren.2 ⟨hgp, hl⟩)))
    · obtain ⟨d, hd, -⟩ := hgp
      refine .inl (hrev.2 (.inr ?_))
      simp only [descOf, Option.map_eq_some_iff] at hd
      obtain ⟨r, hr, -⟩ := hd
      by_contra hn
      exact hl (isLive_iff.2 ⟨r, hr, fun hs => hn ⟨r, hr, hs⟩⟩)
  rcases hrev.1 hp with ⟨hpid, -⟩ | hp
  · exact hchild hpid
  · rcases h hgp hp with hg | hg
    · exact .inl (hrev.2 (.inr hg))
    · rcases List.mem_cons.1 hg with rfl | hg
      · obtain ⟨d, hd, -⟩ := hgp
        exact .inl (hid hd)
      · exact .inr (List.mem_append_right _ hg)

theorem revokeLoop_spec (rows : Rows) (frontier : List GrantId) (count : Nat) :
    (∀ x, descOf (revokeLoop rows frontier count).1 x = descOf rows x) ∧
    (∀ x, Revoked rows x → Revoked (revokeLoop rows frontier count).1 x) ∧
    (∀ x ∈ frontier, ∀ d, descOf rows x = some d → Revoked (revokeLoop rows frontier count).1 x) ∧
    (Guarded rows frontier → Guarded (revokeLoop rows frontier count).1 []) := by
  induction rows, frontier, count using revokeLoop.induct with
  | case1 rows count =>
    rw [revokeLoop]
    exact ⟨fun _ => rfl, fun _ h => h, by simp, fun h => h⟩
  | case2 rows count id rest kids hlive ih =>
    obtain ⟨ih₁, ih₂, ih₃, ih₄⟩ := ih
    have hdesc (x : GrantId) : descOf (rows.modify id revokeRow) x = descOf rows x :=
      descOf_modify rows id x fun _ => rfl
    have hrev {x : GrantId} : Revoked (rows.modify id revokeRow) x ↔ x = id ∨ Revoked rows x :=
      revoked_modify_revokeRow hlive
    rw [revokeLoop, if_pos hlive]
    refine ⟨fun x => (ih₁ x).trans (hdesc x), fun x hx => ih₂ x (hrev.2 (.inr hx)), ?_, fun hg => ?_⟩
    · intro x hx d hd
      rcases List.mem_cons.1 hx with rfl | hx
      · exact ih₂ _ (hrev.2 (.inl rfl))
      · exact ih₃ x (List.mem_append_right _ hx) d ((hdesc x).trans hd)
    · refine ih₄ (guarded_round hg hdesc ?_ fun _ => hrev.2 (.inl rfl))
      intro x
      rw [hrev]
      simp [hlive]
  | case3 rows count id rest kids hdead ih =>
    obtain ⟨ih₁, ih₂, ih₃, ih₄⟩ := ih
    have hid {d : Desc} (hd : descOf rows id = some d) : Revoked rows id := by
      simp only [descOf, Option.map_eq_some_iff] at hd
      obtain ⟨r, hr, -⟩ := hd
      by_contra hn
      exact hdead (isLive_iff.2 ⟨r, hr, fun hs => hn ⟨r, hr, hs⟩⟩)
    rw [revokeLoop, if_neg hdead]
    refine ⟨ih₁, ih₂, ?_, fun hg => ?_⟩
    · intro x hx d hd
      rcases List.mem_cons.1 hx with rfl | hx
      · exact ih₂ _ (hid hd)
      · exact ih₃ x (List.mem_append_right _ hx) d hd
    · refine ih₄ (guarded_round hg (fun _ => rfl) ?_ hid)
      intro x
      simp [hdead]

/-! ## Columns read back -/

theorem toU64_toI64 {x : Nat} (h : x < 2 ^ 64) : toU64 (toI64 x) = x := by
  rw [toU64, toI64]
  have hmod : (x : Int).bmod (2 ^ 64) % (2 ^ 64 : Nat) = (x : Int) % (2 ^ 64 : Nat) := Int.bmod_emod
  have hpow : ((2 ^ 64 : Nat) : Int) = 2 ^ 64 := rfl
  rw [hpow] at hmod
  rw [hmod]
  omega

theorem parseU64_toDigits {k : Nat} (hk : k < 2 ^ 64) : parseU64 (Nat.toDigits 10 k) = some k := by
  have hdigit : ∀ c ∈ Nat.toDigits 10 k, c.isDigit = true :=
    fun c h => Nat.isDigit_of_mem_toDigits (by decide) (by decide) h
  have hne : Nat.toDigits 10 k ≠ [] := Nat.toDigits_ne_nil
  have hplus : stripPlus (Nat.toDigits 10 k) = Nat.toDigits 10 k := by
    unfold stripPlus
    split
    · rename_i ds hds
      have hsign := hdigit '+' (by simp [hds])
      exact absurd hsign (by decide)
    · rfl
  have hall : (Nat.toDigits 10 k).all Char.isDigit = true := List.all_eq_true.2 hdigit
  have hread : Nat.ofDigitChars 10 (Nat.toDigits 10 k) 0 = k :=
    Nat.ofDigitChars_toDigits (by decide) (by decide)
  simp only [parseU64, hplus, hne, hall, not_true, or_self, if_false, hread, hk, if_true]

theorem fromLedgerStr_asLedgerStr {c : GrantClass} (h : c.Sized) :
    GrantClass.fromLedgerStr c.asLedgerStr = c := by
  cases c with
  | once => rfl
  | unlimited => rfl
  | n k =>
    simp only [GrantClass.fromLedgerStr, GrantClass.asLedgerStr, String.toList_ofList,
      parseU64_toDigits h.2, Option.getD_some]

/-! ## The law is kept -/

theorem Lawful.get_fresh {l : GrantLedger} (h : Lawful l) (nanos : Nat) :
    l.rows.get ⟨nanos, l.seq⟩ = none := by
  cases hr : l.rows.get ⟨nanos, l.seq⟩ with
  | none => rfl
  | some r =>
    have hd : descOf l.rows ⟨nanos, l.seq⟩ = some r.desc := by simp [descOf, hr]
    have hlt := h.fresh hd
    exact absurd hlt (Nat.lt_irrefl _)

/-- No grant names an id as its parent that is not there. -/
theorem Lawful.not_parent_fresh {l : GrantLedger} (h : Lawful l) {nanos : Nat} {g : GrantId} :
    ¬ ParentOf l.rows g ⟨nanos, l.seq⟩ := by
  rintro ⟨d, hd, hp⟩
  obtain ⟨dp, hdp, -⟩ := h.parent hd hp
  exact absurd (h.fresh hdp) (Nat.lt_irrefl _)

/-- A change that keeps every descriptor, and the law on revocation, keeps the law. -/
theorem Lawful.congr {l l' : GrantLedger} (h : Lawful l)
    (hdesc : ∀ id, descOf l'.rows id = descOf l.rows id) (hseq : l.seq ≤ l'.seq)
    (hrev : ∀ {g p}, ParentOf l.rows g p → Revoked l'.rows p → Revoked l'.rows g) : Lawful l' where
  fresh {id d} hd := Nat.lt_of_lt_of_le (h.fresh ((hdesc id).symm.trans hd)) hseq
  parent {id d p} hd hp := by
    obtain ⟨dp, hdp, ha⟩ := h.parent ((hdesc id).symm.trans hd) hp
    exact ⟨dp, (hdesc p).trans hdp, ha⟩
  older hgp := h.older ((ParentOf.congr hdesc).1 hgp)
  revoked {g p} hgp hp := hrev ((ParentOf.congr hdesc).1 hgp) hp

/-- A new grant under a fresh id. -/
theorem Lawful.insert {l l' : GrantLedger} (h : Lawful l) (nanos : Nat) {d : Desc}
    (hseq : l'.seq = l.seq + 1)
    (hdesc : ∀ id, descOf l'.rows id = if id = ⟨nanos, l.seq⟩ then some d else descOf l.rows id)
    (hparent : ∀ {p}, d.parentId = some p →
      ∃ dp, descOf l.rows p = some dp ∧ Attenuates dp d ∧ ¬ Revoked l.rows p)
    (hrev : ∀ {id}, Revoked l'.rows id ↔ Revoked l.rows id) : Lawful l' where
  fresh {id d'} hd := by
    rw [hdesc] at hd
    split_ifs at hd with hid
    · rw [hid, hseq]
      exact Nat.lt_succ_self _
    · exact Nat.lt_of_lt_of_le (h.fresh hd) (by omega)
  parent {id d' p} hd hp := by
    have hold {dp : Desc} (hdp : descOf l.rows p = some dp) : descOf l'.rows p = some dp := by
      rw [hdesc, if_neg, hdp]
      rintro rfl
      exact absurd (h.fresh hdp) (Nat.lt_irrefl _)
    rw [hdesc] at hd
    split_ifs at hd with hid
    · cases hd
      obtain ⟨dp, hdp, ha, -⟩ := hparent hp
      exact ⟨dp, hold hdp, ha⟩
    · obtain ⟨dp, hdp, ha⟩ := h.parent hd hp
      exact ⟨dp, hold hdp, ha⟩
  older {g p} hgp := by
    obtain ⟨d', hd, hpar⟩ := hgp
    rw [hdesc] at hd
    split_ifs at hd with hid
    · cases hd
      obtain ⟨dp, hdp, -, -⟩ := hparent hpar
      rw [hid]
      exact h.fresh hdp
    · exact h.older ⟨d', hd, hpar⟩
  revoked {g p} hgp hp := by
    rw [hrev] at hp ⊢
    obtain ⟨d', hd, hpar⟩ := hgp
    rw [hdesc] at hd
    split_ifs at hd with hid
    · cases hd
      obtain ⟨dp, -, -, hlive⟩ := hparent hpar
      exact absurd hp hlive
    · exact h.revoked ⟨d', hd, hpar⟩ hp

theorem Passes.not_revoked {rows : Rows} {id : GrantId} {r : GrantRow} (h : Passes rows id r) :
    ¬ Revoked rows id := by
  rintro ⟨r', hr', hs⟩
  rw [h.row] at hr'
  cases hr'
  rw [h.active] at hs
  cases hs

theorem lawful_empty : Lawful .empty where
  fresh hd := by cases hd
  parent hd := by cases hd
  older hgp := by
    obtain ⟨d, hd, -⟩ := hgp
    cases hd
  revoked hgp := by
    obtain ⟨d, hd, -⟩ := hgp
    cases hd

theorem lawful_change {l l' : GrantLedger} {call : Call} {used : Option GrantId} (h : Lawful l)
    (hc : Change l call used l') : Lawful l' := by
  cases hc with
  | none hseq => exact h.congr (fun _ => rfl) hseq h.revoked
  | issue hexp hsized =>
    refine h.insert _ rfl (fun id => descOf_set _ _ _ _) (fun hp => ?_) ?_
    · cases hp
    · intro id
      exact revoked_set (h.get_fresh _) (by simp [rootRow])
  | @subgrant t nanos expires ttl args parent scope cls r d after hargs hexp hsized hpass hsplit _ =>
    have hfresh : (debitParent l.rows parent.grantId (.fromLedgerStr r.cls) after).get ⟨nanos, l.seq⟩ =
        none := by
      have hd := descOf_debitParent l.rows parent.grantId ⟨nanos, l.seq⟩ (.fromLedgerStr r.cls) after
      simpa [descOf, h.get_fresh nanos] using hd
    refine h.insert nanos (d := (childRow parent.grantId scope cls expires).desc) rfl (fun id => ?_)
      (fun hp => ?_) ?_
    · rw [descOf_set, descOf_debitParent]
    · cases hp
      refine ⟨r.desc, by simp [descOf, hpass.row], ⟨hsplit.scope, ?_, ?_⟩, hpass.not_revoked⟩
      · simp only [childRow, GrantRow.desc, toU64_toI64 hexp]
        exact hsplit.expires
      · simp only [childRow, GrantRow.desc, fromLedgerStr_asLedgerStr hsized]
        exact hsplit.power
    · intro id
      exact (revoked_set hfresh (by simp [childRow])).trans
        (revoked_debitParent hpass.row hpass.active)
  | @use t args id r hpass =>
    have hrev {id' : GrantId} : Revoked (l.rows.modify id fun x => { x with
        state := (afterUse (r.record id)).1, remaining := (afterUse (r.record id)).2 }) id' ↔
        Revoked l.rows id' := by
      refine revoked_modify hpass.row (by simp [hpass.active]) ?_
      simp only [afterUse]
      cases (r.record id).cls <;> simp
    refine h.congr (fun id' => descOf_modify _ _ _ fun _ => rfl) (Nat.le_refl _) ?_
    intro g p hgp hp
    exact hrev.2 (h.revoked hgp (hrev.1 hp))
  | @revoke args id =>
    obtain ⟨hdesc, -, -, hguard⟩ := revokeLoop_spec l.rows [id] 0
    refine h.congr hdesc (Nat.le_refl _) ?_
    intro g p hgp hp
    have hg := hguard (fun hgp hp => .inl (h.revoked hgp hp)) ((ParentOf.congr hdesc).2 hgp) hp
    simpa using hg

theorem lawful_run (calls : List Call) : Lawful (run .empty calls) :=
  run_invariant lawful_empty (fun _ _ _ _ => lawful_change) calls

/-! ## Attenuation along a chain -/

/-- The law between any ancestor and its descendant. -/
theorem Lawful.chain {l : GrantLedger} (h : Lawful l) {g a : GrantId} (hchain : Derives l.rows g a)
    {d : Desc} (hd : descOf l.rows g = some d) : ∃ da, descOf l.rows a = some da ∧
      (∀ s, scopeAttenuates d.scope s = true → scopeAttenuates da.scope s = true) ∧
      toU64 d.expiresAt ≤ toU64 da.expiresAt ∧
      (GrantClass.fromLedgerStr d.cls).power ≤ (GrantClass.fromLedgerStr da.cls).power := by
  induction hchain with
  | refl => exact ⟨d, hd, fun _ hs => hs, Nat.le_refl _, Nat.le_refl _⟩
  | tail _ hp ih =>
    obtain ⟨da, hda, hscope, hexp, hpow⟩ := ih
    obtain ⟨da', hda', hpar⟩ := hp
    obtain rfl : da = da' := Option.some.inj (hda.symm.trans hda')
    obtain ⟨dp, hdp, hatt⟩ := h.parent hda hpar
    exact ⟨dp, hdp, fun s hs => scopeAttenuates_trans hatt.scope (hscope s hs),
      Nat.le_trans hexp hatt.expires, Nat.le_trans hpow hatt.power⟩

/-- In every reachable ledger, a grant authorizes nothing, lives no longer and ranks no higher than any
grant it derives from. -/
theorem chain_attenuates (calls : List Call) (g a : GrantId) (rg ra : GrantRecord)
    (hg : loadRecord (run .empty calls).rows g = .ok rg)
    (ha : loadRecord (run .empty calls).rows a = .ok ra)
    (hchain : Derives (run .empty calls).rows g a) :
    (∀ s, scopeAttenuates rg.scope s = true → scopeAttenuates ra.scope s = true) ∧
      rg.expiresAt ≤ ra.expiresAt ∧ rg.cls.power ≤ ra.cls.power := by
  obtain ⟨r, hr, rfl⟩ := loadRecord_ok hg
  obtain ⟨r', hr', rfl⟩ := loadRecord_ok ha
  obtain ⟨da, hda, hlaw⟩ := (lawful_run calls).chain hchain (d := r.desc) (by simp [descOf, hr])
  obtain rfl : r'.desc = da := by simpa [descOf, hr'] using hda
  exact hlaw

/-- A handle as a program holds it; only its id counts. -/
def Sample.handle (nanos seq : Nat) : Arg := .grant ⟨⟨nanos, seq⟩, "", .once, 0, "program"⟩

/-- A root, a quota of it for one operation, one use of that for one table. -/
def Sample.chain : List Call :=
  [.issue (fun _ => 10) 1 [.string "db:*:*", .number (.whole 100), .string "unlimited"],
    .subgrant (fun _ => 20) 2 [Sample.handle 1 0, .string "db:delete:*", .number (.whole 50),
      .string "n", .number (.whole 5)],
    .subgrant (fun _ => 30) 3 [Sample.handle 2 1, .string "DB:delete:users", .number (.whole 10)]]

/-- What the chain leaves. -/
theorem Sample.chain_rows :
    loadRecord (run .empty Sample.chain).rows ⟨3, 2⟩ = .ok
      ⟨⟨3, 2⟩, some ⟨2, 1⟩, "DB:delete:users", .once, 1, 40, .active⟩ ∧
    loadRecord (run .empty Sample.chain).rows ⟨1, 0⟩ = .ok
      ⟨⟨1, 0⟩, none, "db:*:*", .unlimited, -1, 110, .active⟩ ∧
    descOf (run .empty Sample.chain).rows ⟨3, 2⟩ = some ⟨some ⟨2, 1⟩, "DB:delete:users", "once", 40⟩ ∧
    descOf (run .empty Sample.chain).rows ⟨2, 1⟩ = some ⟨some ⟨1, 0⟩, "db:delete:*", "n:5", 70⟩ := by
  decide +kernel

theorem chain_attenuates_three :
    scopeAttenuates "DB:delete:users" "db:delete:Users" = true ∧
      scopeAttenuates "db:*:*" "db:delete:Users" = true := by
  obtain ⟨hleaf, hroot, hup₁, hup₂⟩ := Sample.chain_rows
  have hchain : Derives (run .empty Sample.chain).rows ⟨3, 2⟩ ⟨1, 0⟩ :=
    .tail (.single ⟨_, hup₁, rfl⟩) ⟨_, hup₂, rfl⟩
  have hs : scopeAttenuates "DB:delete:users" "db:delete:Users" = true := by decide +kernel
  exact ⟨hs, (chain_attenuates Sample.chain _ _ _ _ hleaf hroot hchain).1 _ hs⟩

/-! ## Revocation is total and final -/

theorem revoked_change {l l' : GrantLedger} {call : Call} {used : Option GrantId} (h : Lawful l)
    (hc : Change l call used l') {id : GrantId} (hid : Revoked l.rows id) : Revoked l'.rows id := by
  cases hc with
  | none => exact hid
  | issue => exact (revoked_set (h.get_fresh _) (by simp [rootRow])).2 hid
  | @subgrant t nanos expires ttl args parent scope cls r d after hargs hexp hsized hpass hsplit _ =>
    have hne : id ≠ ⟨nanos, l.seq⟩ := by
      rintro rfl
      obtain ⟨r', hr', -⟩ := hid
      rw [h.get_fresh] at hr'
      cases hr'
    have hdebit : Revoked (debitParent l.rows parent.grantId (.fromLedgerStr r.cls) after) id :=
      (revoked_debitParent hpass.row hpass.active).2 hid
    simpa only [Revoked, Dict.get_set, if_neg hne] using hdebit
  | @use t args id' r hpass =>
    refine (revoked_modify hpass.row (by simp [hpass.active]) ?_).2 hid
    simp only [afterUse]
    cases (r.record id').cls <;> simp
  | @revoke args id' => exact (revokeLoop_spec l.rows [id'] 0).2.1 id hid

theorem revoked_run {l : GrantLedger} (h : Lawful l) {id : GrantId} (hid : Revoked l.rows id)
    (calls : List Call) : Lawful (run l calls) ∧ Revoked (run l calls).rows id :=
  run_invariant (P := fun l => Lawful l ∧ Revoked l.rows id) ⟨h, hid⟩
    (fun _ _ _ _ hl hc => ⟨lawful_change hl.1 hc, revoked_change hl.1 hc hl.2⟩) calls

theorem Lawful.revoked_chain {l : GrantLedger} (h : Lawful l) {g a : GrantId}
    (hchain : Derives l.rows g a) (ha : Revoked l.rows a) : Revoked l.rows g := by
  induction hchain using Relation.ReflTransGen.head_induction_on with
  | refl => exact ha
  | head hp _ ih => exact h.revoked hp ih

/-- No check passes on a revoked grant. -/
theorem checkActive_revoked {rows : Rows} {id : GrantId} (h : Revoked rows id) (now : Nat) :
    ∃ e, checkActive rows id now = .error e := by
  cases hc : checkActive rows id now with
  | error e => exact ⟨e, rfl⟩
  | ok rec =>
    obtain ⟨r, hpass, -⟩ := checkActive_ok hc
    exact absurd h hpass.not_revoked

/-- After a revocation that succeeded, the grant and all its descendants are revoked in every later
state, and neither `grant_use` nor `subgrant` succeeds on any of them. In every reachable state every
descendant of a revoked grant is revoked. -/
theorem revocation_final (before after : List Call) (args : List Arg) (h : GrantHandle) (n : Nat)
    (hargs : handleArg "grant_revoke" args = .ok h)
    (hok : (builtinGrantRevoke (run .empty before) args).1 = .ok n) :
    (∀ l, l = run (step (run .empty before) (.revoke args)) after →
      ∀ g, Derives l.rows g h.grantId → Revoked l.rows g ∧
        (∀ t handle, handle.grantId = g → ∃ e, (grantUse l t handle).1 = .error e) ∧
        ∀ t nanos handle scope ttl cls, handle.grantId = g →
          ∃ e, (subgrant l t nanos handle scope ttl cls).1 = .error e) ∧
    ∀ calls g a, Derives (run .empty calls).rows g a → Revoked (run .empty calls).rows a →
      Revoked (run .empty calls).rows g := by
  refine ⟨?_, fun calls g a hchain ha => (lawful_run calls).revoked_chain hchain ha⟩
  rintro l rfl g hchain
  have hbefore : Lawful (run .empty before) := lawful_run before
  have hthen : Lawful (step (run .empty before) (.revoke args)) := lawful_change hbefore (step_change _ _)
  have hroot : Revoked (step (run .empty before) (.revoke args)).rows h.grantId := by
    simp only [step, builtinGrantRevoke, hargs, revoke] at hok ⊢
    cases hl : loadRecord (run .empty before).rows h.grantId with
    | error e =>
      rw [hl] at hok
      cases hok
    | ok rec =>
      obtain ⟨r, hr, -⟩ := loadRecord_ok hl
      exact (revokeLoop_spec _ _ _).2.2.1 _ (by simp) r.desc (by simp [descOf, hr])
  obtain ⟨hlaw, hlater⟩ := revoked_run hthen hroot after
  have hg := hlaw.revoked_chain hchain hlater
  refine ⟨hg, ?_, ?_⟩
  · rintro t handle rfl
    obtain ⟨e, he⟩ := checkActive_revoked hg (t 0)
    exact ⟨e, by simp only [grantUse, he]⟩
  · rintro t nanos handle scope ttl cls rfl
    obtain ⟨e, he⟩ := checkActive_revoked hg (t 0)
    unfold subgrant
    split_ifs with hb
    · exact ⟨_, rfl⟩
    · refine ⟨e, ?_⟩
      have hs : subgrantRows (run (step (run .empty before) (.revoke args)) after).rows t handle.grantId
          ⟨nanos, (run (step (run .empty before) (.revoke args)) after).seq⟩ scope ttl cls = .error e := by
        unfold subgrantRows
        rw [he]
        rfl
      simp only [hs]

/-- Revoking the root of `Sample.chain` reaches the grant two splits below it. -/
theorem revocation_final_three :
    Revoked (run (step (run .empty Sample.chain) (.revoke [Sample.handle 1 0])) []).rows ⟨3, 2⟩ := by
  obtain ⟨_, hroot, hup₁, hup₂⟩ := Sample.chain_rows
  have hload : (builtinGrantRevoke (run .empty Sample.chain) [Sample.handle 1 0]).1 =
      .ok (revokeLoop (run .empty Sample.chain).rows [⟨1, 0⟩] 0).2 := by
    simp only [builtinGrantRevoke, handleArg, expectGrantArg, Sample.handle, List.length_singleton,
      ne_eq, not_true, if_false, List.getElem?_cons_zero, revoke, hroot]
  refine ((revocation_final Sample.chain [] [Sample.handle 1 0] _ _ rfl hload).1 _ rfl _ ?_).1
  have hkeep (id : GrantId) :
      descOf (run (step (run .empty Sample.chain) (.revoke [Sample.handle 1 0])) []).rows id =
        descOf (run .empty Sample.chain).rows id := by
    have hc := step_change (run .empty Sample.chain) (.revoke [Sample.handle 1 0])
    show descOf (step (run .empty Sample.chain) (.revoke [Sample.handle 1 0])).rows id = _
    generalize step (run .empty Sample.chain) (.revoke [Sample.handle 1 0]) = l' at hc
    cases hc with
    | none => rfl
    | revoke => exact (revokeLoop_spec _ _ _).1 id
  exact .tail (.single ⟨_, (hkeep _).trans hup₁, rfl⟩) ⟨_, (hkeep _).trans hup₂, rfl⟩

end Metalogos.Grants
