import Metalogos.Grants.Lineage
import Metalogos.Lib.Reach

/-!
# Capability grants: quotas

A quota is split among a tree of grants that grows while it is used. The law is local: what a grant has
left, what it gave to its children and what it used itself stay within its quota (`Budgeted.law`). That a
whole tree keeps within the quota of its root follows by `total_le_of_split`.

The columns are signed and the quotas are not. A child quota of `2^63` or more is a negative debit, which
every parent with uses left can pay and is credited for: `overdrawn` is a grant of one use whose child is
used twice. `Fits` excludes just that.
-/
namespace Metalogos.Grants

open Metalogos.Lib

/-! ## Quotas and what is carved out of them -/

/-- The issued quota; `unlimited` has none. -/
def GrantClass.quota : GrantClass → Option Nat
  | .once => some 1
  | .n k => some k
  | .unlimited => none

def Desc.quota (d : Desc) : Option Nat := (GrantClass.fromLedgerStr d.cls).quota

def quotaOf (rows : Rows) (id : GrantId) : Nat := ((descOf rows id).bind (·.quota)).getD 0

def childrenOf (rows : Rows) (id : GrantId) : List GrantId :=
  rows.keys.filter fun c => (descOf rows c).any (·.parentId = some id)

/-- The quotas carved out for the children of a grant. -/
def carved (rows : Rows) (id : GrantId) : Nat := ((childrenOf rows id).map (quotaOf rows)).sum

/-- The uses among `us` of a grant and of all that derive from it. -/
noncomputable def treeUses (rows : Rows) (us : List GrantId) (id : GrantId) : Nat :=
  reachCount (ParentOf rows) us id

/-- A call that reaches the debit asks for a child quota that the signed columns cannot tell from a credit only of
a parent that counts below zero itself, or does not count. -/
def Fits (l : GrantLedger) : Call → Prop
  | .subgrant t _ args => ∀ parent scope ttl k r, subgrantArgs args = .ok (parent, scope, ttl, .n k) →
      2 ^ 63 ≤ k → ReachesDebit l.rows t parent.grantId r scope ttl (.n k) →
      .fromLedgerStr r.cls ≠ GrantClass.unlimited → r.remaining < 0
  | _ => True

def RunFits (l : GrantLedger) : List Call → Prop
  | [] => True
  | c :: cs => Fits l c ∧ RunFits (step l c) cs

/-! ## Signed columns -/

/-- What an `i64` column holds. -/
def InI64 (x : Int) : Prop := -2 ^ 63 ≤ x ∧ x < 2 ^ 63

theorem inI64_toI64 (x : Int) : InI64 (toI64 x) := by
  have hlo := Int.le_bmod (x := x) (m := 2 ^ 64) (by decide)
  have hhi := Int.bmod_lt (x := x) (m := 2 ^ 64) (by decide)
  simp only [InI64, toI64]
  omega

theorem inI64_zero : InI64 0 := ⟨by decide, by decide⟩

theorem inI64_neg_one : InI64 (-1) := ⟨by decide, by decide⟩

theorem toU64_eq {x : Int} (h : InI64 x) : (toU64 x : Int) = if x < 0 then x + 2 ^ 64 else x := by
  simp only [InI64, toU64] at *
  split_ifs with hx
  · omega
  · omega

theorem toI64_eq {x : Int} (h : InI64 x) : toI64 x = x := by
  simp only [InI64, toI64] at *
  exact Int.bmod_eq_of_le (by omega) (by omega)

theorem toI64_natCast {k : Nat} (h : k < 2 ^ 64) :
    toI64 k = if k < 2 ^ 63 then (k : Int) else k - 2 ^ 64 := by
  split_ifs with hk
  · exact toI64_eq ⟨by omega, by omega⟩
  · have hsub : toI64 (k : Int) = toI64 ((k : Int) - (2 ^ 64 : Nat)) := by
      rw [toI64, toI64, Int.sub_bmod_right]
    have hcast : ((k : Int) - (2 ^ 64 : Nat)) = k - 2 ^ 64 := rfl
    rw [hsub, hcast]
    exact toI64_eq ⟨by omega, by omega⟩

theorem toU64_pos {x : Int} (h : InI64 x) (h0 : x ≠ 0) : 1 ≤ toU64 x := by
  have heq := toU64_eq h
  simp only [InI64] at h
  split_ifs at heq <;> omega

/-- One use counts one down, also below zero. -/
theorem toU64_pred {x : Int} (h : InI64 x) (h0 : x ≠ 0) : toU64 (toI64 (x - 1)) + 1 = toU64 x := by
  have heq := toU64_eq h
  have hpos := toU64_pos h h0
  by_cases hmin : x = -2 ^ 63
  · subst hmin
    decide
  · have hin : InI64 (x - 1) := by
      simp only [InI64] at *
      omega
    have hpred := toU64_eq hin
    rw [toI64_eq hin]
    simp only [InI64] at h
    split_ifs at heq hpred <;> omega

/-- A debit that the check lets through and that is no credit. -/
theorem toU64_debit {x : Int} {k : Nat} (h : InI64 x) (hk : k < 2 ^ 64) (hle : toI64 k ≤ x)
    (hfits : 2 ^ 63 ≤ k → x < 0) : toU64 (toI64 (x - toI64 k)) + k = toU64 x := by
  have hcast := toI64_natCast hk
  have heq := toU64_eq h
  have hin : InI64 (x - toI64 k) := by
    simp only [InI64] at *
    split_ifs at hcast with hlt
    · omega
    · have hneg := hfits (by omega)
      omega
  rw [toI64_eq hin]
  have hafter := toU64_eq hin
  simp only [InI64] at h hin
  split_ifs at hcast with hlt
  · split_ifs at heq hafter <;> omega
  · have hneg := hfits (by omega)
    split_ifs at heq hafter <;> omega

theorem toU64_initialRemaining {c : GrantClass} {q : Nat} (hs : c.Sized) (hq : c.quota = some q) :
    toU64 c.initialRemaining = q := by
  cases c with
  | once =>
    cases hq
    rfl
  | n k =>
    cases hq
    exact toU64_toI64 hs.2
  | unlimited => cases hq

theorem inI64_initialRemaining (c : GrantClass) : InI64 c.initialRemaining := by
  cases c with
  | once => exact ⟨by decide, by decide⟩
  | n k => exact inI64_toI64 _
  | unlimited => exact inI64_neg_one

/-! ## Carving out a child -/

theorem carved_congr {rows rows' : Rows} (hkeys : rows'.keys = rows.keys)
    (hdesc : ∀ id, descOf rows' id = descOf rows id) (id : GrantId) : carved rows' id = carved rows id := by
  have hquota : quotaOf rows' = quotaOf rows := by
    funext c
    simp only [quotaOf, hdesc]
  simp only [carved, childrenOf, hkeys, hdesc, hquota]

/-- A new grant counts in its parent's carved quota and in no other. -/
theorem carved_set {rows : Rows} {c : GrantId} {row : GrantRow} (hc : rows.get c = none) (id : GrantId) :
    carved (rows.set c row) id =
      carved rows id + if row.parentId = some id then row.desc.quota.getD 0 else 0 := by
  have hold : ∀ k ∈ rows.keys, descOf (rows.set c row) k = descOf rows k := by
    intro k hk
    rw [descOf_set, if_neg]
    rintro rfl
    obtain ⟨r, hr⟩ := (rows.mem_keys k).1 hk
    rw [hc] at hr
    cases hr
  have hnew : descOf (rows.set c row) c = some row.desc := by rw [descOf_set, if_pos rfl]
  have hfilter : rows.keys.filter (fun k => (descOf (rows.set c row) k).any (·.parentId = some id)) =
      childrenOf rows id :=
    List.filter_congr fun k hk => by rw [hold k hk]
  have hquota : (childrenOf rows id).map (quotaOf (rows.set c row)) =
      (childrenOf rows id).map (quotaOf rows) :=
    List.map_congr_left fun k hk => by rw [quotaOf, quotaOf, hold k (List.mem_of_mem_filter hk)]
  rw [carved, childrenOf, Dict.keys_set_fresh _ hc, List.filter_append, hfilter, List.map_append,
    List.sum_append, hquota]
  congr 1
  have hpar : row.desc.parentId = row.parentId := rfl
  by_cases hp : row.parentId = some id
  · simp [hnew, hpar, hp, quotaOf]
  · simp [hnew, hpar, hp]

/-! ## The local law -/

/-- Each grant keeps within its quota, with `owed` still to be carved out. -/
structure Budgeted (rows : Rows) (us : List GrantId) (owed : GrantId → Nat) : Prop where
  column : ∀ {id r}, rows.get id = some r → InI64 r.remaining
  known : ∀ {id}, rows.get id = none → us.count id = 0
  law : ∀ {id r q}, rows.get id = some r → r.desc.quota = some q →
    toU64 r.remaining + carved rows id + us.count id + owed id ≤ q

theorem budgeted_empty : Budgeted .empty [] (fun _ => 0) where
  column hr := by cases hr
  known _ := rfl
  law hr := by cases hr

/-- What a change of states leaves alone. -/
theorem Budgeted.congr {rows rows' : Rows} {us : List GrantId} {owed : GrantId → Nat}
    (h : Budgeted rows us owed) (hkeys : rows'.keys = rows.keys)
    (hget : ∀ id, (rows'.get id).map (fun r => (r.desc, r.remaining)) =
      (rows.get id).map (fun r => (r.desc, r.remaining))) : Budgeted rows' us owed := by
  have hold {id : GrantId} {r : GrantRow} (hr : rows'.get id = some r) :
      ∃ r', rows.get id = some r' ∧ r'.desc = r.desc ∧ r'.remaining = r.remaining := by
    have hid := hget id
    rw [hr] at hid
    obtain ⟨r', hr', heq⟩ := Option.map_eq_some_iff.1 hid.symm
    simp only [Prod.mk.injEq] at heq
    exact ⟨r', hr', heq⟩
  have hdesc (id : GrantId) : descOf rows' id = descOf rows id := by
    have hid := congrArg (Option.map Prod.fst) (hget id)
    simpa only [Option.map_map, descOf, Function.comp_def] using hid
  constructor
  · intro id r hr
    obtain ⟨r', hr', -, hrem⟩ := hold hr
    rw [← hrem]
    exact h.column hr'
  · intro id hid
    refine h.known ?_
    have hnone := hget id
    rw [hid] at hnone
    simpa using hnone.symm
  · intro id r q hr hq
    obtain ⟨r', hr', hd, hrem⟩ := hold hr
    rw [carved_congr hkeys hdesc, ← hrem]
    exact h.law hr' (by rw [hd, hq])

/-- What a call takes from one grant's count must be spent: on a use, or on what is owed to a child. -/
theorem Budgeted.modify {rows : Rows} {us us' : List GrantId} {owed owed' : GrantId → Nat}
    (h : Budgeted rows us owed) {id : GrantId} {r : GrantRow} (hr : rows.get id = some r)
    {f : GrantRow → GrantRow} (hdesc : ∀ r, (f r).desc = r.desc) (hcol : InI64 (f r).remaining)
    (hother : ∀ x, x ≠ id → us'.count x = us.count x ∧ owed' x = owed x)
    (hpay : ∀ q, r.desc.quota = some q →
      toU64 (f r).remaining + us'.count id + owed' id ≤ toU64 r.remaining + us.count id + owed id) :
    Budgeted (rows.modify id f) us' owed' := by
  have hcarved (x : GrantId) : carved (rows.modify id f) x = carved rows x :=
    carved_congr (rows.keys_modify id f) (fun y => descOf_modify rows id y hdesc) x
  constructor
  · intro x r' hr'
    rw [Dict.get_modify] at hr'
    split_ifs at hr' with hx
    · subst hx
      simp only [hr, Option.map_some, Option.some.injEq] at hr'
      rw [← hr']
      exact hcol
    · exact h.column hr'
  · intro x hx
    rw [Dict.get_modify] at hx
    split_ifs at hx with hxid
    · subst hxid
      simp [hr] at hx
    · rw [(hother x hxid).1]
      exact h.known hx
  · intro x r' q hr' hq
    rw [hcarved]
    rw [Dict.get_modify] at hr'
    split_ifs at hr' with hx
    · subst hx
      simp only [hr, Option.map_some, Option.some.injEq] at hr'
      subst hr'
      rw [hdesc] at hq
      have hlaw := h.law hr hq
      have hp := hpay q hq
      omega
    · rw [(hother x hx).1, (hother x hx).2]
      exact h.law hr' hq

/-- A fresh grant starts with its quota; what its parent owed is carved out. -/
theorem Budgeted.insert {rows : Rows} {us : List GrantId} {owed : GrantId → Nat}
    (h : Budgeted rows us owed) {c : GrantId} (hc : rows.get c = none) {row : GrantRow} {cls : GrantClass}
    (hsized : cls.Sized) (hcls : row.cls = cls.asLedgerStr) (hrem : row.remaining = cls.initialRemaining)
    (hself : row.parentId ≠ some c) (hfree : carved rows c = 0)
    (howed : ∀ id, row.parentId = some id → row.desc.quota.getD 0 ≤ owed id) :
    Budgeted (rows.set c row) us (fun _ => 0) := by
  have hquota : row.desc.quota = cls.quota := by
    simp only [Desc.quota, GrantRow.desc, hcls, fromLedgerStr_asLedgerStr hsized]
  constructor
  · intro x r hr
    rw [Dict.get_set] at hr
    split_ifs at hr with hx
    · cases hr
      rw [hrem]
      exact inI64_initialRemaining cls
    · exact h.column hr
  · intro x hx
    rw [Dict.get_set] at hx
    split_ifs at hx
    exact h.known hx
  · intro x r q hr hq
    rw [Dict.get_set] at hr
    rw [carved_set hc]
    split_ifs at hr with hx
    · cases hr
      subst hx
      rw [if_neg hself, hfree, h.known hc, hrem, toU64_initialRemaining hsized (hquota.symm.trans hq)]
      omega
    · have hlaw := h.law hr hq
      split_ifs with hp
      · have ho := howed x hp
        omega
      · omega

/-! ## Every call keeps it -/

theorem carved_fresh {l : GrantLedger} (h : Lawful l) (nanos : Nat) : carved l.rows ⟨nanos, l.seq⟩ = 0 := by
  have hnone : childrenOf l.rows ⟨nanos, l.seq⟩ = [] := by
    refine List.filter_eq_nil_iff.2 fun k _ hk => ?_
    cases hd : descOf l.rows k with
    | none => simp [hd] at hk
    | some d =>
      have hpar : ParentOf l.rows k ⟨nanos, l.seq⟩ := ⟨d, hd, by simpa [hd] using hk⟩
      exact h.not_parent_fresh hpar
  rw [carved, hnone, List.map_nil, List.sum_nil]

/-- What the new child is to have. -/
def owedTo (parent : GrantId) (cls : GrantClass) (id : GrantId) : Nat :=
  if id = parent then cls.quota.getD 0 else 0

theorem owedTo_of_ne {parent id : GrantId} {cls : GrantClass} (h : id ≠ parent) : owedTo parent cls id = 0 :=
  if_neg h

theorem GrantClass.eq_once_of_power {c : GrantClass} (h : c.power ≤ 0) : c = .once := by
  cases c with
  | once => rfl
  | n k => simp [power] at h
  | unlimited => simp [power] at h

theorem quota_eq_of_cls {r : GrantRow} {c : GrantClass} (h : GrantClass.fromLedgerStr r.cls = c) :
    r.desc.quota = c.quota := by
  simp only [Desc.quota, GrantRow.desc, h]

/-- The parent pays for what it will owe. -/
theorem budgeted_debitParent {rows : Rows} {us : List GrantId} (h : Budgeted rows us fun _ => 0)
    {pid : GrantId} {r : GrantRow} (hpass : Passes rows pid r) {scope : String} {cls : GrantClass}
    {expires : Nat} {d after : Int} (hsized : cls.Sized) (hsplit : Splits r scope cls expires d after)
    (hfits : ∀ k, cls = .n k → 2 ^ 63 ≤ k → .fromLedgerStr r.cls ≠ GrantClass.unlimited →
      r.remaining < 0) :
    Budgeted (debitParent rows pid (.fromLedgerStr r.cls) after) us (owedTo pid cls) := by
  have hother (x : GrantId) (hx : x ≠ pid) : us.count x = us.count x ∧ owedTo pid cls x = 0 :=
    ⟨rfl, owedTo_of_ne hx⟩
  have howed : owedTo pid cls pid = cls.quota.getD 0 := if_pos rfl
  have hcol := h.column hpass.row
  have hpow := hsplit.power
  have hbud := hsplit.budget
  cases hc : GrantClass.fromLedgerStr r.cls with
  | unlimited =>
    refine ⟨h.column, h.known, fun {id r' q} hr' hq => ?_⟩
    by_cases hid : id = pid
    · subst hid
      have hr' : rows.get id = some r' := hr'
      rw [hpass.row] at hr'
      cases hr'
      rw [quota_eq_of_cls hc] at hq
      cases hq
    · rw [owedTo_of_ne hid]
      exact h.law hr' hq
  | once =>
    rw [hc] at hpow
    obtain rfl := GrantClass.eq_once_of_power hpow
    show Budgeted (rows.modify pid fun r => { r with state := .consumed, remaining := 0 }) us _
    refine h.modify hpass.row (fun _ => rfl) inI64_zero hother fun q _ => ?_
    have hpos := toU64_pos hcol hpass.remaining
    have hzero : toU64 0 = 0 := rfl
    have hone : GrantClass.once.quota.getD 0 = 1 := rfl
    rw [howed, hone]
    simp only [hzero]
    omega
  | n k =>
    rw [hc] at hpow hbud
    obtain ⟨hle, rfl⟩ := hbud (by simp)
    show Budgeted (rows.modify pid fun x => { x with remaining := toI64 (r.remaining - d) }) us _
    refine h.modify hpass.row (fun _ => rfl) (inI64_toI64 _) hother fun q _ => ?_
    have hpaid : toU64 (toI64 (r.remaining - d)) + cls.quota.getD 0 = toU64 r.remaining := by
      have hd := hsplit.debit
      cases cls with
      | unlimited => simp [GrantClass.power] at hpow
      | once =>
        have hone : toI64 ((1 : Nat) : Int) = 1 := rfl
        have hd : d = toI64 ((1 : Nat) : Int) := hd.trans hone.symm
        rw [hd] at hle ⊢
        exact toU64_debit hcol (by decide) hle (fun hbig => absurd hbig (by decide))
      | n k' =>
        have hd : d = toI64 (k' : Int) := hd
        rw [hd] at hle ⊢
        exact toU64_debit hcol hsized.2 hle (fun hbig => hfits k' rfl hbig (by simp [hc]))
    rw [howed]
    simp only
    omega

theorem budgeted_use {rows : Rows} {us : List GrantId} (h : Budgeted rows us fun _ => 0) {id : GrantId}
    {r : GrantRow} (hpass : Passes rows id r) :
    Budgeted (rows.modify id fun x => { x with
      state := (afterUse (r.record id)).1, remaining := (afterUse (r.record id)).2 })
      (us ++ [id]) fun _ => 0 := by
  have hcol := h.column hpass.row
  have hcls : (r.record id).cls = GrantClass.fromLedgerStr r.cls := rfl
  refine h.modify hpass.row (fun _ => rfl) ?_ (fun x hx => ⟨?_, rfl⟩) fun q hq => ?_
  · simp only [afterUse]
    cases (r.record id).cls with
    | once => exact inI64_zero
    | n k => exact inI64_toI64 _
    | unlimited => exact inI64_neg_one
  · rw [List.count_append, List.count_singleton, if_neg (by simpa using hx.symm)]
    rfl
  · have hcount : (us ++ [id]).count id = us.count id + 1 := by
      rw [List.count_append, List.count_singleton_self]
    have hpos := toU64_pos hcol hpass.remaining
    rw [hcount]
    simp only [afterUse]
    cases hc : (r.record id).cls with
    | once =>
      have hzero : toU64 0 = 0 := rfl
      simp only [hzero]
      omega
    | n k =>
      have hpred := toU64_pred hcol hpass.remaining
      have hrem : (r.record id).remaining = r.remaining := rfl
      simp only [hrem]
      omega
    | unlimited =>
      rw [quota_eq_of_cls (hcls.symm.trans hc)] at hq
      cases hq

/-- Revocation changes states only. -/
theorem revokeLoop_frame (rows : Rows) (frontier : List GrantId) (count : Nat) :
    (revokeLoop rows frontier count).1.keys = rows.keys ∧
    ∀ id, ((revokeLoop rows frontier count).1.get id).map (fun r => (r.desc, r.remaining)) =
      (rows.get id).map (fun r => (r.desc, r.remaining)) := by
  induction rows, frontier, count using revokeLoop.induct with
  | case1 rows count =>
    rw [revokeLoop]
    exact ⟨rfl, fun _ => rfl⟩
  | case2 rows count id rest kids hlive ih =>
    rw [revokeLoop, if_pos hlive]
    refine ⟨ih.1.trans (rows.keys_modify id revokeRow), fun x => (ih.2 x).trans ?_⟩
    rw [Dict.get_modify]
    split_ifs with hx
    · cases rows.get x <;> rfl
    · rfl
  | case3 rows count id rest kids hdead ih =>
    rw [revokeLoop, if_neg hdead]
    exact ih

theorem budgeted_change {l l' : GrantLedger} {call : Call} {used : Option GrantId} {us : List GrantId}
    (hl : Lawful l) (h : Budgeted l.rows us fun _ => 0) (hfits : Fits l call)
    (hc : Change l call used l') : Budgeted l'.rows (us ++ used.toList) fun _ => 0 := by
  cases hc with
  | none hseq => simpa using h
  | @issue t nanos expires args scope cls hexp hsized =>
    rw [Option.toList_none, List.append_nil]
    refine h.insert (hl.get_fresh nanos) hsized rfl rfl (by simp [rootRow]) (carved_fresh hl nanos) ?_
    intro id hid
    cases hid
  | @subgrant t nanos expires ttl args parent scope cls r d after hargs hexp hsized hpass hsplit hreach =>
    rw [Option.toList_none, List.append_nil]
    have hpaid : Budgeted (debitParent l.rows parent.grantId (.fromLedgerStr r.cls) after) us
        (owedTo parent.grantId cls) := by
      refine budgeted_debitParent h hpass hsized hsplit fun k hk hbig hne => ?_
      subst hk
      exact hfits parent scope ttl k r hargs hbig hreach hne
    have hdesc (id : GrantId) := descOf_debitParent l.rows parent.grantId id (.fromLedgerStr r.cls) after
    have hkeys : (debitParent l.rows parent.grantId (.fromLedgerStr r.cls) after).keys = l.rows.keys := by
      cases GrantClass.fromLedgerStr r.cls with
      | once => exact Dict.keys_modify _ _ _
      | n k => exact Dict.keys_modify _ _ _
      | unlimited => rfl
    have hfresh : (debitParent l.rows parent.grantId (.fromLedgerStr r.cls) after).get ⟨nanos, l.seq⟩ =
        none := by
      simpa [descOf, hl.get_fresh nanos] using hdesc ⟨nanos, l.seq⟩
    refine hpaid.insert hfresh hsized rfl rfl ?_ ?_ ?_
    · intro hself
      have hp : parent.grantId = ⟨nanos, l.seq⟩ := Option.some.inj hself
      have hrow := hpass.row
      rw [hp, hl.get_fresh nanos] at hrow
      cases hrow
    · rw [carved_congr hkeys hdesc]
      exact carved_fresh hl nanos
    · intro id hid
      obtain rfl : parent.grantId = id := Option.some.inj hid
      rw [quota_eq_of_cls (fromLedgerStr_asLedgerStr hsized), owedTo, if_pos rfl]
  | use hpass => exact budgeted_use h hpass
  | @revoke args id =>
    rw [Option.toList_none, List.append_nil]
    obtain ⟨hkeys, hget⟩ := revokeLoop_frame l.rows [id] 0
    exact h.congr hkeys hget

theorem budgeted_run {l : GrantLedger} {us : List GrantId} (hl : Lawful l)
    (h : Budgeted l.rows us fun _ => 0) (calls : List Call) (hfits : RunFits l calls) :
    Budgeted (run l calls).rows (us ++ uses l calls) fun _ => 0 := by
  induction calls generalizing l us with
  | nil => simpa [uses, run] using h
  | cons c cs ih =>
    have hc := step_change l c
    rw [uses, ← List.append_assoc]
    exact ih (lawful_change hl hc) (budgeted_change hl h hfits.1 hc) hfits.2

/-! ## Conservation over the tree -/

theorem mem_childrenOf {rows : Rows} {c p : GrantId} : c ∈ childrenOf rows p ↔ ParentOf rows c p := by
  rw [childrenOf, List.mem_filter, Dict.mem_keys, ParentOf, descOf]
  cases rows.get c <;> simp

/-- The grants whose class counts. -/
def Counted (rows : Rows) (id : GrantId) : Prop := ∃ d q, descOf rows id = some d ∧ d.quota = some q

theorem quota_isSome_iff (c : GrantClass) : (∃ q, c.quota = some q) ↔ c.power ≤ 1 := by
  cases c <;> simp [GrantClass.quota, GrantClass.power]

theorem Counted.child {l : GrantLedger} (h : Lawful l) {p c : GrantId} (hp : Counted l.rows p)
    (hc : ParentOf l.rows c p) : Counted l.rows c := by
  obtain ⟨d, q, hd, hq⟩ := hp
  obtain ⟨dc, hdc, hpar⟩ := hc
  obtain ⟨dp, hdp, hatt⟩ := h.parent hdc hpar
  obtain rfl : d = dp := Option.some.inj (hd.symm.trans hdp)
  have hpow : (GrantClass.fromLedgerStr d.cls).power ≤ 1 := (quota_isSome_iff _).1 ⟨q, hq⟩
  obtain ⟨qc, hqc⟩ := (quota_isSome_iff (.fromLedgerStr dc.cls)).2 (Nat.le_trans hatt.power hpow)
  exact ⟨dc, qc, hdc, hqc⟩

theorem Budgeted.tree {l : GrantLedger} {us : List GrantId} (hl : Lawful l)
    (h : Budgeted l.rows us fun _ => 0) {id : GrantId} (hid : Counted l.rows id) :
    treeUses l.rows us id ≤ quotaOf l.rows id := by
  have hgood : ∀ p, Counted l.rows p → ∀ c ∈ childrenOf l.rows p, Counted l.rows c :=
    fun p hp c hc => hp.child hl (mem_childrenOf.1 hc)
  have hrank : ∀ p, ∀ c ∈ childrenOf l.rows p, p.seq < c.seq := fun p c hc => hl.older (mem_childrenOf.1 hc)
  have hbound : ∀ p, Counted l.rows p → p.seq < l.seq := by
    rintro p ⟨d, q, hd, -⟩
    exact hl.fresh hd
  have hkids : ∀ x p, ParentOf l.rows x p → x ∈ childrenOf l.rows p := fun x p => mem_childrenOf.2
  refine total_le_of_split hkids hgood hrank hbound ?_ id hid
  · rintro p ⟨d, q, hd, hq⟩
    obtain ⟨r, hr, rfl⟩ := Option.map_eq_some_iff.1 hd
    have hlaw := h.law hr hq
    have hquota : quotaOf l.rows p = q := by simp [quotaOf, hd, hq]
    rw [hquota]
    simp only [carved] at hlaw
    omega

/-- In every reachable ledger a tree of grants was used no more often than the quota of its root says, and
what a grant has left, gave to its children and used itself is within its own quota. -/
theorem quota_conserved (calls : List Call) (hfits : RunFits .empty calls) (g : GrantId)
    (rec : GrantRecord) (hg : loadRecord (run .empty calls).rows g = .ok rec) (q : Nat)
    (hq : rec.cls.quota = some q) :
    treeUses (run .empty calls).rows (uses .empty calls) g ≤ q ∧
      toU64 rec.remaining + carved (run .empty calls).rows g + (uses .empty calls).count g ≤ q := by
  have hl := lawful_run calls
  have h := budgeted_run lawful_empty budgeted_empty calls hfits
  rw [List.nil_append] at h
  obtain ⟨r, hr, rfl⟩ := loadRecord_ok hg
  have hd : descOf (run .empty calls).rows g = some r.desc := by simp [descOf, hr]
  have hrq : r.desc.quota = some q := hq
  refine ⟨?_, h.law hr hrq⟩
  have htree := h.tree hl ⟨r.desc, q, hd, hrq⟩
  have hquota : quotaOf (run .empty calls).rows g = q := by simp [quotaOf, hd, hrq]
  rwa [hquota] at htree

/-- A quota of three, one use of it given away and used, then one of its own. -/
def Sample.shared : List Call :=
  [.issue (fun _ => 10) 1 [.string "db:*:*", .number (.whole 100), .string "n", .number (.whole 3)],
    .subgrant (fun _ => 20) 2 [Sample.handle 1 0, .string "db:delete:users", .number (.whole 10)],
    .use (fun _ => 25) [Sample.handle 2 1],
    .use (fun _ => 26) [Sample.handle 1 0]]

theorem quota_conserved_shared :
    treeUses (run .empty Sample.shared).rows (uses .empty Sample.shared) ⟨1, 0⟩ ≤ 3 := by
  have hroot : loadRecord (run .empty Sample.shared).rows ⟨1, 0⟩ = .ok
      ⟨⟨1, 0⟩, none, "db:*:*", .n 3, 1, 110, .active⟩ := by decide +kernel
  have hsmall : (subgrantArgs [Sample.handle 1 0, .string "db:delete:users", .number (.whole 10)]).toOption.map
      (·.2.2.2) = some .once := by decide +kernel
  have hfits : RunFits .empty Sample.shared := by
    refine ⟨trivial, ?_, trivial, trivial, trivial⟩
    intro parent scope ttl k r hargs
    rw [hargs] at hsmall
    cases hsmall
  exact (quota_conserved Sample.shared hfits _ _ hroot 3 rfl).1

/-- A grant of one use, a child of `2^64 - 1` split off it, and two uses of the child. -/
def Sample.credited : List Call :=
  [.issue (fun _ => 10) 1 [.string "db:*:*", .number (.whole 100), .string "n", .number (.whole 1)],
    .subgrant (fun _ => 20) 2 [Sample.handle 1 0, .string "db:delete:users", .number (.whole 10),
      .string "n", .number (.whole (10 ^ 20))],
    .use (fun _ => 25) [Sample.handle 2 1],
    .use (fun _ => 26) [Sample.handle 2 1]]

theorem overdrawn : ¬ ∀ calls g rec k, loadRecord (run .empty calls).rows g = .ok rec →
    rec.parentId = none → rec.cls = .n k → treeUses (run .empty calls).rows (uses .empty calls) g ≤ k := by
  intro h
  obtain ⟨hroot, huses, hup⟩ : loadRecord (run .empty Sample.credited).rows ⟨1, 0⟩ = .ok
        ⟨⟨1, 0⟩, none, "db:*:*", .n 1, 2, 110, .active⟩ ∧
      uses .empty Sample.credited = [⟨2, 1⟩, ⟨2, 1⟩] ∧
      descOf (run .empty Sample.credited).rows ⟨2, 1⟩ =
        some ⟨some ⟨1, 0⟩, "db:delete:users", "n:18446744073709551615", 30⟩ := by decide +kernel
  have hchain : Derives (run .empty Sample.credited).rows ⟨2, 1⟩ ⟨1, 0⟩ := .single ⟨_, hup, rfl⟩
  have hle := h Sample.credited _ _ 1 hroot rfl rfl
  rw [huses, treeUses, reachCount_cons_of_reach _ hchain, reachCount_cons_of_reach _ hchain] at hle
  omega

end Metalogos.Grants
