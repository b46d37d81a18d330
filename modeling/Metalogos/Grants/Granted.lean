import Metalogos.Grants.Quota

/-!
# Capability grants: destructive SQL under a grant

`db_execute_with_grant` (`src/db_ops.rs:391-492`) checks the grant, executes the statement and records
the use; each of the three takes its lock for itself. `Vms` holds the ledger and, for each call, how far
it has come; an interleaving is a list of events. The statement's own outcome is part of its event.

Until the use is recorded other calls are checked against the old count: `both_ran` is a grant of one use
under which two statements ran. `Admits` is the condition under which the check is enough: it passes only
while the calls past their check and not recorded are fewer than the uses left.
-/
namespace Metalogos.Grants

open Metalogos.Lib

/-! ## The statement -/

/-- What the scan takes from the Unicode tables. -/
structure Unicode where
  isAlphanumeric : Char → Bool
  toLowercase : String → String

/-- `trim_matches`. -/
def trimMatches (c : Char) (s : List Char) : List Char :=
  ((s.dropWhile (· = c)).reverse.dropWhile (· = c)).reverse

variable (U : Unicode)

/-- The word behind a keyword, as a table name.
mirrors src/grants.rs:368-377 -/
def tableWord (tail : List Char) : List Char :=
  let word := (tail.dropWhile isWhite).takeWhile fun c => U.isAlphanumeric c || c = '_' || c = '"'
  (trimMatches '\'' (trimMatches '"' word)).map Char.toLower

/-- The non-overlapping occurrences of a keyword; `skip` characters still belong to the last one.
mirrors src/grants.rs:364-384 -/
def scanOps (keyword : List Char) (op : String) (skip : Nat) : List Char → List (String × String)
  | [] => []
  | c :: cs =>
    if skip = 0 then
      if keyword.isPrefixOf (c :: cs) then
        let table := tableWord U ((c :: cs).drop keyword.length)
        if table = [] then scanOps keyword op (keyword.length - 1) cs
        else (op, String.ofList table) :: scanOps keyword op (keyword.length - 1) cs
      else scanOps keyword op 0 cs
    else scanOps keyword op (skip - 1) cs

/-- mirrors src/grants.rs:362-390 -/
def extractDestructiveOps (sql : String) : List (String × String) :=
  let up := sql.toList.map Char.toUpper
  scanOps U "DROP TABLE ".toList "drop" 0 up ++ scanOps U "DELETE FROM ".toList "delete" 0 up ++
    scanOps U "TRUNCATE ".toList "truncate" 0 up ++ scanOps U "ALTER TABLE ".toList "alter" 0 up

def destructive (sql : String) : Bool := extractDestructiveOps U sql ≠ []

/-- mirrors src/grants.rs:355-357 -/
def scopeCovers (grantScope op table : String) : Bool :=
  scopeAttenuates grantScope ("db:" ++ op ++ ":" ++ U.toLowercase table)

/-! ## The call -/

/-- `params` is what `bind_params` says about the third argument. -/
structure GrantedCall where
  grant : Option Arg
  sql : Option Arg
  params : Except String Unit

/-- mirrors src/db_ops.rs:397-431 -/
def grantedArgs (c : GrantedCall) : Except String (GrantHandle × String) := do
  let h ← match c.grant with
    | none => .error "db_execute_with_grant() missing grant argument"
    | some (.grant h) => .ok h
    | some a => .error ("db_execute_with_grant() first argument must be a Grant, got " ++ a.typeName)
  let sql ← match c.sql with
    | some (.string s) => .ok s
    | some a => .error ("db_execute_with_grant() second argument must be String SQL, got " ++ a.typeName)
    | none => .error "db_execute_with_grant() missing sql argument"
  c.params
  .ok (h, sql)

/-- How far a call has come. `unrecorded`: the statement ran and `grant_use` refused, the call returns the
error. -/
inductive Stage where
  | start (c : GrantedCall)
  | checked (h : GrantHandle) (sql : String)
  | executed (h : GrantHandle) (affected : Nat)
  | unrecorded (e : String)
  | done (res : Except String Nat)

/-- The gates before the statement.
mirrors src/db_ops.rs:397-445 -/
def gate (l : GrantLedger) (t : Clock) (c : GrantedCall) : Stage :=
  match grantedArgs c with
  | .error e => .done (.error e)
  | .ok (h, sql) =>
    match checkActive l.rows h.grantId (t 0) with
    | .error e => .done (.error e)
    | .ok _ =>
      match (extractDestructiveOps U sql).find? fun x => !scopeCovers U h.scope x.1 x.2 with
      | some (op, table) => .done (.error ("GRANT_SCOPE_MISMATCH: grant " ++ h.grantId.text ++ " (" ++
          h.cls.display ++ ", scope '" ++ h.scope ++ "') does not cover " ++ op ++ " " ++ table))
      | none => .checked h sql

/-- Event of one call. `execute` carries what the connection answers: an error, or the affected rows. -/
inductive Event where
  | check (i : Nat) (t : Clock)
  | execute (i : Nat) (res : Except String Nat)
  | use (i : Nat) (t : Clock)

/-- `ran` counts the destructive statements that were executed. -/
structure Vms where
  ledger : GrantLedger
  stages : List Stage
  ran : Nat

def Vms.moveTo (v : Vms) (i : Nat) (s : Stage) : Vms := { v with stages := v.stages.set i s }

/-- The statement's outcome; one that is not destructive is not recorded.
mirrors src/db_ops.rs:446-491 -/
def Vms.execute (v : Vms) (i : Nat) (h : GrantHandle) (sql : String) : Except String Nat → Vms
  | .error e => v.moveTo i (.done (.error e))
  | .ok affected =>
    if destructive U sql then { v.moveTo i (.executed h affected) with ran := v.ran + 1 }
    else v.moveTo i (.done (.ok affected))

/-- mirrors src/db_ops.rs:461-462 -/
def Vms.use (v : Vms) (i : Nat) (h : GrantHandle) (affected : Nat) (t : Clock) : Vms :=
  match grantUse v.ledger t h with
  | (.error e, l) => { v.moveTo i (.unrecorded e) with ledger := l }
  | (.ok _, l) => { v.moveTo i (.done (.ok affected)) with ledger := l }

/-- An event of a call that stands elsewhere does nothing. -/
def Vms.step (v : Vms) : Event → Vms
  | .check i t =>
    match v.stages[i]? with
    | some (.start c) => v.moveTo i (gate U v.ledger t c)
    | _ => v
  | .execute i res =>
    match v.stages[i]? with
    | some (.checked h sql) => v.execute U i h sql res
    | _ => v
  | .use i t =>
    match v.stages[i]? with
    | some (.executed h affected) => v.use i h affected t
    | _ => v

def Vms.run (v : Vms) (es : List Event) : Vms := es.foldl (Vms.step U) v

/-- Before the calls. -/
def Vms.start (l : GrantLedger) (calls : List GrantedCall) : Vms := ⟨l, calls.map .start, 0⟩

/-! ## Statements not recorded yet -/

/-- The statement ran and no use is recorded for it. -/
def Stage.owes : Stage → Bool
  | .executed _ _ => true
  | .unrecorded _ => true
  | _ => false

/-- It ran, or may still run on a check that passed. -/
def Stage.pending : Stage → Bool
  | .checked _ sql => destructive U sql
  | s => s.owes

def Vms.owing (v : Vms) : Nat := v.stages.countP Stage.owes

def Vms.outstanding (v : Vms) : Nat := v.stages.countP (Stage.pending U)

/-- When the check of a destructive statement passes on a grant that counts, the calls past their check
and not recorded are fewer than the uses left. -/
def Admits (v : Vms) : Event → Prop
  | .check i t => ∀ c h sql rec, v.stages[i]? = some (.start c) → grantedArgs c = .ok (h, sql) →
      destructive U sql = true → checkActive v.ledger.rows h.grantId (t 0) = .ok rec →
      rec.cls ≠ .unlimited → v.outstanding U < toU64 rec.remaining
  | _ => True

def RunAdmits (v : Vms) : List Event → Prop
  | [] => True
  | e :: es => Admits U v e ∧ RunAdmits (v.step U e) es

/-! ## Reachable columns -/

/-- A Once grant has its one use or none. -/
structure GrantRow.Columns (r : GrantRow) : Prop where
  column : InI64 r.remaining
  once : GrantClass.fromLedgerStr r.cls = .once → r.remaining = 0 ∨ r.remaining = 1

def Columns (rows : Rows) : Prop := ∀ id r, rows.get id = some r → r.Columns

theorem Columns.modify {rows : Rows} (h : Columns rows) {id : GrantId} {r : GrantRow}
    (hr : rows.get id = some r) {f : GrantRow → GrantRow} (hf : (f r).Columns) :
    Columns (rows.modify id f) := by
  intro x r' hr'
  rw [Dict.get_modify] at hr'
  split_ifs at hr' with hx
  · subst hx
    rw [hr] at hr'
    cases hr'
    exact hf
  · exact h x r' hr'

theorem Columns.set {rows : Rows} (h : Columns rows) (id : GrantId) {r : GrantRow} (hr : r.Columns) :
    Columns (rows.set id r) := by
  intro x r' hr'
  rw [Dict.get_set] at hr'
  split_ifs at hr' with hx
  · cases hr'
    exact hr
  · exact h x r' hr'

theorem columns_initial {r : GrantRow} {cls : GrantClass} (hs : cls.Sized) (hcls : r.cls = cls.asLedgerStr)
    (hrem : r.remaining = cls.initialRemaining) : r.Columns := by
  constructor
  · rw [hrem]
    exact inI64_initialRemaining cls
  · rw [hcls, fromLedgerStr_asLedgerStr hs, hrem]
    rintro rfl
    exact .inr rfl

theorem columns_afterUse (r : GrantRow) (id : GrantId) (st : GrantState) :
    GrantRow.Columns { r with state := st, remaining := (afterUse (r.record id)).2 } := by
  have hcls : (r.record id).cls = GrantClass.fromLedgerStr r.cls := rfl
  simp only [afterUse, hcls]
  cases hc : GrantClass.fromLedgerStr r.cls with
  | once => exact ⟨inI64_zero, fun _ => .inl rfl⟩
  | n k => exact ⟨inI64_toI64 _, fun h => by rw [hc] at h; cases h⟩
  | unlimited => exact ⟨inI64_neg_one, fun h => by rw [hc] at h; cases h⟩

theorem columns_change {l l' : GrantLedger} {call : Call} {used : Option GrantId} (h : Columns l.rows)
    (hc : Change l call used l') : Columns l'.rows := by
  cases hc with
  | none => exact h
  | issue hexp hsized => exact h.set _ (columns_initial hsized rfl rfl)
  | @subgrant t nanos expires ttl args parent scope cls r d after hargs hexp hsized hpass hsplit _ =>
    refine Columns.set ?_ _ (columns_initial hsized rfl rfl)
    cases hcls : GrantClass.fromLedgerStr r.cls with
    | once =>
      exact h.modify (f := fun r => { r with state := .consumed, remaining := 0 }) hpass.row
        ⟨inI64_zero, fun _ => .inl rfl⟩
    | n k =>
      have hne : GrantClass.fromLedgerStr r.cls ≠ .once := by simp [hcls]
      obtain ⟨-, rfl⟩ := hsplit.budget (by simp [hcls])
      exact h.modify (f := fun x => { x with remaining := toI64 (r.remaining - d) }) hpass.row
        ⟨inI64_toI64 _, fun ho => absurd ho hne⟩
    | unlimited => exact h
  | @use t args id r hpass =>
    exact h.modify hpass.row (columns_afterUse r id _)
  | @revoke args id =>
    intro x r hr
    have hget := (revokeLoop_frame l.rows [id] 0).2 x
    simp only at hr
    rw [hr] at hget
    obtain ⟨r', hr', heq⟩ := Option.map_eq_some_iff.1 hget.symm
    simp only [Prod.mk.injEq] at heq
    have hcls : r'.cls = r.cls := congrArg Desc.cls heq.1
    have hcol := h x r' hr'
    exact ⟨heq.2 ▸ hcol.column, heq.2 ▸ hcls ▸ hcol.once⟩

theorem columns_run (calls : List Call) : Columns (run .empty calls).rows :=
  run_invariant (P := fun l => Columns l.rows) (fun _ _ hr => by cases hr)
    (fun _ _ _ _ => columns_change) calls

/-- A use takes exactly one from a grant that counts. -/
theorem toU64_afterUse {r : GrantRow} {id : GrantId} (h : r.Columns) (h0 : r.remaining ≠ 0)
    (hcls : GrantClass.fromLedgerStr r.cls ≠ .unlimited) :
    toU64 (afterUse (r.record id)).2 + 1 = toU64 r.remaining := by
  have heq : (r.record id).cls = GrantClass.fromLedgerStr r.cls := rfl
  simp only [afterUse, heq]
  cases hc : GrantClass.fromLedgerStr r.cls with
  | once =>
    rcases h.once hc with hzero | hone
    · exact absurd hzero h0
    · rw [hone]
      rfl
  | n k => exact toU64_pred h.column h0
  | unlimited => exact absurd hc hcls

/-! ## The interleavings -/

/-- The calls are made with one grant. -/
def Stage.On (g : GrantId) : Stage → Prop
  | .start c => ∀ h sql, grantedArgs c = .ok (h, sql) → h.grantId = g
  | .checked h _ => h.grantId = g
  | .executed h _ => h.grantId = g
  | _ => True

/-- `R` uses were left before the calls. -/
structure Covered (g : GrantId) (R : Nat) (v : Vms) (r : GrantRow) : Prop where
  row : v.ledger.rows.get g = some r
  columns : r.Columns
  counts : GrantClass.fromLedgerStr r.cls ≠ .unlimited
  on : ∀ s ∈ v.stages, s.On g
  spent : v.ran + toU64 r.remaining ≤ R + v.owing
  covered : v.outstanding U ≤ toU64 r.remaining

theorem countP_set_add {α : Type} {p : α → Bool} {xs : List α} {i : Nat} {x y : α} (h : xs[i]? = some x) :
    (xs.set i y).countP p + (if p x then 1 else 0) = xs.countP p + (if p y then 1 else 0) := by
  induction xs generalizing i with
  | nil => simp at h
  | cons a xs ih =>
    cases i with
    | zero =>
      obtain rfl : a = x := by simpa using h
      simp only [List.set_cons_zero, List.countP_cons]
      omega
    | succ i =>
      have hrest := ih (i := i) (by simpa using h)
      simp only [List.set_cons_succ, List.countP_cons]
      omega

theorem owes_le_pending (s : Stage) (h : s.owes = true) : s.pending U = true := by
  cases s with
  | executed => rfl
  | unrecorded => rfl
  | start => cases h
  | checked => cases h
  | done => cases h

variable {U}

theorem Covered.ran_le {g : GrantId} {R : Nat} {v : Vms} {r : GrantRow} (h : Covered U g R v r) :
    v.ran ≤ R := by
  have hle : v.owing ≤ v.outstanding U := List.countP_mono_left fun s _ => owes_le_pending U s
  have hspent := h.spent
  have hcov := h.covered
  omega

/-- One call moves on: what it ran, took from the grant or may still run is accounted for. -/
theorem Covered.move {g : GrantId} {R : Nat} {v : Vms} {r : GrantRow} (h : Covered U g R v r) {i : Nat}
    {s : Stage} (hs : v.stages[i]? = some s) (s' : Stage) (hon : s'.On g) {l : GrantLedger} {r' : GrantRow} {ran : Nat}
    (hrow : l.rows.get g = some r') (hcol : r'.Columns)
    (hcounts : GrantClass.fromLedgerStr r'.cls ≠ .unlimited)
    (hspent : ran + toU64 r'.remaining + (if s.owes then 1 else 0) ≤
      v.ran + toU64 r.remaining + (if s'.owes then 1 else 0))
    (hcov : v.outstanding U + (if s'.pending U then 1 else 0) ≤
      toU64 r'.remaining + (if s.pending U then 1 else 0)) :
    Covered U g R ⟨l, v.stages.set i s', ran⟩ r' := by
  refine ⟨hrow, hcol, hcounts, fun x hx => ?_, ?_, ?_⟩
  · rcases List.mem_or_eq_of_mem_set hx with hx | rfl
    · exact h.on x hx
    · exact hon
  · have howed := countP_set_add (p := Stage.owes) (y := s') hs
    have hold := h.spent
    simp only [Vms.owing] at *
    omega
  · have hpend := countP_set_add (p := Stage.pending U) (y := s') hs
    simp only [Vms.outstanding] at *
    omega

theorem gate_cases (l : GrantLedger) (t : Clock) (c : GrantedCall) :
    (∃ res, gate U l t c = .done res) ∨
    ∃ h sql rec, grantedArgs c = .ok (h, sql) ∧ checkActive l.rows h.grantId (t 0) = .ok rec ∧
      gate U l t c = .checked h sql := by
  unfold gate
  cases ha : grantedArgs c with
  | error e => exact .inl ⟨_, rfl⟩
  | ok x =>
    obtain ⟨h, sql⟩ := x
    simp only
    cases hc : checkActive l.rows h.grantId (t 0) with
    | error e => exact .inl ⟨_, rfl⟩
    | ok rec =>
      simp only
      split
      · exact .inl ⟨_, rfl⟩
      · exact .inr ⟨h, sql, rec, rfl, hc, rfl⟩

theorem covered_check {g : GrantId} {R : Nat} {v : Vms} {r : GrantRow} (h : Covered U g R v r) {i : Nat}
    {t : Clock} (hok : Admits U v (.check i t)) {c : GrantedCall} (hs : v.stages[i]? = some (.start c)) :
    Covered U g R (v.moveTo i (gate U v.ledger t c)) r := by
  rcases gate_cases (U := U) v.ledger t c with ⟨res, hg⟩ | ⟨hd, sql, rec, hargs, hact, hg⟩
  · rw [hg]
    exact h.move hs (.done res) trivial h.row h.columns h.counts (by simp [Stage.owes]) (by
      simpa [Stage.pending, Stage.owes] using h.covered)
  · rw [hg]
    have hid : hd.grantId = g := h.on _ (List.mem_of_getElem? hs) hd sql hargs
    refine h.move hs (.checked hd sql) hid h.row h.columns h.counts (by simp [Stage.owes]) ?_
    have hcov := h.covered
    by_cases hdes : destructive U sql = true
    · -- the check passed: the condition leaves room for this statement
      obtain ⟨r', hpass, rfl⟩ := checkActive_ok hact
      have hr : r' = r := by
        have hrow := hpass.row
        rw [hid, h.row] at hrow
        exact (Option.some.inj hrow).symm
      subst hr
      have hroom : v.outstanding U < toU64 r'.remaining :=
        hok c hd sql _ hs hargs hdes hact h.counts
      simp only [Stage.pending, Stage.owes, hdes, if_true]
      omega
    · simp only [Stage.pending, Stage.owes, hdes, Bool.false_eq_true, if_false]
      omega

theorem covered_execute {g : GrantId} {R : Nat} {v : Vms} {r : GrantRow} (h : Covered U g R v r) {i : Nat}
    {hd : GrantHandle} {sql : String} (hs : v.stages[i]? = some (.checked hd sql))
    (res : Except String Nat) : Covered U g R (v.execute U i hd sql res) r := by
  have hid : hd.grantId = g := h.on _ (List.mem_of_getElem? hs)
  have hcov := h.covered
  unfold Vms.execute
  cases res with
  | error e =>
    refine h.move hs (.done (.error e)) trivial h.row h.columns h.counts (by simp [Stage.owes]) ?_
    simp only [Stage.pending, Stage.owes, Bool.false_eq_true, if_false]
    omega
  | ok affected =>
    simp only
    split_ifs with hdes
    · refine h.move hs (.executed hd affected) hid h.row h.columns h.counts ?_ ?_
      · simp only [Stage.owes, if_true, Bool.false_eq_true, if_false]
        omega
      · simp only [Stage.pending, Stage.owes, hdes, if_true]
        omega
    · refine h.move hs (.done (.ok affected)) trivial h.row h.columns h.counts (by simp [Stage.owes]) ?_
      simp only [Stage.pending, Stage.owes, Bool.false_eq_true, if_false]
      omega

theorem covered_use {g : GrantId} {R : Nat} {v : Vms} {r : GrantRow} (h : Covered U g R v r) {i : Nat}
    {hd : GrantHandle} {affected : Nat} (hs : v.stages[i]? = some (.executed hd affected)) (t : Clock) :
    ∃ r', Covered U g R (v.use i hd affected t) r' := by
  have hid : hd.grantId = g := h.on _ (List.mem_of_getElem? hs)
  have hcov := h.covered
  unfold Vms.use grantUse Vms.moveTo
  rw [hid]
  cases hact : checkActive v.ledger.rows g (t 0) with
  | error e =>
    refine ⟨r, h.move hs (.unrecorded e) trivial h.row h.columns h.counts (by simp [Stage.owes]) ?_⟩
    simp only [Stage.pending, Stage.owes, if_true]
    omega
  | ok rec =>
    obtain ⟨r', hpass, rfl⟩ := checkActive_ok hact
    obtain rfl : r' = r := Option.some.inj (hpass.row.symm.trans h.row)
    have hone : toU64 (afterUse (r'.record g)).2 + 1 = toU64 r'.remaining :=
      toU64_afterUse h.columns hpass.remaining h.counts
    refine ⟨_, h.move hs (.done (.ok affected)) trivial (by rw [Dict.get_modify, if_pos rfl, h.row, Option.map_some])
      (columns_afterUse r' g _) h.counts ?_ ?_⟩
    · simp only [Stage.owes, if_true, Bool.false_eq_true, if_false]
      omega
    · simp only [Stage.pending, Stage.owes, if_true, Bool.false_eq_true, if_false]
      omega

theorem covered_step {g : GrantId} {R : Nat} {v : Vms} {r : GrantRow} (h : Covered U g R v r) (e : Event)
    (hok : Admits U v e) : ∃ r', Covered U g R (v.step U e) r' := by
  cases e with
  | check i t =>
    simp only [Vms.step]
    split
    · rename_i c hs
      exact ⟨r, covered_check h hok hs⟩
    · exact ⟨r, h⟩
  | execute i res =>
    simp only [Vms.step]
    split
    · rename_i hd sql hs
      exact ⟨r, covered_execute h hs res⟩
    · exact ⟨r, h⟩
  | use i t =>
    simp only [Vms.step]
    split
    · rename_i hd affected hs
      exact covered_use h hs t
    · exact ⟨r, h⟩

theorem covered_run {g : GrantId} {R : Nat} {v : Vms} {r : GrantRow} (h : Covered U g R v r)
    (es : List Event) (hok : RunAdmits U v es) : ∃ r', Covered U g R (v.run U es) r' := by
  induction es generalizing v r with
  | nil => exact ⟨r, h⟩
  | cons e es ih =>
    obtain ⟨r', h'⟩ := covered_step h e hok.1
    exact ih h' hok.2

/-- Under every interleaving whose checks meet the condition, no more destructive statements run than
the grant had uses left before the calls. -/
theorem granted_within_quota (before : List Call) (g : GrantId) (rec : GrantRecord)
    (hg : loadRecord (run .empty before).rows g = .ok rec) (hcounts : rec.cls ≠ .unlimited)
    (calls : List GrantedCall) (hsame : ∀ c ∈ calls, ∀ h sql, grantedArgs c = .ok (h, sql) → h.grantId = g)
    (es : List Event) (hok : RunAdmits U (.start (run .empty before) calls) es) :
    (Vms.run U (.start (run .empty before) calls) es).ran ≤ toU64 rec.remaining := by
  obtain ⟨r, hr, rfl⟩ := loadRecord_ok hg
  have hstart : Covered U g (toU64 r.remaining) (.start (run .empty before) calls) r := by
    refine ⟨hr, columns_run before g r hr, hcounts, fun s hs => ?_, ?_, ?_⟩
    · obtain ⟨c, hc, rfl⟩ := List.mem_map.1 hs
      exact hsame c hc
    · simp only [Vms.start]
      omega
    · have hnone : (Vms.start (run .empty before) calls).outstanding U = 0 := by
        refine List.countP_eq_zero.2 fun s hs => ?_
        obtain ⟨c, -, rfl⟩ := List.mem_map.1 hs
        simp [Stage.pending, Stage.owes]
      omega
  obtain ⟨r', h'⟩ := covered_run hstart es hok
  exact h'.ran_le

/-- The Unicode tables on ASCII text. -/
def Sample.ascii : Unicode := ⟨Char.isAlphanum, fun s => String.ofList (s.toList.map Char.toLower)⟩

/-- A grant of one use. -/
def Sample.single : List Call :=
  [.issue (fun _ => 10) 1 [.string "db:delete:*", .number (.whole 100)]]

/-- A deletion under it. -/
def Sample.deletion : GrantedCall :=
  ⟨some (.grant ⟨⟨1, 0⟩, "db:delete:*", .once, 110, "program"⟩), some (.string "DELETE FROM users"), .ok ()⟩

/-- Two calls, the first of them recorded. -/
def Sample.recorded : Vms :=
  Vms.run Sample.ascii (.start (run .empty Sample.single) [Sample.deletion, Sample.deletion])
    [.check 0 (fun _ => 20), .execute 0 (.ok 3), .use 0 (fun _ => 21)]

theorem Sample.single_rows :
    loadRecord (run .empty Sample.single).rows ⟨1, 0⟩ = .ok
      ⟨⟨1, 0⟩, none, "db:delete:*", .once, 1, 110, .active⟩ ∧
    checkActive (run .empty Sample.single).rows ⟨1, 0⟩ 20 = .ok
      ⟨⟨1, 0⟩, none, "db:delete:*", .once, 1, 110, .active⟩ := by
  decide +kernel

/-- The second is refused. -/
theorem granted_within_quota_sequential :
    (Vms.run Sample.ascii (.start (run .empty Sample.single) [Sample.deletion, Sample.deletion])
      [.check 0 (fun _ => 20), .execute 0 (.ok 3), .use 0 (fun _ => 21), .check 1 (fun _ => 22)]).ran ≤ 1 := by
  obtain ⟨hroot, hcheck⟩ := Sample.single_rows
  have hargs : grantedArgs Sample.deletion =
      .ok (⟨⟨1, 0⟩, "db:delete:*", .once, 110, "program"⟩, "DELETE FROM users") := rfl
  refine granted_within_quota Sample.single ⟨1, 0⟩ _ hroot (by decide)
    [Sample.deletion, Sample.deletion] ?_ _ ⟨?_, trivial, trivial, ?_, trivial⟩
  · intro c hc h sql hcargs
    obtain rfl : c = Sample.deletion := by simpa using hc
    rw [hargs] at hcargs
    cases hcargs
    rfl
  · intro c h sql rec hs hcargs _ hact _
    obtain rfl : Sample.deletion = c := by simpa [Vms.start] using hs
    rw [hargs] at hcargs
    cases hcargs
    have hrec : rec = ⟨⟨1, 0⟩, none, "db:delete:*", .once, 1, 110, .active⟩ :=
      Except.ok.inj (hact.symm.trans hcheck)
    rw [hrec]
    decide +kernel
  · intro c h sql rec hs hcargs _ hact _
    have hstage : Sample.recorded.stages[1]? = some (.start Sample.deletion) := by rfl
    obtain rfl : Sample.deletion = c := Stage.start.inj (Option.some.inj (hstage.symm.trans hs))
    rw [hargs] at hcargs
    cases hcargs
    have hused : (checkActive Sample.recorded.ledger.rows ⟨1, 0⟩ 22).toBool = false := by decide +kernel
    have hact : checkActive Sample.recorded.ledger.rows ⟨1, 0⟩ 22 = .ok rec := hact
    rw [hact] at hused
    cases hused

/-- Both are checked before either is recorded. -/
theorem both_ran : ¬ ∀ (U : Unicode) before g rec, loadRecord (run .empty before).rows g = .ok rec →
    rec.cls ≠ .unlimited → ∀ calls : List GrantedCall,
    (∀ c ∈ calls, ∀ h sql, grantedArgs c = .ok (h, sql) → h.grantId = g) → ∀ es,
    (Vms.run U (.start (run .empty before) calls) es).ran ≤ toU64 rec.remaining := by
  intro h
  obtain ⟨hroot, _⟩ := Sample.single_rows
  have hle := h Sample.ascii Sample.single ⟨1, 0⟩ _ hroot (by decide) [Sample.deletion, Sample.deletion]
    (fun c hc hd sql hcargs => by
      obtain rfl : c = Sample.deletion := by simpa using hc
      cases hcargs
      rfl)
    [.check 0 (fun _ => 20), .check 1 (fun _ => 20), .execute 0 (.ok 3), .execute 1 (.ok 0)]
  have hran : (Vms.run Sample.ascii (.start (run .empty Sample.single) [Sample.deletion, Sample.deletion])
      [.check 0 (fun _ => 20), .check 1 (fun _ => 20), .execute 0 (.ok 3), .execute 1 (.ok 0)]).ran = 2 := by
    decide +kernel
  rw [hran] at hle
  exact absurd hle (by decide)

end Metalogos.Grants
