import Metalogos.Compile.Grows

/-!
# Names on both sides: a static analysis of a body

The tree-walker looks a name up in one environment at run time; the compiler fixes a slot when it
reaches the name in the text. The analysis tracks, along the text and along the control flow,

* `bound`: names that are bound on every path and whose slot holds the tree-walker's value
  (`none` where control never arrives);
* `may`: names the environment may hold;
* `slots`: names the compiler has a slot for;
* `prot`: names whose slot must not be written here (the counter of an `each` with an index; in
  an arm of a block expression, every name from outside).

A read of `x` is in scope when `x` is bound, or when neither side knows `x` and both fall back to
the globals (`Scope.reads`). `Policy` collects what else a body may contain; `okStmts` is the whole
check.
-/
namespace Metalogos.Refine

open Metalogos.Lang Metalogos.Compile

variable {F : Type}

/-- Names whose slot and value part ways when the block is left or entered again: its loop
variables and, in an arm, the names it binds to fresh slots. -/
def clobStmts (fresh : Bool) (ss : List (Stmt F)) : List String :=
  loopVarsStmts ss ++ if fresh then letsStmts ss else []

/-! ## Scopes -/

structure Scope where
  bound : Option (List String)
  may : List String
  slots : List String
  prot : List String

/-- Forget names. -/
def dropNames (names : List String) (b : Option (List String)) : Option (List String) :=
  b.map fun l => l.filter (· ∉ names)

/-- What is bound whichever of two ways control came. -/
def meet : Option (List String) → Option (List String) → Option (List String)
  | none, b => b
  | a, none => a
  | some a, some b => some (a.filter (· ∈ b))

namespace Scope

/-- A read both sides resolve alike. -/
def reads (Γ : Scope) (x : String) : Bool :=
  match Γ.bound with
  | none => true
  | some b => decide (x ∈ b) || (decide (x ∉ Γ.may) && decide (x ∉ Γ.slots))

/-- Bound here, if control gets here. -/
def within (Γ : Scope) (x : String) : Bool :=
  match Γ.bound with
  | none => true
  | some b => decide (x ∈ b)

/-- While the initializer of `let x` is compiled, `x` has its slot already: the old one when it is
reused, else a fresh one nothing was stored to. -/
def init (Γ : Scope) (reuse : Bool) (x : String) : Scope :=
  { Γ with bound := if reuse then Γ.bound else dropNames [x] Γ.bound, slots := x :: Γ.slots }

/-- The scope the next branch is compiled in: the text of `names` is behind. -/
def past (Γ : Scope) (fresh : Bool) (names : List String) : Scope :=
  { Γ with bound := if fresh then dropNames names Γ.bound else Γ.bound, slots := Γ.slots ++ names }

/-- The scope at the head of a loop, whichever iteration this is. -/
def loop (Γ : Scope) (fresh : Bool) (body : List (Stmt F)) : Scope :=
  { Γ with bound := dropNames (clobStmts fresh body) Γ.bound,
           may := Γ.may ++ letsStmts body ++ loopVarsStmts body }

/-- An arm of a block expression may not write what was there before it. -/
def arm (Γ : Scope) : Scope := { Γ with prot := Γ.slots }

def bindItem (Γ : Scope) (x : String) : Scope where
  bound := Γ.bound.map (x :: ·)
  may := x :: Γ.may
  slots := x :: Γ.slots
  prot := Γ.prot.filter (· ≠ x)

def bindIndex (Γ : Scope) (i : String) : Scope where
  bound := Γ.bound.map (i :: ·)
  may := i :: Γ.may
  slots := i :: Γ.slots
  prot := i :: Γ.prot

end Scope

mutual
/-- What is bound after a statement that completed. -/
def flowStmt (mode : Mode) (fresh : Bool) (Γ : Scope) : Stmt F → Option (List String)
  | .letBinding x _ _ => Γ.bound.map (x :: ·)
  | .assign x _ => Γ.bound.map (x :: ·)
  | .each x _ body => dropNames (x :: clobStmts fresh body) Γ.bound
  | .eachWithIndex i x _ body => dropNames (i :: x :: clobStmts fresh body) Γ.bound
  | .while_ _ body => dropNames (clobStmts fresh body) Γ.bound
  | .ifElseBlock _ body rest =>
    meet (if fresh then dropNames (letsElse rest) (flowStmts mode.inner fresh Γ body)
        else flowStmts mode.inner fresh Γ body)
      (flowElse mode.inner fresh (Γ.past fresh (letsStmts body)) rest)
  | .ifThen _ body =>
    meet (flowStmts mode.inner fresh Γ body) (Γ.past fresh (letsStmts body)).bound
  -- in an arm the scrutinee waits under the cells of the bodies, and the final `Pop` takes the
  -- topmost of them: only names that had a cell before the `match` can be relied on
  | .match_ _ arms =>
    if mode.isValue then
      dropNames (letsArms arms) ((flowArms mode.inner fresh Γ arms).map (·.filter Γ.within))
    else flowArms mode.inner fresh Γ arms
  | .return_ _ => none
  | .break_ => none
  | .continue_ => none
  | _ => Γ.bound

def flowStmts (mode : Mode) (fresh : Bool) (Γ : Scope) : List (Stmt F) → Option (List String)
  | [] => Γ.bound
  | s :: rest => flowStmts mode fresh
      { bound := flowStmt mode fresh Γ s,
        may := Γ.may ++ letsStmt s ++ loopVarsStmt s,
        slots := Γ.slots ++ letsStmt s,
        prot := match s with
          | .letBinding x (.matchExpr _ _) _ =>
            if mode.isValue then Γ.prot.filter (· ≠ x) else Γ.prot
          | .letBinding x _ _ => if mode.reuse fresh then Γ.prot else Γ.prot.filter (· ≠ x)
          | _ => Γ.prot } rest

def flowElse (mode : Mode) (fresh : Bool) (Γ : Scope) : ElseChain F → Option (List String)
  | .none => Γ.bound
  | .else_ body => flowStmts mode fresh Γ body
  | .elseIf _ body rest =>
    meet (if fresh then dropNames (letsElse rest) (flowStmts mode fresh Γ body)
        else flowStmts mode fresh Γ body)
      (flowElse mode fresh (Γ.past fresh (letsStmts body)) rest)

def flowArms (mode : Mode) (fresh : Bool) (Γ : Scope) : MatchArms F → Option (List String)
  | .none => Γ.bound
  | .else_ body => flowStmts mode fresh Γ body
  | .lit _ body rest =>
    meet (if fresh then dropNames (letsArms rest) (flowStmts mode fresh Γ body)
        else flowStmts mode fresh Γ body)
      (flowArms mode fresh (Γ.past fresh (letsStmts body)) rest)
  | .compare _ _ body rest =>
    meet (if fresh then dropNames (letsArms rest) (flowStmts mode fresh Γ body)
        else flowStmts mode fresh Γ body)
      (flowArms mode fresh (Γ.past fresh (letsStmts body)) rest)
end

/-- The scope after a statement. -/
def Scope.after (Γ : Scope) (mode : Mode) (fresh : Bool) (s : Stmt F) : Scope where
  bound := flowStmt mode fresh Γ s
  may := Γ.may ++ letsStmt s ++ loopVarsStmt s
  slots := Γ.slots ++ letsStmt s
  prot := match s with
    | .letBinding x (.matchExpr _ _) _ =>
      if mode.isValue then Γ.prot.filter (· ≠ x) else Γ.prot
    | .letBinding x _ _ => if mode.reuse fresh then Γ.prot else Γ.prot.filter (· ≠ x)
    | _ => Γ.prot

/-- The scope after a chain of branches. -/
def Scope.afterElse (Γ : Scope) (mode : Mode) (fresh : Bool) (rest : ElseChain F) : Scope where
  bound := flowElse mode fresh Γ rest
  may := Γ.may ++ letsElse rest ++ loopVarsElse rest
  slots := Γ.slots ++ letsElse rest
  prot := Γ.prot

def Scope.afterArms (Γ : Scope) (mode : Mode) (fresh : Bool) (arms : MatchArms F) : Scope where
  bound := flowArms mode fresh Γ arms
  may := Γ.may ++ letsArms arms ++ loopVarsArms arms
  slots := Γ.slots ++ letsArms arms
  prot := Γ.prot

/-- The scope after a block. -/
def Scope.afters (mode : Mode) (fresh : Bool) : Scope → List (Stmt F) → Scope
  | Γ, [] => Γ
  | Γ, s :: rest => afters mode fresh (Γ.after mode fresh s) rest

theorem flowStmts_cons {mode : Mode} {fresh : Bool} {Γ : Scope} {s : Stmt F}
    {rest : List (Stmt F)} :
    flowStmts mode fresh Γ (s :: rest) = flowStmts mode fresh (Γ.after mode fresh s) rest := rfl

theorem afters_bound {mode : Mode} {fresh : Bool} : ∀ (ss : List (Stmt F)) {Γ : Scope},
    (Γ.afters mode fresh ss).bound = flowStmts mode fresh Γ ss
  | [], _ => rfl
  | s :: rest, Γ => by
    rw [flowStmts_cons]
    exact afters_bound rest

theorem mem_afters_may {mode : Mode} {fresh : Bool} {x : String} :
    ∀ {ss : List (Stmt F)} {Γ : Scope}, x ∈ (Γ.afters mode fresh ss).may ↔
      x ∈ Γ.may ∨ x ∈ letsStmts ss ∨ x ∈ loopVarsStmts ss
  | [], Γ => by simp [Scope.afters, letsStmts, loopVarsStmts]
  | s :: rest, Γ => by
    simp only [Scope.afters, mem_afters_may, Scope.after, letsStmts, loopVarsStmts, List.mem_append]
    tauto

theorem mem_afters_slots {mode : Mode} {fresh : Bool} {x : String} :
    ∀ {ss : List (Stmt F)} {Γ : Scope}, x ∈ (Γ.afters mode fresh ss).slots ↔
      x ∈ Γ.slots ∨ x ∈ letsStmts ss
  | [], Γ => by simp [Scope.afters, letsStmts]
  | s :: rest, Γ => by
    simp only [Scope.afters, mem_afters_slots, Scope.after, letsStmts, List.mem_append]
    tauto

theorem inner_fresh {mode : Mode} {fresh : Bool} (hm : mode.isValue = true → fresh = true) :
    mode.inner.isValue = true → fresh = true := by
  cases mode <;> simp_all [Mode.inner, Mode.isValue]

/-- What two ways agree on, one of them agrees on. -/
theorem meet_left {a b : Option (List String)} {l : List String} (h : a = some l) :
    ∃ l', meet a b = some l' ∧ ∀ x ∈ l', x ∈ l := by
  subst h
  cases b with
  | none => exact ⟨l, rfl, fun _ hx => hx⟩
  | some m => exact ⟨_, rfl, fun x hx => (List.mem_filter.1 hx).1⟩

theorem meet_right {a b : Option (List String)} {l : List String} (h : b = some l) :
    ∃ l', meet a b = some l' ∧ ∀ x ∈ l', x ∈ l := by
  subst h
  cases a with
  | none => exact ⟨l, rfl, fun _ hx => hx⟩
  | some m => exact ⟨_, rfl, fun x hx => by simpa using (List.mem_filter.1 hx).2⟩

theorem dropIf_some (fresh : Bool) (names : List String) {l : List String} {b : Option (List String)}
    (h : b = some l) : ∃ l', (if fresh then dropNames names b else b) = some l' ∧
      ∀ x ∈ l', x ∈ l ∧ (fresh = true → x ∉ names) := by
  subst h
  cases fresh with
  | false => exact ⟨l, rfl, fun x hx => ⟨hx, nofun⟩⟩
  | true =>
    refine ⟨_, rfl, fun x hx => ?_⟩
    simp only [List.mem_filter, decide_eq_true_eq] at hx
    exact ⟨hx.1, fun _ => hx.2⟩

/-! ## What stays bound -/

/-- `x` is bound, if control gets here at all. -/
def Has (b : Option (List String)) (x : String) : Prop := ∀ l, b = some l → x ∈ l

namespace Has

variable {a b : Option (List String)} {x y : String} {names : List String}

theorem none : Has none x := nofun

theorem cons (h : Has b x) : Has (b.map (y :: ·)) x := by
  intro l hl
  obtain ⟨l₀, rfl, rfl⟩ := Option.map_eq_some_iff.1 hl
  exact List.mem_cons_of_mem _ (h _ rfl)

theorem drop (h : Has b x) (hx : x ∉ names) : Has (dropNames names b) x := by
  intro l hl
  obtain ⟨l₀, rfl, rfl⟩ := Option.map_eq_some_iff.1 hl
  simp [h _ rfl, hx]

theorem filter {f : String → Bool} (h : Has b x) (hx : f x = true) :
    Has (b.map (·.filter f)) x := by
  intro l hl
  obtain ⟨l₀, rfl, rfl⟩ := Option.map_eq_some_iff.1 hl
  simp [h _ rfl, hx]

theorem dropIf {fresh : Bool} (h : Has b x) (hx : fresh = true → x ∉ names) :
    Has (if fresh then dropNames names b else b) x := by
  cases fresh with
  | true => exact h.drop (hx rfl)
  | false => exact h

theorem meet (ha : Has a x) (hb : Has b x) : Has (meet a b) x := by
  cases a with
  | none => exact hb
  | some l =>
    cases b with
    | none => exact ha
    | some l' =>
      intro m hm
      obtain rfl : l.filter (· ∈ l') = m := by simpa [Refine.meet] using hm
      simp [ha _ rfl, hb _ rfl]

end Has

theorem within_of_has {Γ : Scope} {x : String} (h : Has Γ.bound x) : Γ.within x = true := by
  unfold Scope.within
  split
  · rfl
  · rename_i b hb
    simpa using h b hb

mutual
/-- A name stays bound unless the statement loops over it or, in an arm, binds it anew. -/
theorem flowStmt_has {mode : Mode} {fresh : Bool} {x : String}
    (hm : mode.isValue = true → fresh = true) : ∀ (s : Stmt F) {Γ : Scope}, Has Γ.bound x →
    x ∉ loopVarsStmt s → (fresh = true → x ∉ letsStmt s) → Has (flowStmt mode fresh Γ s) x
  | .letBinding _ _ _, _, h, _, _ | .assign _ _, _, h, _, _ => h.cons
  | .each _ _ body, _, h, hv, hl => by
    simp only [loopVarsStmt, letsStmt, List.mem_cons, not_or] at hv hl
    refine h.drop ?_
    simp only [List.mem_cons, clobStmts, List.mem_append, not_or]
    exact ⟨hv.1, hv.2, by cases fresh <;> simp_all⟩
  | .eachWithIndex _ _ _ body, _, h, hv, hl => by
    simp only [loopVarsStmt, letsStmt, List.mem_cons, List.mem_append, not_or] at hv hl
    refine h.drop ?_
    simp only [List.mem_cons, clobStmts, List.mem_append, not_or]
    exact ⟨hv.1, hv.2.1, hv.2.2, by cases fresh <;> simp_all⟩
  | .while_ _ body, _, h, hv, hl => by
    simp only [loopVarsStmt, letsStmt] at hv hl
    refine h.drop ?_
    simp only [clobStmts, List.mem_append, not_or]
    exact ⟨hv, by cases fresh <;> simp_all⟩
  | .ifElseBlock _ body rest, Γ, h, hv, hl => by
    simp only [loopVarsStmt, letsStmt, List.mem_append, not_or] at hv hl
    have hi := inner_fresh hm
    refine Has.meet ?_ ?_
    · exact (flowStmts_has hi body h hv.1 fun hf => (hl hf).1).dropIf fun hf => (hl hf).2
    · exact flowElse_has hi rest (h.dropIf fun hf => (hl hf).1) hv.2 fun hf => (hl hf).2
  | .ifThen _ body, Γ, h, hv, hl => by
    simp only [loopVarsStmt, letsStmt] at hv hl
    exact Has.meet (flowStmts_has (inner_fresh hm) body h hv hl) (h.dropIf hl)
  | .match_ _ arms, Γ, h, hv, hl => by
    simp only [loopVarsStmt, letsStmt] at hv hl
    have ha := flowArms_has (inner_fresh hm) arms h hv hl
    simp only [flowStmt]
    split_ifs with hval
    · exact (ha.filter (within_of_has h)).drop (hl (hm hval))
    · exact ha
  | .return_ _, _, _, _, _ | .break_, _, _, _, _ | .continue_, _, _, _, _ => Has.none
  | .exprStmt _, _, h, _, _ | .memorize _ _, _, h, _, _ | .forget _ _, _, h, _, _
  | .relate _ _ _, _, h, _, _ => h

theorem flowStmts_has {mode : Mode} {fresh : Bool} {x : String}
    (hm : mode.isValue = true → fresh = true) : ∀ (ss : List (Stmt F)) {Γ : Scope}, Has Γ.bound x →
    x ∉ loopVarsStmts ss → (fresh = true → x ∉ letsStmts ss) → Has (flowStmts mode fresh Γ ss) x
  | [], _, h, _, _ => h
  | s :: rest, Γ, h, hv, hl => by
    simp only [loopVarsStmts, letsStmts, List.mem_append, not_or] at hv hl
    rw [flowStmts_cons]
    refine flowStmts_has hm rest (flowStmt_has hm s h hv.1 fun hf => (hl hf).1) hv.2 ?_
    exact fun hf => (hl hf).2

theorem flowElse_has {mode : Mode} {fresh : Bool} {x : String}
    (hm : mode.isValue = true → fresh = true) : ∀ (rest : ElseChain F) {Γ : Scope}, Has Γ.bound x →
    x ∉ loopVarsElse rest → (fresh = true → x ∉ letsElse rest) → Has (flowElse mode fresh Γ rest) x
  | .none, _, h, _, _ => h
  | .else_ body, _, h, hv, hl => flowStmts_has hm body h hv hl
  | .elseIf _ body rest, Γ, h, hv, hl => by
    simp only [loopVarsElse, letsElse, List.mem_append, not_or] at hv hl
    refine Has.meet ?_ ?_
    · exact (flowStmts_has hm body h hv.1 fun hf => (hl hf).1).dropIf fun hf => (hl hf).2
    · exact flowElse_has hm rest (h.dropIf fun hf => (hl hf).1) hv.2 fun hf => (hl hf).2

theorem flowArms_has {mode : Mode} {fresh : Bool} {x : String}
    (hm : mode.isValue = true → fresh = true) : ∀ (arms : MatchArms F) {Γ : Scope}, Has Γ.bound x →
    x ∉ loopVarsArms arms → (fresh = true → x ∉ letsArms arms) → Has (flowArms mode fresh Γ arms) x
  | .none, _, h, _, _ => h
  | .else_ body, _, h, hv, hl => flowStmts_has hm body h hv hl
  | .lit _ body rest, Γ, h, hv, hl | .compare _ _ body rest, Γ, h, hv, hl => by
    simp only [loopVarsArms, letsArms, List.mem_append, not_or] at hv hl
    refine Has.meet ?_ ?_
    · exact (flowStmts_has hm body h hv.1 fun hf => (hl hf).1).dropIf fun hf => (hl hf).2
    · exact flowArms_has hm rest (h.dropIf fun hf => (hl hf).1) hv.2 fun hf => (hl hf).2
end

/-! ## The check -/

/-- What a body may contain besides names in scope: calls (by name and arguments), qualified calls,
statements that call a sink, `let`s of a source, block expressions, index access, struct
literals. -/
structure Policy (F : Type) where
  call : String → List (Expr F) → Bool
  qualified : String → String → List (Expr F) → Bool
  sink : Expr F → Bool
  source : String → Expr F → Bool
  block : Bool
  index : Bool
  struct_ : Bool

section

variable (p : Policy F)

mutual
/-- `k` bounds the nesting of `try`. -/
def okExpr (k : Nat) (Γ : Scope) : Expr F → Bool
  | .stringLit _ | .floatLit _ | .boolLit _ => true
  | .ident x => Γ.reads x
  | .fieldAccess e _ => okExpr k Γ e
  | .fnCall f args _ => p.call f args && okExprs k Γ args
  | .qualifiedCall ns f args => p.qualified ns f args && okExprs k Γ args
  | .binaryOp l _ r => okExpr k Γ l && okExpr k Γ r
  | .ifElse c t e => okExpr k Γ c && okExpr k Γ t && okExpr k Γ e
  | .list items => okExprs k Γ items
  | .indexAccess b i => p.index && okExpr k Γ b && okExpr k Γ i
  | .structLit keys values =>
    p.struct_ && decide (keys.length = values.length) && okExprs k Γ values
  | .blockIfElse c t rest =>
    p.block && okExpr k Γ c && okStmts k .arm true Γ.arm t && okElse k .arm true Γ rest
  | .matchExpr _ _ => false
  | .try_ e =>
    match k with
    | 0 => false
    | k + 1 => okExpr k Γ e
  | .handleSource _ => true
  | .provBind _ e => okExpr k Γ e

def okExprs (k : Nat) (Γ : Scope) : List (Expr F) → Bool
  | [] => true
  | e :: es => okExpr k Γ e && okExprs k Γ es

/-- The bodies of a chain; in an arm each starts from the scope of the whole expression. -/
def okElse (k : Nat) (mode : Mode) (fresh : Bool) (Γ : Scope) : ElseChain F → Bool
  | .none => true
  | .else_ body => okStmts k mode fresh (if mode = .arm then Γ.arm else Γ) body
  | .elseIf c body rest =>
    okExpr k Γ c && okStmts k mode fresh (if mode = .arm then Γ.arm else Γ) body
      && okElse k mode fresh (if mode = .arm then Γ else Γ.past fresh (letsStmts body)) rest

def okArms (k : Nat) (mode : Mode) (fresh : Bool) (Γ : Scope) : MatchArms F → Bool
  | .none => true
  | .else_ body => okStmts k mode fresh (if mode = .arm then Γ.arm else Γ) body
  | .lit _ body rest =>
    okStmts k mode fresh (if mode = .arm then Γ.arm else Γ) body
      && okArms k mode fresh (if mode = .arm then Γ else Γ.past fresh (letsStmts body)) rest
  | .compare _ th body rest =>
    okExpr k Γ th && okStmts k mode fresh (if mode = .arm then Γ.arm else Γ) body
      && okArms k mode fresh (if mode = .arm then Γ else Γ.past fresh (letsStmts body)) rest

def okStmt (k : Nat) (mode : Mode) (fresh : Bool) (Γ : Scope) : Stmt F → Bool
  | .letBinding x (.matchExpr s arms) _ =>
    p.block && (mode.isValue || decide (x ∉ Γ.prot)) && okExpr k (Γ.init (!mode.isValue) x) s
      && okArms k .arm true (Γ.init (!mode.isValue) x) arms
  | .letBinding x e _ =>
    (!mode.reuse fresh || decide (x ∉ Γ.prot)) && p.source x e
      && okExpr k (Γ.init (mode.reuse fresh) x) e
  | .assign x e => decide (x ∉ Γ.prot) && decide (x ∈ Γ.may) && okExpr k Γ e
  | .each x it body =>
    okExpr k Γ it && okStmts k (.plain true) fresh ((Γ.loop fresh body).bindItem x) body
  | .eachWithIndex i x it body =>
    decide (i ≠ x) && okExpr k Γ it
      && okStmts k (.plain true) fresh (((Γ.loop fresh body).bindItem x).bindIndex i) body
  | .while_ c body =>
    okExpr k (Γ.loop fresh body) c && okStmts k (.plain true) fresh (Γ.loop fresh body) body
  | .ifElseBlock c body rest =>
    okExpr k Γ c && okStmts k mode.inner fresh Γ body
      && okElse k mode.inner fresh (Γ.past fresh (letsStmts body)) rest
  | .ifThen c body => okExpr k Γ c && okStmts k mode.inner fresh Γ body
  | .return_ e => (decide (mode = .arm) || p.sink e) && okExpr k Γ e
  | .exprStmt e => (mode.isValue || p.sink e) && okExpr k Γ e
  | .match_ s arms => okExpr k Γ s && okArms k mode.inner fresh Γ arms
  | .break_ => decide (mode = .plain true)
  | .continue_ => decide (mode = .plain true)
  | .memorize e _ => okExpr k Γ e
  | .forget e _ => okExpr k Γ e
  | .relate a b _ => okExpr k Γ a && okExpr k Γ b

def okStmts (k : Nat) (mode : Mode) (fresh : Bool) (Γ : Scope) : List (Stmt F) → Bool
  | [] => true
  | s :: rest => okStmt k mode fresh Γ s && okStmts k mode fresh (Γ.after mode fresh s) rest
end

/-! ## What the check rules out -/

variable {p}

mutual
/-- A checked statement never loops over two names that are one. -/
theorem okStmt_shares {k : Nat} {mode : Mode} {fresh : Bool} : ∀ {s : Stmt F} {Γ : Scope},
    okStmt p k mode fresh Γ s = true → sharesStmt s = false
  | .letBinding _ _ _, _, _ | .assign _ _, _, _ | .return_ _, _, _ | .exprStmt _, _, _
  | .break_, _, _ | .continue_, _, _ | .memorize _ _, _, _ | .forget _ _, _, _
  | .relate _ _ _, _, _ => rfl
  | .each _ _ body, _, h | .while_ _ body, _, h | .ifThen _ body, _, h => by
    simp only [okStmt, Bool.and_eq_true] at h
    exact okStmts_shares h.2
  | .eachWithIndex i x _ body, _, h => by
    simp only [okStmt, Bool.and_eq_true, decide_eq_true_eq] at h
    simp [sharesStmt, h.1.1, okStmts_shares h.2]
  | .ifElseBlock _ body rest, _, h => by
    simp only [okStmt, Bool.and_eq_true] at h
    simp [sharesStmt, okStmts_shares h.1.2, okElse_shares h.2]
  | .match_ _ arms, _, h => by
    simp only [okStmt, Bool.and_eq_true] at h
    exact okArms_shares h.2

theorem okStmts_shares {k : Nat} {mode : Mode} {fresh : Bool} : ∀ {ss : List (Stmt F)} {Γ : Scope},
    okStmts p k mode fresh Γ ss = true → sharesStmts ss = false
  | [], _, _ => rfl
  | s :: rest, _, h => by
    simp only [okStmts, Bool.and_eq_true] at h
    simp [sharesStmts, okStmt_shares h.1, okStmts_shares h.2]

theorem okElse_shares {k : Nat} {mode : Mode} {fresh : Bool} : ∀ {rest : ElseChain F} {Γ : Scope},
    okElse p k mode fresh Γ rest = true → sharesElse rest = false
  | .none, _, _ => rfl
  | .else_ body, _, h => okStmts_shares h
  | .elseIf _ body rest, _, h => by
    simp only [okElse, Bool.and_eq_true] at h
    simp [sharesElse, okStmts_shares h.1.2, okElse_shares h.2]

theorem okArms_shares {k : Nat} {mode : Mode} {fresh : Bool} : ∀ {arms : MatchArms F} {Γ : Scope},
    okArms p k mode fresh Γ arms = true → sharesArms arms = false
  | .none, _, _ => rfl
  | .else_ body, _, h => okStmts_shares h
  | .lit _ body rest, _, h => by
    simp only [okArms, Bool.and_eq_true] at h
    simp [sharesArms, okStmts_shares h.1, okArms_shares h.2]
  | .compare _ _ body rest, _, h => by
    simp only [okArms, Bool.and_eq_true] at h
    simp [sharesArms, okStmts_shares h.1.2, okArms_shares h.2]
end

end

end Metalogos.Refine
