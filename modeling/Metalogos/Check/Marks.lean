import Metalogos.Check.Names
import Metalogos.Compile.Grows

/-!
# What the variable walk reports, from the text alone

The marks of a term are its reads, its assignments, the places where names become bound, and its loops. A mark that
the walk does not visit is `skipped`. From the scope `σ` the walk reports a use exactly when its name is not in `σ`
and is not bound before it in the text by a mark the walk visits (`Reports`).
-/
namespace Metalogos.Check

open Metalogos.Lang Metalogos.Walk Metalogos.Compile

variable {F : Type}

/-- `at_` is where in the text the name is looked up: an assignment looks its target up behind its value. A name is
bound from `from_` on. A loop runs the text from `lo` to `hi` any number of times, and its body binds `names`. -/
inductive Mark where
  | read (pos : Nat) (name : String) (skipped : Bool)
  | assign (pos at_ : Nat) (name : String) (skipped : Bool)
  | bind (from_ : Nat) (name : String) (skipped : Bool)
  | loop (lo hi : Nat) (names : List String)
  deriving DecidableEq, Repr

def Mark.skip : Mark → Mark
  | .read p x _ => .read p x true
  | .assign p q x _ => .assign p q x true
  | .bind p x _ => .bind p x true
  | .loop lo hi xs => .loop lo hi xs

/-- The names a block may leave bound. -/
def namesOf (body : List (Stmt F)) : List String := letsStmts body ++ loopVarsStmts body

/-- The marks of a first argument, given its own. A bare name in the place of a declaration is no read; anything else
there is evaluated and not walked. -/
def firstMarks (name : String) (e : Expr F) (own : List Mark) : List Mark :=
  if isNameReferenceBuiltin name then
    match e with
    | .ident _ => []
    | _ => own.map Mark.skip
  else own

mutual
def marksExpr : Expr F → Nat → List Mark
  | .ident x, p => [.read p x (isReservedKeyword x)]
  | .fieldAccess e _, p => marksExpr e (p + 1)
  | .fnCall name args _, p => marksArgs name args (p + 1)
  | .qualifiedCall _ _ args, p => marksExprs args (p + 1)
  | .binaryOp l _ r, p => marksExpr l (p + 1) ++ marksExpr r (p + 1 + sizeExpr l)
  | .ifElse c t e, p =>
    marksExpr c (p + 1) ++ marksExpr t (p + 1 + sizeExpr c) ++ marksExpr e (p + 1 + sizeExpr c + sizeExpr t)
  | .list items, p => marksExprs items (p + 1)
  | .indexAccess b i, p => marksExpr b (p + 1) ++ marksExpr i (p + 1 + sizeExpr b)
  | .structLit _ values, p => marksExprs values (p + 1)
  | .blockIfElse c body rest, p =>
    marksExpr c (p + 1) ++ marksStmts body (p + 1 + sizeExpr c) ++
      marksElse rest (p + 1 + sizeExpr c + sizeStmts body)
  | .matchExpr s arms, p => marksExpr s (p + 1) ++ marksArms arms (p + 1 + sizeExpr s)
  | .try_ e, p => marksExpr e (p + 1)
  | .provBind _ e, p => marksExpr e (p + 1)
  | .stringLit _, _ => []
  | .floatLit _, _ => []
  | .boolLit _, _ => []
  | .handleSource _, _ => []

def marksExprs : List (Expr F) → Nat → List Mark
  | [], _ => []
  | e :: es, p => marksExpr e p ++ marksExprs es (p + sizeExpr e)

def marksArgs (name : String) : List (Expr F) → Nat → List Mark
  | [], _ => []
  | e :: es, p => firstMarks name e (marksExpr e p) ++ marksExprs es (p + sizeExpr e)

def marksStmt : Stmt F → Nat → List Mark
  | .letBinding x e _, p => marksExpr e (p + 1) ++ [.bind (p + 1 + sizeExpr e) x false]
  | .assign x e, p => marksExpr e (p + 1) ++ [.assign p (p + 1 + sizeExpr e) x false]
  | .each x it body, p =>
    marksExpr it (p + 1) ++ ([.bind (p + 1 + sizeExpr it) x false,
      .loop (p + 1 + sizeExpr it) (p + 1 + sizeExpr it + sizeStmts body) (namesOf body)] ++
      marksStmts body (p + 1 + sizeExpr it))
  | .eachWithIndex i x it body, p =>
    marksExpr it (p + 1) ++ ([.bind (p + 1 + sizeExpr it) i false, .bind (p + 1 + sizeExpr it) x false,
      .loop (p + 1 + sizeExpr it) (p + 1 + sizeExpr it + sizeStmts body) (namesOf body)] ++
      marksStmts body (p + 1 + sizeExpr it))
  | .while_ c body, p =>
    .loop (p + 1) (p + 1 + sizeExpr c + sizeStmts body) (namesOf body) ::
      (marksExpr c (p + 1) ++ marksStmts body (p + 1 + sizeExpr c))
  | .ifElseBlock c body rest, p =>
    marksExpr c (p + 1) ++ marksStmts body (p + 1 + sizeExpr c) ++
      marksElse rest (p + 1 + sizeExpr c + sizeStmts body)
  | .ifThen c body, p => marksExpr c (p + 1) ++ marksStmts body (p + 1 + sizeExpr c)
  | .return_ e, p => marksExpr e (p + 1)
  | .exprStmt e, p => marksExpr e (p + 1)
  | .match_ s arms, p => marksExpr s (p + 1) ++ marksArms arms (p + 1 + sizeExpr s)
  | .break_, _ => []
  | .continue_, _ => []
  | .memorize e _, p => marksExpr e (p + 1)
  | .forget e _, p => marksExpr e (p + 1)
  | .relate a b _, p => marksExpr a (p + 1) ++ marksExpr b (p + 1 + sizeExpr a)

def marksStmts : List (Stmt F) → Nat → List Mark
  | [], _ => []
  | s :: ss, p => marksStmt s p ++ marksStmts ss (p + sizeStmt s)

def marksElse : ElseChain F → Nat → List Mark
  | .none, _ => []
  | .else_ body, p => marksStmts body p
  | .elseIf c body rest, p =>
    marksExpr c p ++ marksStmts body (p + sizeExpr c) ++ marksElse rest (p + sizeExpr c + sizeStmts body)

def marksArms : MatchArms F → Nat → List Mark
  | .none, _ => []
  | .else_ body, p => marksStmts body p
  | .lit _ body rest, p => marksStmts body p ++ marksArms rest (p + sizeStmts body)
  | .compare _ th body rest, p =>
    marksExpr th p ++ marksStmts body (p + sizeExpr th) ++ marksArms rest (p + sizeExpr th + sizeStmts body)
end

/-! ## Where the marks stand -/

/-- The marks of the text from `p` to `q`. Two marks of one use agree on whether it is skipped. -/
structure Within (p q : Nat) (ms : List Mark) : Prop where
  read : ∀ {r x b}, Mark.read r x b ∈ ms → p ≤ r ∧ r < q
  assign : ∀ {r a x b}, Mark.assign r a x b ∈ ms → p ≤ r ∧ r ≤ a ∧ a < q
  bind : ∀ {r x b}, Mark.bind r x b ∈ ms → p ≤ r ∧ r ≤ q
  one : ∀ {r x b b'}, Mark.read r x b ∈ ms → Mark.read r x b' ∈ ms → b = b'
  target : ∀ {r a a' x b b'}, Mark.assign r a x b ∈ ms → Mark.assign r a' x b' ∈ ms → b = b'

namespace Within

variable {p q r : Nat} {ms ms' : List Mark}

theorem nil : Within p q [] := by
  constructor <;> simp

theorem widen {p' q' : Nat} (h : Within p q ms) (hp : p' ≤ p) (hq : q ≤ q') : Within p' q' ms where
  read hm := by have := h.read hm; omega
  assign hm := by have := h.assign hm; omega
  bind hm := by have := h.bind hm; omega
  one := h.one
  target := h.target

theorem append (h : Within p q ms) (h' : Within q r ms') (hpq : p ≤ q) (hqr : q ≤ r) : Within p r (ms ++ ms') where
  read hm := by
    rcases List.mem_append.1 hm with hm | hm
    · have := h.read hm; omega
    · have := h'.read hm; omega
  assign hm := by
    rcases List.mem_append.1 hm with hm | hm
    · have := h.assign hm; omega
    · have := h'.assign hm; omega
  bind hm := by
    rcases List.mem_append.1 hm with hm | hm
    · have := h.bind hm; omega
    · have := h'.bind hm; omega
  one hm hn := by
    rcases List.mem_append.1 hm with hm | hm <;> rcases List.mem_append.1 hn with hn | hn
    · exact h.one hm hn
    · have := h.read hm; have := h'.read hn; omega
    · have := h'.read hm; have := h.read hn; omega
    · exact h'.one hm hn
  target hm hn := by
    rcases List.mem_append.1 hm with hm | hm <;> rcases List.mem_append.1 hn with hn | hn
    · exact h.target hm hn
    · have := h.assign hm; have := h'.assign hn; omega
    · have := h'.assign hm; have := h.assign hn; omega
    · exact h'.target hm hn

end Within

theorem mem_map_skip {m : Mark} {ms : List Mark} (h : m ∈ ms.map Mark.skip) :
    (∀ {r x b}, m = .read r x b → b = true ∧ ∃ b', .read r x b' ∈ ms) ∧
      (∀ {r a x b}, m = .assign r a x b → b = true ∧ ∃ b', .assign r a x b' ∈ ms) ∧
      ∀ {r x b}, m = .bind r x b → b = true ∧ ∃ b', .bind r x b' ∈ ms := by
  obtain ⟨n, hn, rfl⟩ := List.mem_map.1 h
  cases n <;> simp only [Mark.skip] <;> grind

theorem Within.skip {p q : Nat} {ms : List Mark} (h : Within p q ms) : Within p q (ms.map Mark.skip) where
  read hm := by
    obtain ⟨-, b, hb⟩ := (mem_map_skip hm).1 rfl
    exact h.read hb
  assign hm := by
    obtain ⟨-, b, hb⟩ := (mem_map_skip hm).2.1 rfl
    exact h.assign hb
  bind hm := by
    obtain ⟨-, b, hb⟩ := (mem_map_skip hm).2.2 rfl
    exact h.bind hb
  one hm hn := ((mem_map_skip hm).1 rfl).1.trans ((mem_map_skip hn).1 rfl).1.symm
  target hm hn := ((mem_map_skip hm).2.1 rfl).1.trans ((mem_map_skip hn).2.1 rfl).1.symm

theorem Within.first {p q : Nat} {ms : List Mark} (h : Within p q ms) (name : String) (e : Expr F) :
    Within p q (firstMarks name e ms) := by
  unfold firstMarks
  split_ifs
  · split
    · exact .nil
    · exact h.skip
  · exact h

theorem Within.ofBind {p q : Nat} {x : String} {b : Bool} (h : p ≤ q) : Within p q [.bind q x b] := by
  constructor <;> grind

section

variable {p q lo hi : Nat} {names : List String} {ms : List Mark}

theorem Within.while_ (h : Within p q ms) : Within p q (.loop lo hi names :: ms) := by
  constructor <;> simp only [List.mem_cons, reduceCtorEq, false_or]
  · exact h.read
  · exact h.assign
  · exact h.bind
  · exact h.one
  · exact h.target

theorem Within.bound (x : String) (h : Within p q ms) (hpq : p ≤ q) : Within p q (.bind p x false :: ms) := by
  constructor <;> simp only [List.mem_cons, reduceCtorEq, false_or]
  · exact h.read
  · exact h.assign
  · intro r y b hb
    rcases hb with hb | hb
    · cases hb
      omega
    · exact h.bind hb
  · exact h.one
  · exact h.target

theorem Within.each (x : String) (h : Within p q ms) (hpq : p ≤ q) :
    Within p q ([.bind p x false, .loop lo hi names] ++ ms) := h.while_.bound x hpq

theorem Within.eachWithIndex (i x : String) (h : Within p q ms) (hpq : p ≤ q) :
    Within p q ([.bind p i false, .bind p x false, .loop lo hi names] ++ ms) := (h.while_.bound x hpq).bound i hpq

end

mutual
theorem marksExpr_within : ∀ (e : Expr F) (p : Nat), Within p (p + sizeExpr e) (marksExpr e p)
  | .ident x, p => by
    constructor <;> simp only [marksExpr, sizeExpr] <;> grind
  | .fieldAccess e _, p => (marksExpr_within e (p + 1)).widen (by omega) (by simp only [sizeExpr]; omega)
  | .fnCall name args _, p => (marksArgs_within args name (p + 1)).widen (by omega) (by simp only [sizeExpr]; omega)
  | .qualifiedCall _ _ args, p => (marksExprs_within args (p + 1)).widen (by omega) (by simp only [sizeExpr]; omega)
  | .binaryOp l _ r, p =>
    ((marksExpr_within l (p + 1)).append (marksExpr_within r _) (by omega) (by omega)).widen (by omega)
      (by simp only [sizeExpr]; omega)
  | .ifElse c t e, p =>
    (((marksExpr_within c (p + 1)).append (marksExpr_within t _) (by omega) (by omega)).append
      (marksExpr_within e _) (by omega) (by omega)).widen (by omega) (by simp only [sizeExpr]; omega)
  | .list items, p => (marksExprs_within items (p + 1)).widen (by omega) (by simp only [sizeExpr]; omega)
  | .indexAccess b i, p =>
    ((marksExpr_within b (p + 1)).append (marksExpr_within i _) (by omega) (by omega)).widen (by omega)
      (by simp only [sizeExpr]; omega)
  | .structLit _ values, p => (marksExprs_within values (p + 1)).widen (by omega) (by simp only [sizeExpr]; omega)
  | .blockIfElse c body rest, p =>
    (((marksExpr_within c (p + 1)).append (marksStmts_within body _) (by omega) (by omega)).append
      (marksElse_within rest _) (by omega) (by omega)).widen (by omega) (by simp only [sizeExpr]; omega)
  | .matchExpr s arms, p =>
    ((marksExpr_within s (p + 1)).append (marksArms_within arms _) (by omega) (by omega)).widen (by omega)
      (by simp only [sizeExpr]; omega)
  | .try_ e, p => (marksExpr_within e (p + 1)).widen (by omega) (by simp only [sizeExpr]; omega)
  | .provBind _ e, p => (marksExpr_within e (p + 1)).widen (by omega) (by simp only [sizeExpr]; omega)
  | .stringLit _, _ => .nil
  | .floatLit _, _ => .nil
  | .boolLit _, _ => .nil
  | .handleSource _, _ => .nil

theorem marksExprs_within : ∀ (es : List (Expr F)) (p : Nat), Within p (p + sizeExprs es) (marksExprs es p)
  | [], _ => .nil
  | e :: es, p =>
    ((marksExpr_within e p).append (marksExprs_within es _) (by omega) (by omega)).widen (by omega)
      (by simp only [sizeExprs]; omega)

theorem marksArgs_within : ∀ (es : List (Expr F)) (name : String) (p : Nat),
    Within p (p + sizeExprs es) (marksArgs name es p)
  | [], _, _ => .nil
  | e :: es, name, p =>
    (((marksExpr_within e p).first name e).append (marksExprs_within es _) (by omega) (by omega)).widen (by omega)
      (by simp only [sizeExprs]; omega)

theorem marksStmt_within : ∀ (s : Stmt F) (p : Nat), Within p (p + sizeStmt s) (marksStmt s p)
  | .letBinding x e _, p =>
    ((marksExpr_within e (p + 1)).append (.ofBind (Nat.le_refl _)) (by omega) (by omega)).widen (by omega)
      (by simp only [sizeStmt]; omega)
  | .assign x e, p => by
    have he := marksExpr_within e (p + 1)
    constructor <;> simp only [marksStmt, sizeStmt, List.mem_append, List.mem_singleton]
    · intro r y b h
      have := he.read (h.resolve_right nofun)
      omega
    · intro r a y b h
      rcases h with h | h
      · have := he.assign h
        omega
      · cases h
        omega
    · intro r y b h
      have := he.bind (h.resolve_right nofun)
      omega
    · intro r y b b' h h'
      exact he.one (h.resolve_right nofun) (h'.resolve_right nofun)
    · intro r a a' y b b' h h'
      rcases h with h | h <;> rcases h' with h' | h'
      · exact he.target h h'
      · have := he.assign h
        cases h'
        omega
      · have := he.assign h'
        cases h
        omega
      · cases h
        cases h'
        rfl
  | .each x it body, p =>
    ((marksExpr_within it (p + 1)).append (.each x (marksStmts_within body _) (by omega)) (by omega) (by omega)).widen (by omega)
      (by simp only [sizeStmt]; omega)
  | .eachWithIndex i x it body, p =>
    ((marksExpr_within it (p + 1)).append (.eachWithIndex i x (marksStmts_within body _) (by omega)) (by omega)
      (by omega)).widen (by omega) (by simp only [sizeStmt]; omega)
  | .while_ c body, p =>
    (Within.while_ ((marksExpr_within c (p + 1)).append (marksStmts_within body _) (by omega) (by omega))).widen
      (by omega) (by simp only [sizeStmt]; omega)
  | .ifElseBlock c body rest, p =>
    (((marksExpr_within c (p + 1)).append (marksStmts_within body _) (by omega) (by omega)).append
      (marksElse_within rest _) (by omega) (by omega)).widen (by omega) (by simp only [sizeStmt]; omega)
  | .ifThen c body, p =>
    ((marksExpr_within c (p + 1)).append (marksStmts_within body _) (by omega) (by omega)).widen (by omega)
      (by simp only [sizeStmt]; omega)
  | .return_ e, p => (marksExpr_within e (p + 1)).widen (by omega) (by simp only [sizeStmt]; omega)
  | .exprStmt e, p => (marksExpr_within e (p + 1)).widen (by omega) (by simp only [sizeStmt]; omega)
  | .match_ s arms, p =>
    ((marksExpr_within s (p + 1)).append (marksArms_within arms _) (by omega) (by omega)).widen (by omega)
      (by simp only [sizeStmt]; omega)
  | .break_, _ => .nil
  | .continue_, _ => .nil
  | .memorize e _, p => (marksExpr_within e (p + 1)).widen (by omega) (by simp only [sizeStmt]; omega)
  | .forget e _, p => (marksExpr_within e (p + 1)).widen (by omega) (by simp only [sizeStmt]; omega)
  | .relate a b _, p =>
    ((marksExpr_within a (p + 1)).append (marksExpr_within b _) (by omega) (by omega)).widen (by omega)
      (by simp only [sizeStmt]; omega)

theorem marksStmts_within : ∀ (ss : List (Stmt F)) (p : Nat), Within p (p + sizeStmts ss) (marksStmts ss p)
  | [], _ => .nil
  | s :: ss, p =>
    ((marksStmt_within s p).append (marksStmts_within ss _) (by omega) (by omega)).widen (by omega)
      (by simp only [sizeStmts]; omega)

theorem marksElse_within : ∀ (rest : ElseChain F) (p : Nat), Within p (p + sizeElse rest) (marksElse rest p)
  | .none, _ => .nil
  | .else_ body, p => marksStmts_within body p
  | .elseIf c body rest, p =>
    (((marksExpr_within c p).append (marksStmts_within body _) (by omega) (by omega)).append
      (marksElse_within rest _) (by omega) (by omega)).widen (by omega) (by simp only [sizeElse]; omega)

theorem marksArms_within : ∀ (arms : MatchArms F) (p : Nat), Within p (p + sizeArms arms) (marksArms arms p)
  | .none, _ => .nil
  | .else_ body, p => marksStmts_within body p
  | .lit _ body rest, p =>
    ((marksStmts_within body p).append (marksArms_within rest _) (by omega) (by omega)).widen (by omega)
      (by simp only [sizeArms]; omega)
  | .compare _ th body rest, p =>
    (((marksExpr_within th p).append (marksStmts_within body _) (by omega) (by omega)).append
      (marksArms_within rest _) (by omega) (by omega)).widen (by omega) (by simp only [sizeArms]; omega)
end

/-! ## What the walk reports -/

/-- The names of the first part are looked up before the second one binds any, and the other way round. -/
structure Ordered (ms ms' : List Mark) : Prop where
  read : ∀ {r x b q y b'}, Mark.read r x b ∈ ms → Mark.bind q y b' ∈ ms' → r < q
  assign : ∀ {r a x b q y b'}, Mark.assign r a x b ∈ ms → Mark.bind q y b' ∈ ms' → a < q
  readAfter : ∀ {q y b' r x b}, Mark.bind q y b' ∈ ms → Mark.read r x b ∈ ms' → q ≤ r
  assignAfter : ∀ {q y b' r a x b}, Mark.bind q y b' ∈ ms → Mark.assign r a x b ∈ ms' → q ≤ a

theorem Within.ordered {p q r : Nat} {ms ms' : List Mark} (h : Within p q ms) (h' : Within q r ms') :
    Ordered ms ms' where
  read hm hn := by have := h.read hm; have := h'.bind hn; omega
  assign hm hn := by have := h.assign hm; have := h'.bind hn; omega
  readAfter hm hn := by have := h.bind hm; have := h'.read hn; omega
  assignAfter hm hn := by have := h.bind hm; have := h'.assign hn; omega

/-- What the walk of a term with marks `ms` does from the scope `σ`: it adds the names the term binds, and it reports
the uses of names that neither `σ` has nor the term binds before. -/
structure Reports (ms : List Mark) (σ : VarScope) (r : VarScope × List SpannedError) : Prop where
  bound : ∀ x, x ∈ r.1.bound ↔ x ∈ σ.bound ∨ ∃ b, .bind b x false ∈ ms
  read : ∀ p x, undefinedRead p x ∈ r.2 ↔
    .read p x false ∈ ms ∧ x ∉ σ.bound ∧ ∀ b, .bind b x false ∈ ms → p < b
  assign : ∀ p x, undefinedTarget p x ∈ r.2 ↔
    ∃ a, .assign p a x false ∈ ms ∧ x ∉ σ.bound ∧ ∀ b, .bind b x false ∈ ms → a < b

namespace Reports

variable {ms ms' : List Mark} {σ : VarScope} {out : VarScope × List SpannedError}
  {next : VarScope → VarScope × List SpannedError}

theorem andThen (hord : Ordered ms ms') (h : Reports ms σ out) (h' : ∀ σ, Reports ms' σ (next σ)) :
    Reports (ms ++ ms') σ (Check.andThen out next) where
  bound x := by
    simp only [Check.andThen, (h' _).bound, h.bound, List.mem_append]
    grind
  read p x := by
    simp only [Check.andThen, List.mem_append, (h' _).read, h.read, h.bound, not_or, not_exists]
    constructor
    · rintro (⟨hr, hx, hb⟩ | ⟨hr, ⟨hx, hnone⟩, hb⟩)
      · exact ⟨.inl hr, hx, fun b hb' => hb'.elim (hb b) fun hb' => hord.read hr hb'⟩
      · exact ⟨.inr hr, hx, fun b hb' => hb'.elim (fun hb' => absurd hb' (hnone b)) (hb b)⟩
    · rintro ⟨hr | hr, hx, hb⟩
      · exact .inl ⟨hr, hx, fun b hb' => hb b (.inl hb')⟩
      · refine .inr ⟨hr, ⟨hx, fun b hb' => ?_⟩, fun b hb' => hb b (.inr hb')⟩
        have := hb b (.inl hb')
        have := hord.readAfter hb' hr
        omega
  assign p x := by
    simp only [Check.andThen, List.mem_append, (h' _).assign, h.assign, h.bound, not_or, not_exists]
    constructor
    · rintro (⟨a, hr, hx, hb⟩ | ⟨a, hr, ⟨hx, hnone⟩, hb⟩)
      · exact ⟨a, .inl hr, hx, fun b hb' => hb'.elim (hb b) fun hb' => hord.assign hr hb'⟩
      · exact ⟨a, .inr hr, hx, fun b hb' => hb'.elim (fun hb' => absurd hb' (hnone b)) (hb b)⟩
    · rintro ⟨a, hr | hr, hx, hb⟩
      · exact .inl ⟨a, hr, hx, fun b hb' => hb b (.inl hb')⟩
      · refine .inr ⟨a, hr, ⟨hx, fun b hb' => ?_⟩, fun b hb' => hb b (.inr hb')⟩
        have := hb b (.inl hb')
        have := hord.assignAfter hb' hr
        omega

/-- Errors of the other kinds. -/
theorem quiet {es : List SpannedError} (h : ∀ e ∈ es, e.kind ≠ .undefinedVariable) : Reports [] σ (σ, es) where
  bound x := by simp
  read p x := by
    simp only [List.not_mem_nil, false_and, iff_false]
    exact fun hmem => h _ hmem rfl
  assign p x := by
    simp only [List.not_mem_nil, false_and, exists_const, iff_false]
    exact fun hmem => h _ hmem rfl

theorem nil : Reports [] σ (σ, []) := quiet (by simp)

/-- Marks the walk does not visit. -/
theorem skipped (ms : List Mark) : Reports (ms.map Mark.skip) σ (σ, []) where
  bound x := by
    have hnone : ∀ b, .bind b x false ∉ ms.map Mark.skip := fun b hb => by
      simpa using ((mem_map_skip hb).2.2 rfl).1
    simp [hnone]
  read p x := by
    have hnone : .read p x false ∉ ms.map Mark.skip := fun hb => by simpa using ((mem_map_skip hb).1 rfl).1
    simp [hnone]
  assign p x := by
    have hnone : ∀ a, .assign p a x false ∉ ms.map Mark.skip := fun a hb => by
      simpa using ((mem_map_skip hb).2.1 rfl).1
    simp [hnone]

theorem bindLet (x : String) (e : Expr F) (q : Nat) : Reports [.bind q x false] σ (σ.bindLet x e, []) where
  bound y := by
    simp only [VarScope.bindLet, List.mem_cons, Mark.bind.injEq, List.not_mem_nil, or_false]
    grind
  read p y := by simp
  assign p y := by simp

theorem loop {x : String} {lo hi q : Nat} {names : List String} :
    Reports [.bind q x false, .loop lo hi names] σ (σ.rebind x, []) where
  bound y := by
    simp only [VarScope.rebind, List.mem_cons, Mark.bind.injEq, List.not_mem_nil, or_false]
    grind
  read p y := by simp
  assign p y := by simp

theorem loopIndex {i x : String} {lo hi q q' : Nat} {names : List String} :
    Reports [.bind q i false, .bind q' x false, .loop lo hi names] σ ((σ.rebind i).rebind x, []) where
  bound y := by
    simp only [VarScope.rebind, List.mem_cons, Mark.bind.injEq, List.not_mem_nil, or_false]
    grind
  read p y := by simp
  assign p y := by simp

theorem while_ {lo hi : Nat} {names : List String} (h : Reports ms σ out) :
    Reports (.loop lo hi names :: ms) σ out where
  bound y := by simpa using h.bound y
  read p y := by simpa using h.read p y
  assign p y := by simpa using h.assign p y

theorem target (p a : Nat) (x : String) :
    Reports [.assign p a x false] σ (σ, if x ∈ σ.bound then [] else [undefinedTarget p x]) where
  bound y := by simp
  read q y := by
    split_ifs <;> simp [undefinedTarget, undefinedRead, String.ext_iff]
  assign q y := by
    split_ifs with hx
    · simp only [List.not_mem_nil, false_iff]
      rintro ⟨a', ha, hy, -⟩
      simp only [List.mem_singleton, Mark.assign.injEq] at ha
      exact hy (ha.2.2.1 ▸ hx)
    · simp only [List.mem_singleton, undefinedTarget, SpannedError.mk.injEq, and_true, Mark.assign.injEq,
        String.append_right_inj]
      constructor
      · rintro ⟨rfl, rfl⟩
        exact ⟨a, ⟨rfl, rfl, rfl⟩, hx, by simp⟩
      · rintro ⟨a', ⟨rfl, -, rfl⟩, -⟩
        exact ⟨rfl, rfl⟩

end Reports

theorem Ordered.nil (ms : List Mark) : Ordered [] ms := by
  constructor <;> simp

section

variable {p q lo hi : Nat} {i x : String} {names : List String} {ms : List Mark}

theorem Ordered.each (h : Within p q ms) : Ordered [.bind p x false, .loop lo hi names] ms := by
  constructor
  · simp
  · simp
  · intro r y b' r' z b hb hr
    have := h.read hr
    grind
  · intro r y b' r' a z b hb ha
    have := h.assign ha
    grind

theorem Ordered.eachWithIndex (h : Within p q ms) :
    Ordered [.bind p i false, .bind p x false, .loop lo hi names] ms := by
  constructor
  · simp
  · simp
  · intro r y b' r' z b hb hr
    have := h.read hr
    grind
  · intro r y b' r' a z b hb ha
    have := h.assign ha
    grind

end

theorem coercions_kind {flows : String → Bool} {message : Nat → String → String} :
    ∀ (es : List (Expr F)) (tys : List String) (i p : Nat),
      ∀ e ∈ coercions flows message es tys i p, e.kind ≠ .undefinedVariable
  | [], _, _, _, e, h => by simp [coercions] at h
  | _ :: _, [], _, _, e, h => by simp [coercions] at h
  | a :: es, ty :: tys, i, p, e, h => by
    simp only [coercions, List.mem_append] at h
    rcases h with h | h
    · split_ifs at h
      · obtain rfl := List.mem_singleton.1 h
        nofun
      · cases h
    · exact coercions_kind es tys _ _ e h

theorem renderErrors_kind {d : Declared} {p : Nat} {args : List (Expr F)} :
    ∀ e ∈ renderErrors d p args, e.kind ≠ .undefinedVariable := by
  intro e h
  unfold renderErrors at h
  split at h
  · rcases List.mem_append.1 h with h | h
    · split_ifs at h
      · cases h
      · obtain rfl := List.mem_singleton.1 h
        nofun
    · split at h
      · cases h
      · exact coercions_kind _ _ _ _ e h
  · cases h

theorem callErrors_kind {d : Declared} {p : Nat} {name : String} {args : List (Expr F)} :
    ∀ e ∈ callErrors d p name args, e.kind ≠ .undefinedVariable := by
  intro e h
  unfold callErrors at h
  rcases List.mem_append.1 h with h | h
  · split_ifs at h
    · exact renderErrors_kind e h
    · cases h
  · split at h
    · cases h
    · exact coercions_kind _ _ _ _ e h

theorem concatSide_kind {σ : VarScope} {p : Nat} {s : Expr F} :
    ∀ e ∈ concatSide σ p s, e.kind ≠ .undefinedVariable := by
  intro e h
  unfold concatSide at h
  split at h
  · split at h
    · obtain rfl := List.mem_singleton.1 h
      intro hkind
      cases hkind
    · cases h
  · cases h

theorem concatErrors_kind {σ : VarScope} {p : Nat} {l r : Expr F} {op : BinOp} :
    ∀ e ∈ concatErrors σ p l op r, e.kind ≠ .undefinedVariable := by
  intro e h
  unfold concatErrors at h
  split_ifs at h
  · exact (List.mem_append.1 h).elim (concatSide_kind e) (concatSide_kind e)
  · cases h

section

variable {d : Declared}

theorem reports_ident (x : String) (p : Nat) (σ : VarScope) :
    Reports (marksExpr (.ident x : Expr F) p) σ (checkExprVars d (.ident x : Expr F) p σ) where
  bound y := by simp [marksExpr, checkExprVars]
  read q y := by
    simp only [marksExpr, checkExprVars, List.mem_singleton, Mark.read.injEq]
    cases hk : isReservedKeyword x
    · by_cases hx : x ∈ σ.bound
      · simp only [hx, decide_true, Bool.or_true, if_true, List.not_mem_nil, false_iff]
        rintro ⟨⟨-, rfl, -⟩, hy, -⟩
        exact hy hx
      · simp only [hx, decide_false, Bool.or_self, Bool.false_eq_true, if_false, List.mem_singleton, undefinedRead,
          SpannedError.mk.injEq, and_true, String.append_right_inj]
        constructor
        · rintro ⟨rfl, rfl⟩
          exact ⟨⟨rfl, rfl⟩, hx, by simp⟩
        · rintro ⟨⟨rfl, rfl⟩, -⟩
          exact ⟨rfl, rfl⟩
    · simp
  assign q y := by
    simp only [marksExpr, checkExprVars]
    split_ifs <;> simp [undefinedTarget, undefinedRead, String.ext_iff]

/-- The first argument of a call. -/
theorem reports_first {name : String} {e : Expr F} {p : Nat} {σ : VarScope}
    (h : ∀ σ, Reports (marksExpr e p) σ (checkExprVars d e p σ)) :
    Reports (firstMarks name e (marksExpr e p)) σ
      (if isNameReferenceBuiltin name then (σ, []) else checkExprVars d e p σ) := by
  unfold firstMarks
  split_ifs
  · split
    · exact .nil
    · exact .skipped _
  · exact h σ

end

mutual
theorem checkExprVars_reports (d : Declared) : ∀ (e : Expr F) (p : Nat) (σ : VarScope),
    Reports (marksExpr e p) σ (checkExprVars d e p σ)
  | .ident x, p, σ => reports_ident x p σ
  | .fieldAccess e _, p, σ => checkExprVars_reports d e (p + 1) σ
  | .fnCall name args _, p, σ =>
    .andThen (.nil _) (.quiet callErrors_kind) fun σ => checkArgVars_reports d args name (p + 1) σ
  | .qualifiedCall _ _ args, p, σ => checkExprsVars_reports d args (p + 1) σ
  | .binaryOp l op r, p, σ =>
    .andThen ((marksExpr_within l _).ordered (marksExpr_within r _))
      (.andThen (.nil _) (.quiet concatErrors_kind) fun σ => checkExprVars_reports d l (p + 1) σ) fun σ =>
      checkExprVars_reports d r (p + 1 + sizeExpr l) σ
  | .ifElse c t e, p, σ =>
    .andThen (((marksExpr_within c _).append (marksExpr_within t _) (by omega) (by omega)).ordered
        (marksExpr_within e _))
      (.andThen ((marksExpr_within c _).ordered (marksExpr_within t _)) (checkExprVars_reports d c (p + 1) σ)
        fun σ => checkExprVars_reports d t (p + 1 + sizeExpr c) σ)
      fun σ => checkExprVars_reports d e (p + 1 + sizeExpr c + sizeExpr t) σ
  | .list items, p, σ => checkExprsVars_reports d items (p + 1) σ
  | .indexAccess b i, p, σ =>
    .andThen ((marksExpr_within b _).ordered (marksExpr_within i _)) (checkExprVars_reports d b (p + 1) σ) fun σ =>
      checkExprVars_reports d i (p + 1 + sizeExpr b) σ
  | .structLit _ values, p, σ => checkExprsVars_reports d values (p + 1) σ
  | .blockIfElse c body rest, p, σ =>
    .andThen (((marksExpr_within c _).append (marksStmts_within body _) (by omega) (by omega)).ordered
        (marksElse_within rest _))
      (.andThen ((marksExpr_within c _).ordered (marksStmts_within body _)) (checkExprVars_reports d c (p + 1) σ)
        fun σ => checkStmtsVars_reports d body (p + 1 + sizeExpr c) σ)
      fun σ => checkElseVars_reports d rest (p + 1 + sizeExpr c + sizeStmts body) σ
  | .matchExpr s arms, p, σ =>
    .andThen ((marksExpr_within s _).ordered (marksArms_within arms _)) (checkExprVars_reports d s (p + 1) σ) fun σ =>
      checkArmsVars_reports d arms (p + 1 + sizeExpr s) σ
  | .try_ e, p, σ => checkExprVars_reports d e (p + 1) σ
  | .provBind _ e, p, σ => checkExprVars_reports d e (p + 1) σ
  | .stringLit _, _, _ => .nil
  | .floatLit _, _, _ => .nil
  | .boolLit _, _, _ => .nil
  | .handleSource _, _, _ => .nil

theorem checkExprsVars_reports (d : Declared) : ∀ (es : List (Expr F)) (p : Nat) (σ : VarScope),
    Reports (marksExprs es p) σ (checkExprsVars d es p σ)
  | [], _, _ => .nil
  | e :: es, p, σ =>
    .andThen ((marksExpr_within e _).ordered (marksExprs_within es _)) (checkExprVars_reports d e p σ) fun σ =>
      checkExprsVars_reports d es (p + sizeExpr e) σ

theorem checkArgVars_reports (d : Declared) : ∀ (es : List (Expr F)) (name : String) (p : Nat) (σ : VarScope),
    Reports (marksArgs name es p) σ (checkArgVars d name es p σ)
  | [], _, _, _ => .nil
  | e :: es, name, p, _ =>
    .andThen (((marksExpr_within e _).first name e).ordered (marksExprs_within es _))
      (reports_first fun σ => checkExprVars_reports d e p σ) fun σ => checkExprsVars_reports d es (p + sizeExpr e) σ

theorem checkStmtVars_reports (d : Declared) : ∀ (s : Stmt F) (p : Nat) (σ : VarScope),
    Reports (marksStmt s p) σ (checkStmtVars d s p σ)
  | .letBinding x e _, p, σ =>
    .andThen ((marksExpr_within e _).ordered (.ofBind (Nat.le_refl _))) (checkExprVars_reports d e (p + 1) σ) fun _ =>
      .bindLet x e _
  | .assign x e, p, σ => by
    refine .andThen ?_ (checkExprVars_reports d e (p + 1) σ) fun _ => .target p _ x
    have he := marksExpr_within e (p + 1)
    constructor <;> simp only [List.mem_singleton]
    · intro _ _ _ _ _ _ _ h
      cases h
    · intro _ _ _ _ _ _ _ _ h
      cases h
    · intro _ _ _ _ _ _ _ h
      cases h
    · intro q y b r a z b' hb h
      have := he.bind hb
      cases h
      omega
  | .each x it body, p, σ =>
    .andThen ((marksExpr_within it _).ordered (.each x (marksStmts_within body _) (by omega))) (checkExprVars_reports d it (p + 1) σ) fun σ =>
      .andThen (.each (marksStmts_within body _)) .loop fun σ => checkStmtsVars_reports d body (p + 1 + sizeExpr it) σ
  | .eachWithIndex i x it body, p, σ =>
    .andThen ((marksExpr_within it _).ordered (.eachWithIndex i x (marksStmts_within body _) (by omega)))
      (checkExprVars_reports d it (p + 1) σ) fun σ =>
      .andThen (.eachWithIndex (marksStmts_within body _)) .loopIndex fun σ =>
        checkStmtsVars_reports d body (p + 1 + sizeExpr it) σ
  | .while_ c body, p, σ =>
    .while_ (.andThen ((marksExpr_within c _).ordered (marksStmts_within body _))
      (checkExprVars_reports d c (p + 1) σ) fun σ => checkStmtsVars_reports d body (p + 1 + sizeExpr c) σ)
  | .ifThen c body, p, σ =>
    .andThen ((marksExpr_within c _).ordered (marksStmts_within body _)) (checkExprVars_reports d c (p + 1) σ)
      fun σ => checkStmtsVars_reports d body (p + 1 + sizeExpr c) σ
  | .ifElseBlock c body rest, p, σ =>
    .andThen (((marksExpr_within c _).append (marksStmts_within body _) (by omega) (by omega)).ordered
        (marksElse_within rest _))
      (.andThen ((marksExpr_within c _).ordered (marksStmts_within body _)) (checkExprVars_reports d c (p + 1) σ)
        fun σ => checkStmtsVars_reports d body (p + 1 + sizeExpr c) σ)
      fun σ => checkElseVars_reports d rest (p + 1 + sizeExpr c + sizeStmts body) σ
  | .return_ e, p, σ => checkExprVars_reports d e (p + 1) σ
  | .exprStmt e, p, σ => checkExprVars_reports d e (p + 1) σ
  | .match_ s arms, p, σ =>
    .andThen ((marksExpr_within s _).ordered (marksArms_within arms _)) (checkExprVars_reports d s (p + 1) σ) fun σ =>
      checkArmsVars_reports d arms (p + 1 + sizeExpr s) σ
  | .break_, _, _ => .nil
  | .continue_, _, _ => .nil
  | .memorize e _, p, σ => checkExprVars_reports d e (p + 1) σ
  | .forget e _, p, σ => checkExprVars_reports d e (p + 1) σ
  | .relate a b _, p, σ =>
    .andThen ((marksExpr_within a _).ordered (marksExpr_within b _)) (checkExprVars_reports d a (p + 1) σ) fun σ =>
      checkExprVars_reports d b (p + 1 + sizeExpr a) σ

theorem checkStmtsVars_reports (d : Declared) : ∀ (ss : List (Stmt F)) (p : Nat) (σ : VarScope),
    Reports (marksStmts ss p) σ (checkStmtsVars d ss p σ)
  | [], _, _ => .nil
  | s :: ss, p, σ =>
    .andThen ((marksStmt_within s _).ordered (marksStmts_within ss _)) (checkStmtVars_reports d s p σ) fun σ =>
      checkStmtsVars_reports d ss (p + sizeStmt s) σ

theorem checkElseVars_reports (d : Declared) : ∀ (rest : ElseChain F) (p : Nat) (σ : VarScope),
    Reports (marksElse rest p) σ (checkElseVars d rest p σ)
  | .none, _, _ => .nil
  | .else_ body, p, σ => checkStmtsVars_reports d body p σ
  | .elseIf c body rest, p, σ =>
    .andThen (((marksExpr_within c _).append (marksStmts_within body _) (by omega) (by omega)).ordered
        (marksElse_within rest _))
      (.andThen ((marksExpr_within c _).ordered (marksStmts_within body _)) (checkExprVars_reports d c p σ)
        fun σ => checkStmtsVars_reports d body (p + sizeExpr c) σ)
      fun σ => checkElseVars_reports d rest (p + sizeExpr c + sizeStmts body) σ

theorem checkArmsVars_reports (d : Declared) : ∀ (arms : MatchArms F) (p : Nat) (σ : VarScope),
    Reports (marksArms arms p) σ (checkArmsVars d arms p σ)
  | .none, _, _ => .nil
  | .else_ body, p, σ => checkStmtsVars_reports d body p σ
  | .lit _ body rest, p, σ =>
    .andThen ((marksStmts_within body _).ordered (marksArms_within rest _)) (checkStmtsVars_reports d body p σ)
      fun σ => checkArmsVars_reports d rest (p + sizeStmts body) σ
  | .compare _ th body rest, p, σ =>
    .andThen (((marksExpr_within th _).append (marksStmts_within body _) (by omega) (by omega)).ordered
        (marksArms_within rest _))
      (.andThen ((marksExpr_within th _).ordered (marksStmts_within body _)) (checkExprVars_reports d th p σ)
        fun σ => checkStmtsVars_reports d body (p + sizeExpr th) σ)
      fun σ => checkArmsVars_reports d rest (p + sizeExpr th + sizeStmts body) σ
end

end Metalogos.Check
