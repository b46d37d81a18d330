import Metalogos.Lang.Syntax
import Metalogos.Lib.Dict
import Metalogos.Lib.Rounds
import Metalogos.Lib.Text
import Mathlib.Data.Finset.Lattice.Fold

/-!
# Effect trails

`check_effect_trails` (`src/semantic.rs:4500-5015`) infers what effects each pattern, tool method and learnable has
and holds the declared trails against it. The inference goes over the containers in the order of their declarations,
each on what has been inferred by then, and stops when a pass changes nothing or after a number of passes that never
exceeds 16.

An effect travels up a chain of calls within one pass as long as each callee is declared before its caller, and takes
a pass of its own for every other call. `inferred_fixed_iff` says when the passes are enough; `chain_of_eighteen` is
a chain of calls, callers first, for which they are not.
-/
namespace Metalogos.Effects

open Metalogos.Lang Metalogos.Lib Equation

/-- mirrors src/ast.rs:1566-1602 -/
inductive Effect where
  | io
  | audit
  | listen
  | speak
  deriving DecidableEq, Repr

def Effect.word : Effect → String
  | .io => "io"
  | .audit => "audit"
  | .listen => "listen"
  | .speak => "speak"

def Effect.all : List Effect := [.io, .audit, .listen, .speak]

def Effect.parseWord (w : String) : Option Effect := Effect.all.find? (·.word = w)

abbrev EffectSet := Finset Effect

/-! ## Declared trails -/

def trimText (s : String) : String := String.ofList (trim s.toList)

def addWords : List String → EffectSet → Except String EffectSet
  | [], set => .ok set
  | raw :: words, set =>
    let w := trimText raw
    match Effect.parseWord w with
    | some e => if e ∈ set then .error ("duplicate effect word '" ++ w ++ "'") else addWords words (insert e set)
    | none => .error ("unknown effect word '" ++ w ++ "'")

/-- mirrors src/semantic.rs:2424-2442 -/
def parseEffectSet (raw : String) : Except String EffectSet :=
  if trimText raw = "" then .ok ∅ else addWords ((trimText raw).splitOn ",") ∅

/-! ## The walk over a body -/

/-- What a body has that bears effects: its own, a builtin that is not spelled as a call, a call. -/
inductive Site where
  | own (effects : EffectSet)
  | builtin (name : String)
  | call (name : String)

variable {F : Type}

mutual
/-- Conditions of `else if` and thresholds of comparison arms are not walked.
mirrors src/semantic.rs:4607-4690 -/
def sitesExpr : Expr F → List Site
  | .handleSource _ => [.builtin "media_source_capture"]
  | .provBind _ inner => sitesExpr inner
  | .fnCall name args _ => .call name :: sitesExprs args
  | .qualifiedCall ns function args => .call (ns ++ "." ++ function) :: sitesExprs args
  | .binaryOp left _ right => sitesExpr left ++ sitesExpr right
  | .ifElse condition thenBranch elseBranch => sitesExpr condition ++ sitesExpr thenBranch ++ sitesExpr elseBranch
  | .blockIfElse condition thenBody rest => sitesExpr condition ++ sitesStmts thenBody ++ sitesElse rest
  | .matchExpr scrutinee arms => sitesExpr scrutinee ++ sitesArms arms
  | .try_ expr => sitesExpr expr
  | .list items => sitesExprs items
  | .structLit _ values => sitesExprs values
  | .indexAccess object index => sitesExpr object ++ sitesExpr index
  | .fieldAccess object _ => sitesExpr object
  | .stringLit _ | .floatLit _ | .boolLit _ | .ident _ => []

def sitesExprs : List (Expr F) → List Site
  | [] => []
  | e :: es => sitesExpr e ++ sitesExprs es

/-- mirrors src/semantic.rs:4694-4790 -/
def sitesStmt : Stmt F → List Site
  | .letBinding _ value _ | .assign _ value => sitesExpr value
  | .each _ iterable body | .eachWithIndex _ _ iterable body => sitesExpr iterable ++ sitesStmts body
  | .while_ condition body | .ifThen condition body => sitesExpr condition ++ sitesStmts body
  | .ifElseBlock condition thenBody rest => sitesExpr condition ++ sitesStmts thenBody ++ sitesElse rest
  | .return_ value | .exprStmt value => sitesExpr value
  | .match_ scrutinee arms => sitesExpr scrutinee ++ sitesArms arms
  | .memorize value _ => .own {.io, .audit} :: sitesExpr value
  | .forget query _ => .own {.io, .audit} :: sitesExpr query
  | .relate source target _ => .own {.io, .audit} :: (sitesExpr source ++ sitesExpr target)
  | .break_ | .continue_ => []

def sitesStmts : List (Stmt F) → List Site
  | [] => []
  | s :: ss => sitesStmt s ++ sitesStmts ss

def sitesElse : ElseChain F → List Site
  | .none => []
  | .else_ body => sitesStmts body
  | .elseIf _ body rest => sitesStmts body ++ sitesElse rest

def sitesArms : MatchArms F → List Site
  | .none => []
  | .else_ body => sitesStmts body
  | .lit _ body rest | .compare _ _ body rest => sitesStmts body ++ sitesArms rest
end

/-! ## Containers -/

inductive ContainerKind (F : Type) where
  | statements (body : List (Stmt F))
  | learnable

/-- `declared` is the trail as it is written.
mirrors src/semantic.rs:4795-4806 -/
structure Container (F : Type) where
  key : String
  declared : Option String
  nameForErrors : String
  kind : ContainerKind F

structure Method (F : Type) where
  name : String
  effects : Option String
  body : List (Stmt F)

/-- The declarations that the check looks at; the others have no container. -/
inductive Declaration (F : Type) where
  | pattern (name : String) (effects : Option String) (body : List (Stmt F))
  | learnable (name : String) (effects : Option String)
  | tool (name : String) (methods : List (Method F))
  | other

/-- mirrors src/semantic.rs:4873-4913 -/
def containersOf : Declaration F → List (Container F)
  | .pattern name effects body => [⟨name, effects, "pattern '" ++ name ++ "'", .statements body⟩]
  | .learnable name effects => [⟨name, effects, "learnable pattern '" ++ name ++ "'", .learnable⟩]
  | .tool name methods => methods.map fun m =>
    ⟨name ++ "." ++ m.name, m.effects, "tool method '" ++ name ++ "." ++ m.name ++ "'", .statements m.body⟩
  | .other => []

def containers (decls : List (Declaration F)) : List (Container F) := decls.flatMap containersOf

/-- A trail that does not parse is not registered.
mirrors src/semantic.rs:4851-4871 -/
def declaredTrails (cs : List (Container F)) : Dict String EffectSet :=
  cs.foldl (fun d c =>
    match c.declared.map parseEffectSet with
    | some (.ok set) => d.set c.key set
    | _ => d) .empty

/-! ## The inference -/

abbrev Inferred := Dict String EffectSet

variable (builtinEffects : String → EffectSet)

/-- mirrors src/semantic.rs:4918-4929 -/
def contractOf (declared : Dict String EffectSet) (inferred : Inferred) (name : String) : EffectSet :=
  match declared.get name with
  | some d => d
  | none =>
    match inferred.get name with
    | some e => e
    | none => builtinEffects name

def siteEffects (declared : Dict String EffectSet) (inferred : Inferred) : Site → EffectSet
  | .own effects => effects
  | .builtin name => builtinEffects name
  | .call name => contractOf builtinEffects declared inferred name

/-- A learnable is a call of the LLM. -/
def ContainerKind.sites : ContainerKind F → List Site
  | .learnable => [.own {.io}]
  | .statements body => sitesStmts body

/-- mirrors src/semantic.rs:4931-4949 -/
def factualEffects (declared : Dict String EffectSet) (inferred : Inferred) (kind : ContainerKind F) : EffectSet :=
  kind.sites.foldl (fun acc s => acc ∪ siteEffects builtinEffects declared inferred s) ∅

/-- One container of a pass, and whether the pass has changed anything. -/
def inferOne (declared : Dict String EffectSet) (st : Inferred × Bool) (c : Container F) : Inferred × Bool :=
  let newSet := factualEffects builtinEffects declared st.1 c.kind
  if st.1.get c.key = some newSet then st else (st.1.set c.key newSet, true)

def inferPass (cs : List (Container F)) (inferred : Inferred) : Inferred × Bool :=
  cs.foldl (inferOne builtinEffects (declaredTrails cs)) (inferred, false)

/-- mirrors src/semantic.rs:4956-4968 -/
def inferLoop (cs : List (Container F)) : Nat → Inferred → Inferred
  | 0, inferred => inferred
  | passes + 1, inferred =>
    let (inferred, changed) := inferPass builtinEffects cs inferred
    if changed then inferLoop cs passes inferred else inferred

/-- mirrors src/semantic.rs:4955 -/
def maxPasses (cs : List (Container F)) : Nat := min 16 (max 4 (cs.length + 2))

/-- mirrors src/semantic.rs:4951-4954 -/
def initial (cs : List (Container F)) : Inferred := cs.foldl (fun d c => d.set c.key ∅) .empty

def inferred (cs : List (Container F)) : Inferred := inferLoop builtinEffects cs (maxPasses cs) (initial cs)

/-! ## The gate -/

def trailText (es : EffectSet) : String :=
  "⟨" ++ ", ".intercalate ((Effect.all.filter (· ∈ es)).map (·.word)) ++ "⟩"

/-- mirrors src/semantic.rs:4971-5013 -/
def trailViolation (cs : List (Container F)) (c : Container F) : Option String :=
  match c.declared, (declaredTrails cs).get c.key with
  | some _, some declaredSet =>
    let actual := factualEffects builtinEffects (declaredTrails cs) (inferred builtinEffects cs) c.kind
    let excess := actual \ declaredSet
    if excess = ∅ then none
    else some ("effect trail violation on " ++ c.nameForErrors ++ ": declared " ++ trailText declaredSet
      ++ " but body requires " ++ trailText actual ++ " (excess: "
      ++ ", ".intercalate ((Effect.all.filter (· ∈ excess)).map (·.word)) ++ ")")
  | _, _ => none

/-- mirrors src/semantic.rs:2446-2453, 4831-4849 -/
def trailError (c : Container F) : Option String :=
  match c.declared with
  | none => none
  | some raw =>
    match parseEffectSet raw with
    | .ok _ => none
    | .error e => some ("effect trail '⟨" ++ raw ++ "⟩' on " ++ c.nameForErrors ++ ": " ++ e)

def checkEffectTrails (decls : List (Declaration F)) : List String :=
  (containers decls).filterMap trailError ++
    (containers decls).filterMap (trailViolation builtinEffects (containers decls))

/-! ## The inference as rounds -/

/-- The containers as equations, in their order. A name that is no container has the effects of a builtin. -/
def equation (cs : List (Container F)) (c : Container F) : Equation String Effect where
  key := c.key
  own := {e | ∃ s ∈ c.kind.sites, match s with
    | .own effects => e ∈ effects
    | .builtin name => e ∈ builtinEffects name
    | .call name => match (declaredTrails cs).get name with
      | some d => e ∈ d
      | none => name ∉ cs.map (·.key) ∧ e ∈ builtinEffects name}
  uses := {f | .call f ∈ c.kind.sites ∧ (declaredTrails cs).get f = none}

def equations (cs : List (Container F)) : List (Equation String Effect) := cs.map (equation builtinEffects cs)

/-- The map of an inference holds what the rounds hold. -/
structure Holds (cs : List (Container F)) (m : Inferred) (x : String → Set Effect) : Prop where
  keys : ∀ f, m.get f = none ↔ f ∉ cs.map (·.key)
  effects : ∀ f e, e ∈ (m.get f).getD ∅ ↔ e ∈ x f

variable {cs : List (Container F)} {m : Inferred} {x : String → Set Effect}

theorem mem_factualEffects {declared : Dict String EffectSet} {m : Inferred} {kind : ContainerKind F} {e : Effect} :
    e ∈ factualEffects builtinEffects declared m kind ↔
      ∃ s ∈ kind.sites, e ∈ siteEffects builtinEffects declared m s := by
  have hfold (sites : List Site) (acc : EffectSet) :
      e ∈ sites.foldl (fun acc s => acc ∪ siteEffects builtinEffects declared m s) acc ↔
        e ∈ acc ∨ ∃ s ∈ sites, e ∈ siteEffects builtinEffects declared m s := by
    induction sites generalizing acc with
    | nil => simp
    | cons s sites ih =>
      rw [List.foldl_cons, ih, Finset.mem_union, List.exists_mem_cons_iff, or_assoc]
  refine (hfold kind.sites ∅).trans ?_
  simp

/-- The factual effects of a container are the value of its equation. -/
theorem Holds.factual (h : Holds cs m x) (c : Container F) (e : Effect) :
    e ∈ factualEffects builtinEffects (declaredTrails cs) m c.kind ↔ e ∈ (equation builtinEffects cs c).value x := by
  rw [mem_factualEffects builtinEffects]
  constructor
  · rintro ⟨s, hs, he⟩
    cases s with
    | own effects => exact .inl ⟨_, hs, he⟩
    | builtin name => exact .inl ⟨_, hs, he⟩
    | call name =>
      simp only [siteEffects, contractOf] at he
      cases hd : (declaredTrails cs).get name with
      | some d =>
        rw [hd] at he
        exact .inl ⟨_, hs, by simpa [hd] using he⟩
      | none =>
        rw [hd] at he
        cases hm : m.get name with
        | none =>
          rw [hm] at he
          exact .inl ⟨_, hs, by simpa [hd] using ⟨by simpa using (h.keys name).1 hm, he⟩⟩
        | some set =>
          rw [hm] at he
          refine .inr ⟨name, ⟨hs, hd⟩, (h.effects name e).1 ?_⟩
          rw [hm]
          exact he
  · rintro (⟨s, hs, he⟩ | ⟨f, ⟨hs, hd⟩, he⟩)
    · refine ⟨s, hs, ?_⟩
      cases s with
      | own effects => exact he
      | builtin name => exact he
      | call name =>
        simp only [siteEffects, contractOf]
        cases hd : (declaredTrails cs).get name with
        | some d =>
          simp only [hd] at he
          exact he
        | none =>
          simp only [hd] at he
          rw [(h.keys name).2 he.1]
          exact he.2
    · refine ⟨_, hs, ?_⟩
      have hin := (h.effects f e).2 he
      simp only [siteEffects, contractOf, hd]
      cases hm : m.get f with
      | none =>
        rw [hm] at hin
        cases hin
      | some set =>
        rw [hm] at hin
        exact hin

theorem Holds.inferOne (h : Holds cs m x) {c : Container F} (hc : c ∈ cs) (b : Bool) :
    Holds cs (inferOne builtinEffects (declaredTrails cs) (m, b) c).1
      (Function.update x c.key ((equation builtinEffects cs c).value x)) := by
  have hget (f : String) : (Effects.inferOne builtinEffects (declaredTrails cs) (m, b) c).1.get f =
      if f = c.key then some (factualEffects builtinEffects (declaredTrails cs) m c.kind) else m.get f := by
    unfold Effects.inferOne
    dsimp only
    split_ifs with hsame hf hf
    · rw [hf, hsame]
    · rfl
    · rw [Dict.get_set, if_pos hf]
    · rw [Dict.get_set, if_neg hf]
  constructor
  · intro f
    rw [hget]
    split_ifs with hf
    · have hmem : c.key ∈ cs.map (·.key) := List.mem_map_of_mem hc
      simp [hf, List.mem_map.1 hmem]
    · exact h.keys f
  · intro f e
    rw [hget]
    by_cases hf : f = c.key
    · subst hf
      rw [if_pos rfl, Function.update_self]
      exact h.factual builtinEffects c e
    · rw [if_neg hf, Function.update_of_ne hf]
      exact h.effects f e

theorem holds_pass (h : Holds cs m x) :
    Holds cs (inferPass builtinEffects cs m).1 (settle (equations builtinEffects cs) x) := by
  have hfold (ps : List (Container F)) (hps : ∀ c ∈ ps, c ∈ cs) (m : Inferred) (b : Bool) (x : String → Set Effect)
      (h : Holds cs m x) : Holds cs (ps.foldl (inferOne builtinEffects (declaredTrails cs)) (m, b)).1
        (settle (ps.map (equation builtinEffects cs)) x) := by
    induction ps generalizing m b x with
    | nil => exact h
    | cons c ps ih =>
      rw [List.foldl_cons]
      exact ih (fun d hd => hps d (.tail c hd)) _ _ _ (h.inferOne builtinEffects (hps c (.head ps)) b)
  exact hfold cs (fun _ hc => hc) m false x h

/-- A pass that reports no change made none. -/
theorem inferPass_still (h : (inferPass builtinEffects cs m).2 = false) : (inferPass builtinEffects cs m).1 = m := by
  have hfold (ps : List (Container F)) (m : Inferred) (b : Bool)
      (h : (ps.foldl (inferOne builtinEffects (declaredTrails cs)) (m, b)).2 = false) :
      b = false ∧ (ps.foldl (inferOne builtinEffects (declaredTrails cs)) (m, b)).1 = m := by
    induction ps generalizing m b with
    | nil => exact ⟨h, rfl⟩
    | cons c ps ih =>
      rw [List.foldl_cons] at h ⊢
      unfold inferOne at h ⊢
      dsimp only at h ⊢
      split_ifs at h ⊢ with hsame
      · exact ih m b h
      · exact absurd (ih _ true h).1 (by decide)
  exact (hfold cs m false h).2

theorem Holds.unique {y : String → Set Effect} (h : Holds cs m x) (h' : Holds cs m y) : x = y := by
  funext f
  ext e
  rw [← h.effects, h'.effects]

/-- Stopping early or not, the loop ends with what the rounds have. -/
theorem holds_loop (passes k : Nat) (m : Inferred) (h : Holds cs m (rounds (equations builtinEffects cs) k)) :
    Holds cs (inferLoop builtinEffects cs passes m) (rounds (equations builtinEffects cs) (k + passes)) := by
  induction passes generalizing k m with
  | zero => exact h
  | succ passes ih =>
    have hpass := holds_pass builtinEffects h
    rw [inferLoop]
    dsimp only
    split_ifs with hchanged
    · have hrest := ih (k + 1) _ hpass
      rwa [Nat.add_right_comm] at hrest
    · have hstill := inferPass_still builtinEffects (Bool.eq_false_iff.2 hchanged)
      rw [hstill] at hpass ⊢
      rw [rounds_of_still (hpass.unique h)]
      exact h

theorem holds_initial (cs : List (Container F)) :
    Holds cs (initial cs) (rounds (equations builtinEffects cs) 0) := by
  have hget (ps : List (Container F)) (d : Inferred) (f : String) :
      (ps.foldl (fun d c => d.set c.key ∅) d).get f = if f ∈ ps.map (·.key) then some ∅ else d.get f := by
    induction ps generalizing d with
    | nil => simp
    | cons c ps ih =>
      rw [List.foldl_cons, ih, Dict.get_set, List.map_cons]
      by_cases hf : f = c.key <;> by_cases hps : f ∈ ps.map (·.key) <;> simp [hf, hps]
  constructor
  · intro f
    unfold initial
    rw [hget]
    split_ifs with hf <;> simp [hf]
  · intro f e
    unfold initial
    rw [hget]
    split_ifs with hf <;> simp [rounds]

theorem holds_inferred (cs : List (Container F)) :
    Holds cs (inferred builtinEffects cs) (rounds (equations builtinEffects cs) (maxPasses cs)) := by
  have h := holds_loop builtinEffects (maxPasses cs) 0 (initial cs) (holds_initial builtinEffects cs)
  rwa [Nat.zero_add] at h

/-! ## When the passes are enough -/

/-- The inferred effects of each container are its factual effects. -/
def Fixpoint (cs : List (Container F)) (m : Inferred) : Prop :=
  ∀ c ∈ cs, m.get c.key = some (factualEffects builtinEffects (declaredTrails cs) m c.kind)

theorem fixpoint_iff (h : Holds cs m x) : Fixpoint builtinEffects cs m ↔ Fixed (equations builtinEffects cs) x := by
  have hone (c : Container F) (hc : c ∈ cs) :
      m.get c.key = some (factualEffects builtinEffects (declaredTrails cs) m c.kind) ↔
        x c.key = (equation builtinEffects cs c).value x := by
    cases hm : m.get c.key with
    | none => exact absurd (List.mem_map_of_mem hc) ((h.keys c.key).1 hm)
    | some set =>
      have hset (e : Effect) : e ∈ set ↔ e ∈ x c.key := by simpa [hm] using h.effects c.key e
      rw [Option.some.injEq, Finset.ext_iff, Set.ext_iff]
      refine forall_congr' fun e => ?_
      rw [hset, h.factual builtinEffects c e]
  constructor
  · intro hfix q hq
    obtain ⟨c, hc, rfl⟩ := List.mem_map.1 hq
    exact (hone c hc).1 (hfix c hc)
  · intro hfixed c hc
    exact (hone c hc).2 (hfixed _ (List.mem_map_of_mem hc))

/-- A chain of calls within `k` passes behind the first. -/
def WithinPasses (cs : List (Container F)) (k : Nat) (name : String) (e : Effect) : Prop :=
  Chain (equations builtinEffects cs) k (equations builtinEffects cs) name e

/-- The inferred map is a fixpoint if and only if each effect that a name requires comes up a chain of calls with
fewer calls to names not declared before their caller than there are passes, and containers of one name agree on
what it requires. At a fixpoint a name has what it requires, which no order of the declarations enters into. -/
theorem inferred_fixed_iff (decls : List (Declaration F)) :
    (Fixpoint builtinEffects (containers decls) (inferred builtinEffects (containers decls)) ↔
      (∀ name e, Requires (equations builtinEffects (containers decls)) name e →
        WithinPasses builtinEffects (containers decls) (maxPasses (containers decls) - 1) name e) ∧
      ∀ c ∈ containers decls, ∀ e, Requires (equations builtinEffects (containers decls)) c.key e →
        e ∈ (equation builtinEffects (containers decls) c).own ∨
          ∃ f ∈ (equation builtinEffects (containers decls) c).uses,
            Requires (equations builtinEffects (containers decls)) f e) ∧
    (Fixpoint builtinEffects (containers decls) (inferred builtinEffects (containers decls)) → ∀ name e,
      e ∈ ((inferred builtinEffects (containers decls)).get name).getD ∅ ↔
        Requires (equations builtinEffects (containers decls)) name e) := by
  generalize containers decls = cs
  obtain ⟨n, hn⟩ : ∃ n, maxPasses cs = n + 1 := ⟨maxPasses cs - 1, by unfold maxPasses; omega⟩
  have hholds := holds_inferred builtinEffects cs
  rw [hn] at hholds
  constructor
  · rw [fixpoint_iff builtinEffects hholds, rounds_fixed_iff, hn, Nat.add_sub_cancel]
    simp only [WithinPasses, equations, List.forall_mem_map]
    rfl
  · intro hfix name e
    rw [hholds.effects]
    exact mem_of_fixed ((fixpoint_iff builtinEffects hholds).1 hfix) name e

/-! ## What the gate reports -/

/-- Where the inference is at a fixpoint, the gate reports nothing exactly when every trail reads and has each effect
that its container requires. -/
theorem checkEffectTrails_nil (decls : List (Declaration F))
    (hfix : Fixpoint builtinEffects (containers decls) (inferred builtinEffects (containers decls))) :
    checkEffectTrails builtinEffects decls = [] ↔ ∀ c ∈ containers decls, ∀ raw, c.declared = some raw →
      (∃ set, parseEffectSet raw = .ok set) ∧ ∀ d, (declaredTrails (containers decls)).get c.key = some d →
        ∀ e, Requires (equations builtinEffects (containers decls)) c.key e → e ∈ d := by
  unfold checkEffectTrails
  generalize containers decls = cs at hfix ⊢
  obtain ⟨n, hn⟩ : ∃ n, maxPasses cs = n + 1 := ⟨maxPasses cs - 1, by unfold maxPasses; omega⟩
  have hholds := holds_inferred builtinEffects cs
  rw [hn] at hholds
  have hactual (c : Container F) (hc : c ∈ cs) (e : Effect) :
      e ∈ factualEffects builtinEffects (declaredTrails cs) (inferred builtinEffects cs) c.kind ↔
        Requires (equations builtinEffects cs) c.key e := by
    rw [← mem_of_fixed ((fixpoint_iff builtinEffects hholds).1 hfix), ← hholds.effects, hfix c hc]
    rfl
  rw [List.append_eq_nil_iff, List.filterMap_eq_nil_iff, List.filterMap_eq_nil_iff, ← forall₂_and]
  refine forall₂_congr fun c hc => ?_
  cases hd : c.declared with
  | none => simp [trailError, trailViolation, hd]
  | some raw =>
    have hraw : trailError c = none ↔ ∃ set, parseEffectSet raw = .ok set := by
      simp only [trailError, hd]
      cases parseEffectSet raw <;> simp
    have hexcess : trailViolation builtinEffects cs c = none ↔ ∀ d, (declaredTrails cs).get c.key = some d →
        ∀ e, Requires (equations builtinEffects cs) c.key e → e ∈ d := by
      simp only [trailViolation, hd]
      cases (declaredTrails cs).get c.key with
      | none => simp
      | some d => simp [Finset.sdiff_eq_empty_iff_subset, Finset.subset_iff, hactual c hc]
    rw [hraw, hexcess]
    simp

namespace Sample

/-- Each pattern calls the next one, the last one memorizes something. -/
def callers : List String → List (Declaration Int)
  | [] => []
  | [name] => [.pattern name none [.memorize (.stringLit "x") 0]]
  | name :: next :: rest => .pattern name none [.exprStmt (.fnCall next [] 1)] :: callers (next :: rest)

def eighteen : List (Declaration Int) :=
  callers ["a", "b", "c", "d", "e", "f", "g", "h", "i", "j", "k", "l", "m", "n", "o", "p", "q", "r"]

end Sample

/-- Sixteen passes bring the effects of the last pattern up to the third: the second calls it and is taken to have
none. -/
theorem chain_of_eighteen : ¬ ∀ (builtinEffects : String → EffectSet) (decls : List (Declaration Int)),
    Fixpoint builtinEffects (containers decls) (inferred builtinEffects (containers decls)) := by
  intro h
  have hsecond := h (fun _ => ∅) Sample.eighteen
    ⟨"b", none, "pattern 'b'", .statements [.exprStmt (.fnCall "c" [] 1)]⟩ (.tail _ (.head _))
  have hnone : (inferred (fun _ => ∅) (containers Sample.eighteen)).get "b" = some ∅ := by decide +kernel
  have hsome : (inferred (fun _ => ∅) (containers Sample.eighteen)).get "c" = some {.io, .audit} := by decide +kernel
  have hundeclared : (declaredTrails (containers Sample.eighteen)).get "c" = none := by decide +kernel
  rw [hnone] at hsecond
  have hempty := Option.some.inj hsecond
  have hio : Effect.io ∈ (∅ : EffectSet) := by
    rw [hempty, mem_factualEffects]
    refine ⟨.call "c", .head _, ?_⟩
    simp only [siteEffects, contractOf, hundeclared, hsome]
    decide
  exact absurd hio (by decide)

end Metalogos.Effects
