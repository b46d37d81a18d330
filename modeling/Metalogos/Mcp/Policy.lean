import Metalogos.Compile.Sites
import Metalogos.Lib.Dict
import Metalogos.Lib.Fallible
import Metalogos.Mcp.Classes

/-!
# The compiled policy of a tool method

`metalogos-server/src/mcp_policy.rs`: the sinks a tool method calls are read off its body, and the jurisdiction gate
lets it pass when each of them has a verdict that is no denial (`gate_ok_iff`). The walk goes through every form of
statement and expression and takes down the functions of the call sites, and these alone (`mem_walkStmts`).
-/
namespace Metalogos.Mcp

open Metalogos.Lang Metalogos.Machine Metalogos.Compile Metalogos.Lib

variable {F : Type}

/-- mirrors src/ast.rs:1113-1125 -/
structure ToolMethod (F : Type) where
  params : List String
  body : List (Stmt F)

/-- mirrors metalogos-server/src/mcp_policy.rs:26-32 -/
structure SinkCall where
  builtin : String
  class_ : String
  deriving DecidableEq

/-- mirrors metalogos-server/src/mcp_policy.rs:34-51 -/
structure ToolPolicy where
  sinkCalls : List SinkCall := []
  sourceCalls : List String := []
  clearanceArgs : List String := []
  irreversible : Bool := false
  unclassified : List String := []
  deriving DecidableEq

/-- `if !v.contains(&x) { v.push(x) }`. -/
def pushNew {α : Type} [DecidableEq α] (v : List α) (x : α) : List α := if x ∈ v then v else v ++ [x]

theorem mem_pushNew {α : Type} [DecidableEq α] {v : List α} {x y : α} : y ∈ pushNew v x ↔ y ∈ v ∨ y = x := by
  unfold pushNew
  split
  · rename_i hx
    constructor
    · exact .inl
    · rintro (hy | rfl)
      · exact hy
      · exact hx
  · rw [List.mem_append, List.mem_singleton]

/-! ## Identifiers of an argument -/

mutual
/-- mirrors metalogos-server/src/mcp_policy.rs:324-405 -/
def collectIdents : Expr F → List String → List String
  | .ident name, out => pushNew out name
  | .fnCall _ args _, out | .qualifiedCall _ _ args, out | .list args, out | .structLit _ args, out =>
    collectIdentsAll args out
  | .fieldAccess e _, out | .try_ e, out | .provBind _ e, out => collectIdents e out
  | .binaryOp l _ r, out | .indexAccess l r, out => collectIdents r (collectIdents l out)
  | .ifElse c th el, out => collectIdents el (collectIdents th (collectIdents c out))
  | .blockIfElse c th rest, out => collectIdentsInElse rest (collectIdentsInStmts th (collectIdents c out))
  | .matchExpr s arms, out => collectIdentsInArms arms (collectIdents s out)
  | .stringLit _, out | .floatLit _, out | .boolLit _, out | .handleSource _, out => out

def collectIdentsAll : List (Expr F) → List String → List String
  | [], out => out
  | e :: es, out => collectIdentsAll es (collectIdents e out)

def collectIdentsInElse : ElseChain F → List String → List String
  | .none, out => out
  | .else_ body, out => collectIdentsInStmts body out
  | .elseIf c body rest, out => collectIdentsInElse rest (collectIdentsInStmts body (collectIdents c out))

def collectIdentsInArms : MatchArms F → List String → List String
  | .none, out => out
  | .else_ body, out => collectIdentsInStmts body out
  | .lit _ body rest, out => collectIdentsInArms rest (collectIdentsInStmts body out)
  | .compare _ th body rest, out => collectIdentsInArms rest (collectIdents th (collectIdentsInStmts body out))

/-- mirrors metalogos-server/src/mcp_policy.rs:407-411 -/
def collectIdentsInStmts : List (Stmt F) → List String → List String
  | [], out => out
  | s :: rest, out => collectIdentsInStmts rest (collectIdentsInStmt s out)

/-- mirrors metalogos-server/src/mcp_policy.rs:413-483 -/
def collectIdentsInStmt : Stmt F → List String → List String
  | .letBinding _ e _, out | .assign _ e, out | .return_ e, out | .exprStmt e, out | .memorize e _, out
  | .forget e _, out => collectIdents e out
  | .each _ it body, out | .eachWithIndex _ _ it body, out | .while_ it body, out | .ifThen it body, out =>
    collectIdentsInStmts body (collectIdents it out)
  | .ifElseBlock c body rest, out => collectIdentsInElse rest (collectIdentsInStmts body (collectIdents c out))
  | .match_ s arms, out => collectIdentsInArms arms (collectIdents s out)
  | .relate a b _, out => collectIdents b (collectIdents a out)
  | .break_, out | .continue_, out => out
end

/-! ## The walk -/

/-- mirrors metalogos-server/src/mcp_policy.rs:134-138 -/
structure Usage where
  calls : List String := []
  sinkArgs : Dict String (List String) := .empty

def Usage.pushCall (u : Usage) (name : String) : Usage := { u with calls := pushNew u.calls name }

/-- mirrors metalogos-server/src/mcp_policy.rs:231-233 -/
def isSink (name : String) : Bool := (classify name).any (·.role = .sink)

/-- mirrors metalogos-server/src/mcp_policy.rs:241-248 -/
def Usage.addSinkArgs (u : Usage) (name : String) (idents : List String) : Usage :=
  { u with sinkArgs := u.sinkArgs.set name (idents.foldl pushNew ((u.sinkArgs.get name).getD [])) }

mutual
/-- mirrors metalogos-server/src/mcp_policy.rs:228-319 -/
def walkExpr : Expr F → Usage → Usage
  | .fnCall name args _, u =>
    let u := walkExprs args (u.pushCall name)
    if isSink name then u.addSinkArgs name (collectIdentsAll args []) else u
  | .qualifiedCall _ function args, u => walkExprs args (u.pushCall function)
  | .fieldAccess e _, u | .try_ e, u | .provBind _ e, u => walkExpr e u
  | .binaryOp l _ r, u | .indexAccess l r, u => walkExpr r (walkExpr l u)
  | .ifElse c th el, u => walkExpr el (walkExpr th (walkExpr c u))
  | .list items, u | .structLit _ items, u => walkExprs items u
  | .blockIfElse c th rest, u => walkElse rest (walkStmts th (walkExpr c u))
  | .matchExpr s arms, u => walkArms arms (walkExpr s u)
  | .stringLit _, u | .floatLit _, u | .boolLit _, u | .ident _, u | .handleSource _, u => u

def walkExprs : List (Expr F) → Usage → Usage
  | [], u => u
  | e :: es, u => walkExprs es (walkExpr e u)

def walkElse : ElseChain F → Usage → Usage
  | .none, u => u
  | .else_ body, u => walkStmts body u
  | .elseIf c body rest, u => walkElse rest (walkStmts body (walkExpr c u))

def walkArms : MatchArms F → Usage → Usage
  | .none, u => u
  | .else_ body, u => walkStmts body u
  | .lit _ body rest, u => walkArms rest (walkStmts body u)
  | .compare _ th body rest, u => walkArms rest (walkExpr th (walkStmts body u))

/-- mirrors metalogos-server/src/mcp_policy.rs:222-226 -/
def walkStmts : List (Stmt F) → Usage → Usage
  | [], u => u
  | s :: rest, u => walkStmts rest (walkStmt s u)

/-- mirrors metalogos-server/src/mcp_policy.rs:146-220 -/
def walkStmt : Stmt F → Usage → Usage
  | .letBinding _ e _, u | .assign _ e, u | .return_ e, u | .exprStmt e, u | .memorize e _, u | .forget e _, u =>
    walkExpr e u
  | .each _ it body, u | .eachWithIndex _ _ it body, u | .while_ it body, u | .ifThen it body, u =>
    walkStmts body (walkExpr it u)
  | .ifElseBlock c body rest, u => walkElse rest (walkStmts body (walkExpr c u))
  | .match_ s arms, u => walkArms arms (walkExpr s u)
  | .relate a b _, u => walkExpr b (walkExpr a u)
  | .break_, u | .continue_, u => u
end

/-- The function a site names. -/
def siteFunction : Site → String
  | .plain name => name
  | .qualified _ fn => fn

/-- The functions a body calls. -/
def calledNames (body : List (Stmt F)) : List String := (sitesStmts body).map siteFunction

theorem mem_pushCall {u : Usage} {name x : String} : x ∈ (u.pushCall name).calls ↔ x ∈ u.calls ∨ x = name :=
  mem_pushNew

mutual
theorem mem_walkExpr (x : String) : ∀ (e : Expr F) (u : Usage),
    x ∈ (walkExpr e u).calls ↔ x ∈ u.calls ∨ x ∈ (sitesExpr e).map siteFunction
  | .fnCall name args line, u => by
    have hcalls : (walkExpr (.fnCall name args line) u).calls = (walkExprs args (u.pushCall name)).calls := by
      rw [walkExpr]
      split <;> rfl
    rw [hcalls, mem_walkExprs x args, mem_pushCall, sitesExpr]
    simp only [List.map_append, List.mem_append, List.map_singleton, List.mem_singleton, siteFunction]
    tauto
  | .qualifiedCall _ function args, u => by
    rw [walkExpr, mem_walkExprs x args, mem_pushCall, sitesExpr]
    simp only [List.map_append, List.mem_append, List.map_singleton, List.mem_singleton, siteFunction]
    tauto
  | .fieldAccess e _, u | .try_ e, u | .provBind _ e, u => by simp only [walkExpr, sitesExpr, mem_walkExpr x e]
  | .binaryOp l _ r, u | .indexAccess l r, u => by
    simp only [walkExpr, sitesExpr, mem_walkExpr x l, mem_walkExpr x r, List.map_append, List.mem_append, or_assoc]
  | .ifElse c th el, u => by
    simp only [walkExpr, sitesExpr, mem_walkExpr x c, mem_walkExpr x th, mem_walkExpr x el, List.map_append,
      List.mem_append, or_assoc]
  | .list items, u | .structLit _ items, u => by simp only [walkExpr, sitesExpr, mem_walkExprs x items]
  | .blockIfElse c th rest, u => by
    simp only [walkExpr, sitesExpr, mem_walkExpr x c, mem_walkStmts x th, mem_walkElse x rest, List.map_append,
      List.mem_append, or_assoc]
  | .matchExpr s arms, u => by
    simp only [walkExpr, sitesExpr, mem_walkExpr x s, mem_walkArms x arms, List.map_append, List.mem_append, or_assoc]
  | .stringLit _, u | .floatLit _, u | .boolLit _, u | .ident _, u | .handleSource _, u => by
    simp [walkExpr, sitesExpr]

theorem mem_walkExprs (x : String) : ∀ (es : List (Expr F)) (u : Usage),
    x ∈ (walkExprs es u).calls ↔ x ∈ u.calls ∨ x ∈ (sitesExprs es).map siteFunction
  | [], u => by simp [walkExprs, sitesExprs]
  | e :: es, u => by
    simp only [walkExprs, sitesExprs, mem_walkExprs x es, mem_walkExpr x e, List.map_append, List.mem_append, or_assoc]

theorem mem_walkElse (x : String) : ∀ (rest : ElseChain F) (u : Usage),
    x ∈ (walkElse rest u).calls ↔ x ∈ u.calls ∨ x ∈ (sitesElse rest).map siteFunction
  | .none, u => by simp [walkElse, sitesElse]
  | .else_ body, u => by simp only [walkElse, sitesElse, mem_walkStmts x body]
  | .elseIf c body rest, u => by
    simp only [walkElse, sitesElse, mem_walkElse x rest, mem_walkStmts x body, mem_walkExpr x c, List.map_append,
      List.mem_append, or_assoc]

theorem mem_walkArms (x : String) : ∀ (arms : MatchArms F) (u : Usage),
    x ∈ (walkArms arms u).calls ↔ x ∈ u.calls ∨ x ∈ (sitesArms arms).map siteFunction
  | .none, u => by simp [walkArms, sitesArms]
  | .else_ body, u => by simp only [walkArms, sitesArms, mem_walkStmts x body]
  | .lit _ body rest, u => by
    simp only [walkArms, sitesArms, mem_walkArms x rest, mem_walkStmts x body, List.map_append, List.mem_append,
      or_assoc]
  | .compare _ th body rest, u => by
    -- the walk takes the body before the threshold
    rw [walkArms, mem_walkArms x rest, mem_walkExpr x th, mem_walkStmts x body, sitesArms]
    simp only [List.map_append, List.mem_append]
    tauto

theorem mem_walkStmts (x : String) : ∀ (ss : List (Stmt F)) (u : Usage),
    x ∈ (walkStmts ss u).calls ↔ x ∈ u.calls ∨ x ∈ (sitesStmts ss).map siteFunction
  | [], u => by simp [walkStmts, sitesStmts]
  | s :: rest, u => by
    simp only [walkStmts, sitesStmts, mem_walkStmts x rest, mem_walkStmt x s, List.map_append, List.mem_append,
      or_assoc]

theorem mem_walkStmt (x : String) : ∀ (s : Stmt F) (u : Usage),
    x ∈ (walkStmt s u).calls ↔ x ∈ u.calls ∨ x ∈ (sitesStmt s).map siteFunction
  | .letBinding _ e _, u | .assign _ e, u | .return_ e, u | .exprStmt e, u | .memorize e _, u | .forget e _, u => by
    simp only [walkStmt, sitesStmt, mem_walkExpr x e]
  | .each _ it body, u | .eachWithIndex _ _ it body, u | .while_ it body, u | .ifThen it body, u => by
    simp only [walkStmt, sitesStmt, mem_walkExpr x it, mem_walkStmts x body, List.map_append, List.mem_append,
      or_assoc]
  | .ifElseBlock c body rest, u => by
    simp only [walkStmt, sitesStmt, mem_walkExpr x c, mem_walkStmts x body, mem_walkElse x rest, List.map_append,
      List.mem_append, or_assoc]
  | .match_ s arms, u => by
    simp only [walkStmt, sitesStmt, mem_walkExpr x s, mem_walkArms x arms, List.map_append, List.mem_append, or_assoc]
  | .relate a b _, u => by
    simp only [walkStmt, sitesStmt, mem_walkExpr x a, mem_walkExpr x b, List.map_append, List.mem_append, or_assoc]
  | .break_, u | .continue_, u => by simp [walkStmt, sitesStmt]
end

/-! ## The policy -/

/-- The parameters among the identifiers of a sink's arguments.
mirrors metalogos-server/src/mcp_policy.rs:82-90 -/
def clearedBy (params clearanceArgs idents : List String) : List String :=
  idents.foldl (fun acc ident => if ident ∈ params then pushNew acc ident else acc) clearanceArgs

/-- One name that is called.
mirrors metalogos-server/src/mcp_policy.rs:70-121 -/
def ToolPolicy.addCall (params : List String) (sinkArgs : Dict String (List String)) (p : ToolPolicy)
    (name : String) : ToolPolicy :=
  match classify name with
  | some cls =>
    let p := match cls.role with
      | .sink =>
        { p with
          sinkCalls := pushNew p.sinkCalls ⟨name, sinkKind name⟩
          clearanceArgs := clearedBy params p.clearanceArgs ((sinkArgs.get name).getD [])
          irreversible := p.irreversible || cls.reversibility = .irreversible }
      | .source => { p with sourceCalls := pushNew p.sourceCalls name }
      | _ => p
    if cls.role ≠ .pure ∧ cls.reversibility = .irreversible ∧ p.sinkCalls.all (·.builtin ≠ name) then
      { p with irreversible := true }
    else p
  | none => { p with unclassified := pushNew p.unclassified name }

/-- mirrors metalogos-server/src/mcp_policy.rs:61-130 -/
def compilePolicy (method : ToolMethod F) : ToolPolicy :=
  let usage := walkStmts method.body {}
  usage.calls.foldl (ToolPolicy.addCall method.params usage.sinkArgs) {}

theorem sinkCalls_addCall (params : List String) (sinkArgs : Dict String (List String)) (p : ToolPolicy)
    (name : String) : (p.addCall params sinkArgs name).sinkCalls =
      if isSink name then pushNew p.sinkCalls ⟨name, sinkKind name⟩ else p.sinkCalls := by
  unfold ToolPolicy.addCall isSink
  cases classify name with
  | none => rfl
  | some cls =>
    obtain ⟨role, reversibility⟩ := cls
    cases role <;> dsimp only <;> split <;> rfl

theorem sinks_foldl (params : List String) (sinkArgs : Dict String (List String)) (x : String) (calls : List String)
    (p : ToolPolicy) : (∃ sc ∈ (calls.foldl (ToolPolicy.addCall params sinkArgs) p).sinkCalls, sc.builtin = x) ↔
      (∃ sc ∈ p.sinkCalls, sc.builtin = x) ∨ (x ∈ calls ∧ isSink x = true) := by
  induction calls generalizing p with
  | nil => simp
  | cons name calls ih =>
    rw [List.foldl_cons, ih, sinkCalls_addCall]
    by_cases hsink : isSink name = true
    · have hpush : (∃ sc ∈ pushNew p.sinkCalls ⟨name, sinkKind name⟩, sc.builtin = x) ↔
          (∃ sc ∈ p.sinkCalls, sc.builtin = x) ∨ name = x := by
        simp only [mem_pushNew, or_and_right, exists_or, exists_eq_left]
      rw [if_pos hsink, hpush, List.mem_cons]
      constructor
      · rintro ((h | rfl) | ⟨h, hx⟩)
        · exact .inl h
        · exact .inr ⟨.inl rfl, hsink⟩
        · exact .inr ⟨.inr h, hx⟩
      · rintro (h | ⟨rfl | h, hx⟩)
        · exact .inl (.inl h)
        · exact .inl (.inr rfl)
        · exact .inr ⟨h, hx⟩
    · rw [if_neg hsink, List.mem_cons]
      constructor
      · rintro (h | ⟨h, hx⟩)
        · exact .inl h
        · exact .inr ⟨.inr h, hx⟩
      · rintro (h | ⟨rfl | h, hx⟩)
        · exact .inl h
        · exact absurd hx hsink
        · exact .inr ⟨h, hx⟩

/-- The sinks of the policy are those the body calls. -/
theorem mem_sinkCalls (method : ToolMethod F) (x : String) :
    (∃ sc ∈ (compilePolicy method).sinkCalls, sc.builtin = x) ↔ x ∈ calledNames method.body ∧ isSink x = true := by
  have hwalk := mem_walkStmts x method.body {}
  unfold compilePolicy
  rw [sinks_foldl, hwalk]
  simp [calledNames]

/-! ## The gate -/

/-- mirrors src/jurisdiction.rs:67-81 -/
inductive PolicyEffect where
  | allow
  | deny
  | limit
  deriving DecidableEq, Repr

def PolicyEffect.asStr : PolicyEffect → String
  | .allow => "allow"
  | .deny => "deny"
  | .limit => "limit"

/-- mirrors src/jurisdiction.rs:328-335 -/
structure JurisdictionPolicy where
  jurisdiction : String
  deny : List String
  limit : List String
  allow : List String
  matrixDigest : String

/-- mirrors src/jurisdiction.rs:339-349 -/
def JurisdictionPolicy.effectOf (policy : JurisdictionPolicy) (carrier : String) : Option PolicyEffect :=
  if carrier ∈ policy.deny then some .deny
  else if carrier ∈ policy.limit then some .limit
  else if carrier ∈ policy.allow then some .allow
  else none

/-- mirrors src/jurisdiction.rs:358-369 -/
def jurisdictionVerdict (policy : JurisdictionPolicy) (carrier : String) : Except String PolicyEffect :=
  match policy.effectOf carrier with
  | some effect => .ok effect
  | none => .error ("jurisdiction: no rule covers '" ++ carrier ++ "' in " ++ policy.jurisdiction
      ++ " — the gate verdict refuses an uncovered carrier (fail-closed, KPI C10; the №845 form)")

/-- mirrors metalogos-server/src/mcp_policy.rs:502-510 -/
structure GateVerdict where
  carrier : String
  effect : String
  deriving DecidableEq

/-- mirrors metalogos-server/src/mcp_policy.rs:516-525 -/
structure JurisdictionGateReport where
  jurisdiction : String
  matrixDigest : String
  verdicts : List GateVerdict
  deriving DecidableEq

/-- mirrors metalogos-server/src/mcp_policy.rs:541-547 -/
def gateVerdict (policy : JurisdictionPolicy) (sc : SinkCall) : Except String GateVerdict := do
  let effect ← jurisdictionVerdict policy sc.builtin
  .ok { carrier := sc.builtin, effect := effect.asStr }

/-- mirrors metalogos-server/src/mcp_policy.rs:536-564 -/
def jurisdictionGate (tool : ToolPolicy) (policy : JurisdictionPolicy) : Except String JurisdictionGateReport := do
  let verdicts ← tool.sinkCalls.mapM (gateVerdict policy)
  let denied := (verdicts.filter (·.effect = "deny")).map (·.carrier)
  if denied ≠ [] then
    .error ("jurisdiction: the deny effect covers an audited sink — the composition refuses before any run (fail-closed; carriers: "
      ++ ", ".intercalate denied ++ ")")
  else .ok { jurisdiction := policy.jurisdiction, matrixDigest := policy.matrixDigest, verdicts := verdicts }

/-- There is a verdict, and it is no denial. -/
def JurisdictionPolicy.Covers (policy : JurisdictionPolicy) (carrier : String) : Prop :=
  ∃ effect, policy.effectOf carrier = some effect ∧ effect ≠ .deny

theorem gateVerdict_ok {policy : JurisdictionPolicy} {sc : SinkCall} {v : GateVerdict} :
    gateVerdict policy sc = .ok v ↔
      ∃ effect, policy.effectOf sc.builtin = some effect ∧ v = { carrier := sc.builtin, effect := effect.asStr } := by
  unfold gateVerdict jurisdictionVerdict
  rw [bind_ok]
  cases policy.effectOf sc.builtin with
  | none => simp
  | some effect => simp [eq_comm]

/-- The gate lets a method pass when every sink of its policy is covered. -/
theorem gate_ok_iff {tool : ToolPolicy} {policy : JurisdictionPolicy} :
    (∃ report, jurisdictionGate tool policy = .ok report) ↔ ∀ sc ∈ tool.sinkCalls, policy.Covers sc.builtin := by
  constructor
  · rintro ⟨report, h⟩ sc hsc
    obtain ⟨verdicts, hverdicts, hdenied⟩ := bind_ok.1 h
    have hmem := List.mem_map_of_mem (f := gateVerdict policy) hsc
    rw [mapM_ok.1 hverdicts] at hmem
    obtain ⟨v, hv, hrow⟩ := List.mem_map.1 hmem
    obtain ⟨effect, heffect, rfl⟩ := gateVerdict_ok.1 hrow.symm
    refine ⟨effect, heffect, ?_⟩
    rintro rfl
    dsimp only at hdenied
    split at hdenied
    · cases hdenied
    · rename_i hnone
      have hnil := List.map_eq_nil_iff.1 (not_not.1 hnone)
      have hrefused := List.filter_eq_nil_iff.1 hnil _ hv
      exact hrefused (decide_eq_true rfl)
  · intro h
    have hrow : ∀ sc ∈ tool.sinkCalls, ∃ v, gateVerdict policy sc = .ok v ∧ v.effect ≠ "deny" := by
      intro sc hsc
      obtain ⟨effect, heffect, hallowed⟩ := h sc hsc
      refine ⟨_, gateVerdict_ok.2 ⟨effect, heffect, rfl⟩, ?_⟩
      show effect.asStr ≠ "deny"
      cases effect with
      | allow => decide
      | deny => exact absurd rfl hallowed
      | limit => decide
    obtain ⟨verdicts, hverdicts, hallowed⟩ := mapM_of_ok hrow
    have hnil : verdicts.filter (·.effect = "deny") = [] :=
      List.filter_eq_nil_iff.2 fun v hv hdeny => hallowed v hv (of_decide_eq_true hdeny)
    refine ⟨⟨policy.jurisdiction, policy.matrixDigest, verdicts⟩, bind_ok.2 ⟨verdicts, hverdicts, ?_⟩⟩
    dsimp only
    rw [hnil]
    exact if_neg (not_not.2 rfl)

end Metalogos.Mcp
