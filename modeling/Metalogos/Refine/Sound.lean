import Metalogos.Refine.Loops

/-!
# The compiler is sound on checked text

Every piece of syntax is simulated, by induction on it: the cases are the lemmas of the modules
before this one. `okExpr`/`okStmt` and `Clean` are hypotheses inside the simulations, so the theorem
is about every piece, and says something about those that pass the check.
-/
namespace Metalogos.Refine

open Metalogos.Lang Metalogos.Machine Metalogos.Compile Metalogos.Walk Metalogos.Lib

variable {F W : Type} [FloatModel F]

variable {S : Setup F W} {p : Policy F} {T : List String}

theorem literal_sim {e : Expr F} (v : Value F)
    (hcomp : ∀ cs b, compileExpr S.tables e cs b = .ok (Compile.code [.const v], cs))
    (heval : ∀ env, evalExpr S.walk e env = pure v) : ExprSim S p T e := by
  intro X d k code Γ c cs cs' b b' frag brk cont env frame regs le w hr hc hok hcode hb' hs hl
  rw [hcomp] at hc
  obtain ⟨rfl, rfl⟩ : Compile.code [.const v] = frag ∧ cs = cs' := by simpa using hc
  obtain rfl : b' = b + 1 := hb'
  simp only [fill_code, CodeAt.cons_iff, CodeAt.nil, and_true] at hcode
  rw [heval]
  exact const_sim hcode hl

theorem ident_sim {x : String} : ExprSim S p T (.ident x) := by
  intro X d k code Γ c cs cs' b b' frag brk cont env frame regs le w hr hc hok hcode hb' hs hl
  obtain ⟨rfl, rfl⟩ : Compile.code [compileIdent S.tables cs x] = frag ∧ cs = cs' := by
    simpa [compileExpr] using hc
  obtain rfl : b' = b + 1 := hb'
  simp only [fill_code, CodeAt.cons_iff, CodeAt.nil, and_true] at hcode
  simp only [evalExpr]
  exact readVar_sim hr.linked hok hcode hs hl

/-- A `match` in value position does not compile outside a `let`. -/
theorem matchExpr_sim {s : Expr F} {arms : MatchArms F} : ExprSim S p T (.matchExpr s arms) := by
  intro X d k code Γ c cs cs' b b' frag brk cont env frame regs le w hr hc
  simp [compileExpr] at hc

mutual
theorem expr_sim (hA : Agrees S p T) : ∀ e : Expr F, ExprSim S p T e
  | .stringLit v => literal_sim (.string v) (fun _ _ => by simp [compileExpr]) fun _ => by simp only [evalExpr]
  | .floatLit v => literal_sim (.float v) (fun _ _ => by simp [compileExpr]) fun _ => by simp only [evalExpr]
  | .boolLit v => literal_sim (.bool v) (fun _ _ => by simp [compileExpr]) fun _ => by simp only [evalExpr]
  | .ident _ => ident_sim
  | .fieldAccess e _ => fieldAccess_sim (expr_sim hA e)
  | .fnCall _ args _ => fnCall_sim hA (exprs_sim hA args)
  | .qualifiedCall _ _ args => qualifiedCall_sim hA (exprs_sim hA args)
  | .binaryOp l _ r => binaryOp_sim (expr_sim hA l) (expr_sim hA r)
  | .ifElse c t e => ifElse_sim (expr_sim hA c) (expr_sim hA t) (expr_sim hA e)
  | .list items => list_sim (exprs_sim hA items)
  | .indexAccess b i => indexAccess_sim (expr_sim hA b) (expr_sim hA i)
  | .structLit _ values => structLit_sim (exprs_sim hA values)
  | .blockIfElse c body rest =>
    blockIfElse_sim (expr_sim hA c) (stmts_sim hA body) (elseValue_sim hA rest)
  | .matchExpr _ _ => matchExpr_sim
  | .try_ e => tryExpr_sim (expr_sim hA e)
  | .handleSource _ => handleSource_sim hA
  | .provBind _ e => provBind_sim hA (expr_sim hA e)

theorem exprs_sim (hA : Agrees S p T) : ∀ es : List (Expr F), ExprsSim S p T es
  | [] => exprs_nil
  | e :: es => exprs_cons (expr_sim hA e) (exprs_sim hA es)

theorem elseValue_sim (hA : Agrees S p T) : ∀ rest : ElseChain F, ElseValueSim S p T rest
  | .none => elseValue_none
  | .else_ body => elseValue_else (stmts_sim hA body)
  | .elseIf c body rest =>
    elseValue_elseIf (expr_sim hA c) (stmts_sim hA body) (elseValue_sim hA rest)

theorem armsValue_sim (hA : Agrees S p T) : ∀ arms : MatchArms F, ArmsValueSim S p T arms
  | .none => armsValue_none
  | .else_ body => armsValue_else (stmts_sim hA body)
  | .lit _ body rest => armsValue_lit (stmts_sim hA body) (armsValue_sim hA rest)
  | .compare _ th body rest =>
    armsValue_compare (expr_sim hA th) (stmts_sim hA body) (armsValue_sim hA rest)

theorem stmts_sim (hA : Agrees S p T) : ∀ ss : List (Stmt F), StmtsSim S p T ss
  | [] => stmts_nil
  | [s] => stmts_single (stmt_sim hA s)
  | s :: s' :: rest => stmts_cons (stmt_sim hA s) (stmts_sim hA (s' :: rest))

theorem letBinding_sim (hA : Agrees S p T) (x : String) (isMut : Bool) : ∀ e : Expr F,
    ExprSim S p T e → StmtSim S p T (.letBinding x e isMut)
  | .matchExpr s arms, _ => letMatch_sim (expr_sim hA s) (armsValue_sim hA arms)
  | .stringLit _, h | .floatLit _, h | .boolLit _, h | .ident _, h | .fieldAccess _ _, h
  | .fnCall _ _ _, h | .qualifiedCall _ _ _, h | .binaryOp _ _ _, h | .ifElse _ _ _, h | .list _, h
  | .indexAccess _ _, h | .structLit _ _, h | .blockIfElse _ _ _, h | .try_ _, h
  | .handleSource _, h | .provBind _ _, h => let_sim rfl hA h

theorem stmt_sim (hA : Agrees S p T) : ∀ s : Stmt F, StmtSim S p T s
  | .letBinding x e isMut => letBinding_sim hA x isMut e (expr_sim hA e)
  | .assign _ e => assign_sim (expr_sim hA e)
  | .each _ it body => each_sim (expr_sim hA it) (stmts_sim hA body)
  | .eachWithIndex _ _ it body => eachWithIndex_sim (expr_sim hA it) (stmts_sim hA body)
  | .while_ c body => while_sim (expr_sim hA c) (stmts_sim hA body)
  | .ifElseBlock c body rest =>
    ifElseBlock_sim (else_elseIf (expr_sim hA c) (stmts_sim hA body) (else_sim hA rest))
  | .ifThen c body => ifThen_sim (expr_sim hA c) (stmts_sim hA body)
  | .return_ e => return_sim hA (expr_sim hA e)
  | .exprStmt e => exprStmt_sim hA (expr_sim hA e)
  | .match_ s arms => match_sim (expr_sim hA s) (arms_sim hA arms)
  | .break_ => break_sim
  | .continue_ => continue_sim
  | .memorize e _ => memorize_sim (expr_sim hA e)
  | .forget e _ => forget_sim (expr_sim hA e)
  | .relate a b _ => relate_sim (expr_sim hA a) (expr_sim hA b)

theorem else_sim (hA : Agrees S p T) : ∀ rest : ElseChain F, ElseSim S p T rest
  | .none => else_none
  | .else_ body => else_else (stmts_sim hA body)
  | .elseIf c body rest => else_elseIf (expr_sim hA c) (stmts_sim hA body) (else_sim hA rest)

theorem arms_sim (hA : Agrees S p T) : ∀ arms : MatchArms F, ArmsSim S p T arms
  | .none => arms_none
  | .else_ body => arms_else (stmts_sim hA body)
  | .lit _ body rest => arms_lit (stmts_sim hA body) (arms_sim hA rest)
  | .compare _ th body rest =>
    arms_compare (expr_sim hA th) (stmts_sim hA body) (arms_sim hA rest)
end

end Metalogos.Refine
