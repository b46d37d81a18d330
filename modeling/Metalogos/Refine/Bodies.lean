import Mathlib.Data.List.Dedup
import Metalogos.Refine.Sound

/-!
# Whole bodies

`execute_code` on a compiled pattern body against `eval_statements_cf` on the same statements. The
arguments are the first cells of the frame on one side and bound by name on the other
(`bindParams`); from there the simulation of statement lists carries to the end of the code.

`Setup.policy` is the concrete policy of a setup: which calls resolve alike, which sink checks
cannot be refused when only the names in `T` carry labels (`policy_agrees`).

* `body_sim`: the simulation of a whole body;
* `body_runs`: under every large enough instruction factor the machine returns what the tree-walker
  returns, fails with its text, and leaves the same world (`Parity`).
-/
namespace Metalogos.Refine

open Metalogos.Lang Metalogos.Machine Metalogos.Compile Metalogos.Walk Metalogos.Lib

variable {F W : Type}

/-! ## Parameters -/

/-- The environment of a call; a repeated name keeps its last argument.
mirrors src/interpreter/execution.rs:2958-2972 -/
def bindParams (params : List String) (args : List (Value F)) : Env F :=
  (params.zip args).foldl (fun env pa => env.set pa.1 pa.2) fun _ => none

/-- Parameters are bound, and live in the cells of their positions. -/
def Scope.ofParams (params : List String) : Scope := ⟨some params, params, params, []⟩

section

variable {x : String} {v : Value F}

theorem foldl_set_of_notMem : ∀ {params : List String} {args : List (Value F)} {env : Env F},
    x ∉ params → (params.zip args).foldl (fun env pa => env.set pa.1 pa.2) env x = env x
  | [], _, _, _ | _ :: _, [], _, _ => by simp
  | p :: params, a :: args, env, h => by
    simp only [List.mem_cons, not_or] at h
    rw [List.zip_cons_cons, List.foldl_cons, foldl_set_of_notMem h.2, Env.set, if_neg h.1]

theorem foldl_set_of_getElem : ∀ {params : List String} {args : List (Value F)} {env : Env F}
    {s : Nat}, params.Nodup → params[s]? = some x → args[s]? = some v →
    (params.zip args).foldl (fun env pa => env.set pa.1 pa.2) env x = some v
  | [], _, _, _, _, h, _ => by simp at h
  | _ :: _, [], _, _, _, _, h => by simp at h
  | p :: params, a :: args, env, s, hnd, hx, hv => by
    obtain ⟨hp, hrest⟩ := List.nodup_cons.1 hnd
    rw [List.zip_cons_cons, List.foldl_cons]
    cases s with
    | zero =>
      obtain ⟨rfl, rfl⟩ : p = x ∧ a = v := by simpa using And.intro hx hv
      rw [foldl_set_of_notMem hp, Env.set, if_pos rfl]
    | succ s => exact foldl_set_of_getElem hrest (by simpa using hx) (by simpa using hv)

/-- The slot of a parameter is one of its positions. -/
theorem ofParams_locals {params : List String} {s : Nat}
    (h : (CState.ofParams params).locals x = some s) : params[s]? = some x := by
  simp only [CState.ofParams] at h
  split_ifs at h with hx
  obtain rfl : params.length - 1 - params.reverse.idxOf x = s := by simpa using h
  have hr : params.reverse.idxOf x < params.length := by
    simpa using List.idxOf_lt_length_iff.2 (List.mem_reverse.2 hx)
  have hlt : params.length - 1 - params.reverse.idxOf x < params.length := by omega
  have hg : params.reverse[params.reverse.idxOf x]? = some x :=
    List.getElem?_idxOf (List.mem_reverse.2 hx)
  rwa [List.getElem?_reverse hr] at hg

/-- A call starts with its arguments in their slots. -/
theorem sync_ofParams {params : List String} {args : List (Value F)} (hn : params.Nodup)
    (hlen : args.length = params.length) :
    Sync (Scope.ofParams params) (.ofParams params) (bindParams params args) args where
  live := by
    refine ⟨params, rfl, fun x hx => ?_⟩
    have hl : (CState.ofParams params).locals x =
        some (params.length - 1 - params.reverse.idxOf x) := by simp [CState.ofParams, hx]
    have hs := ofParams_locals hl
    have hlt := (List.getElem?_eq_some_iff.1 hs).1
    have hv := List.getElem?_eq_getElem (Nat.lt_of_lt_of_eq hlt hlen.symm)
    exact ⟨_, _, hl, foldl_set_of_getElem hn hs hv, hv⟩
  may {x v} hv := by
    by_contra hx
    have hx' : x ∉ params := hx
    rw [bindParams, foldl_set_of_notMem hx'] at hv
    simp at hv
  slots {x s} hs := List.mem_of_getElem? (ofParams_locals hs)
  ok :=
    { inj := fun hx hy => by
        have h := (ofParams_locals hx).symm.trans (ofParams_locals hy)
        simpa using h
      lt := fun hx => by
        have h := (List.getElem?_eq_some_iff.1 (ofParams_locals hx)).1
        simpa [CState.ofParams, List.dedup_eq_self.2 hn] using h }

end

/-! ## The policy of a setup -/

variable [FloatModel F]

namespace Setup

variable (S : Setup F W) (T : List String)

/-- Both backends call the same declaration, and both or neither refuse the number of arguments. -/
def callOk (f : String) (args : List (Expr F)) : Bool :=
  decide (S.walk.resolve f = calleeOf S.tables f)
    && args.head?.all (fun a => (bareIdentArg S.walk f a).isNone)
    && (decide (calleeOf S.tables f ≠ some (.pattern f)) || decide (args.length = S.walk.arity f))

def qualifiedOk (ns fn : String) (args : List (Expr F)) : Bool :=
  match qualifiedCalleeOf S.tables ns fn, S.walk.resolveQualified ns fn with
  | some (.pattern g), .ok c => decide (c = .pattern g) && decide (args.length = S.walk.arity g)
  | some c, .ok c' => decide (c' = c)
  | some _, .error _ => false
  | none, _ => true

/-- An argument whose label a sink check reads and lets pass. -/
def argPasses (fn : String) (a : Expr F) : Bool :=
  match trackable S.tables a with
  | none => true
  | some (.var x) => decide (x ∉ T)
  | some (.source f) => !sinkRefuses fn (S.tables.classes.runtimeSourceLabel f)

def sinkOk : Expr F → Bool
  | .fnCall fn args _ => !S.tables.classes.isSink fn || args.all (S.argPasses T fn)
  | _ => true

def sourceOk (x : String) (e : Expr F) : Bool :=
  (labelJoin S.tables x e : List (Instr F)).isEmpty || decide (x ∈ T)

/-- What a body may contain; the flags are for block expressions, index access and struct
literals. -/
def policy (block index struct_ : Bool) : Policy F where
  call := S.callOk
  qualified := S.qualifiedOk
  sink := S.sinkOk T
  source := S.sourceOk T
  block := block
  index := index
  struct_ := struct_

variable {S T}

omit [FloatModel F] in
theorem callOk_spec {f : String} {args : List (Expr F)} (h : S.callOk f args = true) :
    S.walk.resolve f = calleeOf S.tables f ∧ (∀ a ∈ args.head?, bareIdentArg S.walk f a = none) ∧
    (calleeOf S.tables f = some (.pattern f) → args.length = S.walk.arity f) := by
  simp only [callOk, Bool.and_eq_true, Bool.or_eq_true, decide_eq_true_eq] at h
  obtain ⟨⟨hr, hb⟩, ha⟩ := h
  refine ⟨hr, fun a hm => ?_, fun hc => ha.resolve_left (not_not_intro hc)⟩
  rw [Option.mem_def.1 hm] at hb
  simpa using hb

omit [FloatModel F] in
theorem qualifiedOk_spec {ns fn : String} {args : List (Expr F)} {c : Callee}
    (h : S.qualifiedOk ns fn args = true) (hc : qualifiedCalleeOf S.tables ns fn = some c) :
    S.walk.resolveQualified ns fn = .ok c ∧ ∀ g, c = .pattern g → args.length = S.walk.arity g := by
  simp only [qualifiedOk, hc] at h
  cases hr : S.walk.resolveQualified ns fn with
  | error e => cases c <;> simp [hr] at h
  | ok c' => cases c <;> simp_all

omit [FloatModel F] in
/-- Every check in front of a call reads the label of one trackable argument. -/
theorem mem_emitSinkChecks {t : Tables} {cs : CState} {fn : String} {line skip : Nat}
    {data : SinkCheckData} : ∀ {i : Nat} {args : List (Expr F)},
    .sinkCheck data ∈ emitSinkChecks t cs fn line skip i args →
    data.fnName = fn ∧ ∃ a ∈ args, trackable t a = some data.arg
  | _, [], h => by simp [emitSinkChecks] at h
  | i, a :: args, h => by
    simp only [emitSinkChecks, List.mem_append] at h
    rcases h with h | h
    · cases ht : trackable t a with
      | none => simp [ht] at h
      | some r =>
        obtain rfl : data = _ := by simpa [ht] using h
        exact ⟨rfl, a, List.mem_cons_self, ht⟩
    · obtain ⟨hf, a', ha, ht⟩ := mem_emitSinkChecks h
      exact ⟨hf, a', List.mem_cons_of_mem _ ha, ht⟩

omit [FloatModel F] in
theorem sinkOk_spec {e : Expr F} {cs : CState} {skip : Nat} {data : SinkCheckData} {le : LabelEnv}
    (hcl : S.names.classes = S.tables.classes) (h : S.sinkOk T e = true)
    (hd : .sinkCheck data ∈ armedSinkChecks S.tables cs skip e) (hl : LabelsIn T le) :
    sinkRefuses data.fnName (labelOf S.names.classes le data.arg) = false := by
  cases e with
  | fnCall fn args line =>
    simp only [armedSinkChecks] at hd
    split_ifs at hd with hs
    · obtain ⟨rfl, a, ha, ht⟩ := mem_emitSinkChecks hd
      have hp : S.argPasses T data.fnName a = true := by
        simp only [sinkOk, hs, Bool.not_true, Bool.false_or, List.all_eq_true] at h
        exact h a ha
      simp only [argPasses, ht] at hp
      cases hr : data.arg with
      | var x =>
        have hx : (le x).getD {} = {} := hl x (by simpa [hr] using hp)
        simp [labelOf, hx, sinkRefuses]
      | source f => simpa [hr, labelOf, hcl] using hp
    · simp at hd
  | _ => simp [armedSinkChecks] at hd

end Setup

omit [FloatModel F] in
/-- The concrete policy keeps its promises once callees leave the other names unlabelled. -/
theorem policy_agrees {S : Setup F W} {T : List String} {block index struct_ : Bool}
    (hcl : S.names.classes = S.tables.classes)
    (hlab : ∀ c args w le, LabelsIn T le → LabelsIn T (S.callLabels c args w le)) :
    Agrees S (S.policy T block index struct_) T where
  call := Setup.callOk_spec
  qualified := Setup.qualifiedOk_spec
  sink := Setup.sinkOk_spec hcl
  source {x e} h hne := by
    simp only [Setup.policy, Setup.sourceOk, Bool.or_eq_true, decide_eq_true_eq] at h
    exact h.resolve_left (by simpa using hne)
  labels := hlab _ _ _ _

/-! ## Bodies -/

/-- The context of the statements of a body. -/
def Ctx.body (precise : Bool) : Ctx := ⟨.top, false, true, true, precise⟩

/-- What the machine answers when the tree-walker's statements end with `r`. -/
def Parity (precise : Bool) (r : Except String (Outcome F)) (res : Except String (Value F)) : Prop :=
  match r with
  | .error e => res = .error e
  | .ok (.ret v, _) => res = .ok v
  | .ok (.normal v, _) => ∃ u, res = .ok u ∧ (precise = true → u = v)
  | .ok _ => False

section

variable {S : Setup F W} {p : Policy F} {T : List String} {X : Fixed F} {d k : Nat}
  {params : List String} {body : List (Stmt F)} {code : List (Instr F)} {args : List (Value F)}
  {le : LabelEnv} {w w' : W} {precise : Bool}

/-- The body's machine, started on its arguments, halts with the tree-walker's answer. -/
theorem body_sim (hA : Agrees S p T) (hr : Runs S X d k)
    (hc : compilePatternBody S.tables params body = .ok code) (hn : params.Nodup)
    (hlen : args.length = params.length)
    (hok : okStmts p k .top false (.ofParams params) body = true) (hl : LabelsIn T le) :
    Simulates (S.machine d code) (Clean (Ctx.body precise))
      (evalStmts S.walk body .unit (bindParams params args) []) w (.inl (0, X.mach args [] le w))
      (fun out w' o => ∃ res m, o = .inr (res, m) ∧ m.vm.world = w' ∧ Parity precise (.ok out) res)
      (fun e w' o => ∃ m, o = .inr (.error e, m) ∧ m.vm.world = w') := by
  obtain ⟨⟨frag, cs'⟩, hfrag, hcode⟩ := bind_ok.1 hc
  obtain rfl : fill 0 0 frag = code := Except.ok.inj hcode
  let g : Spot F :=
    { X := X, P := fun _ => False, c := Ctx.body precise, frame := args, rs := [], stale := .unit,
      stop := 0 + frag.length, brk := 0, cont := 0,
      L := ⟨[], params ++ letsStmts body ++ loopVarsStmts body, fun _ => none⟩ }
  have hin : g.L.Inside (Scope.ofParams params) (.ofParams params) (letsStmts body)
      (loopVarsStmts body) :=
    { bound := by simp [g]
      locals := by simp [g]
      may := fun hx => by simpa [g, Scope.ofParams, or_assoc] using hx
      vars := by simp [g]
      lets := by simp [g] }
  have hbody := stmts_sim hA body
  have hsim := @hbody g d k _ .top _ _ cs' 0 frag _ [] _ _ le w hr hfrag rfl rfl
    hok CodeAt.self rfl ⟨by rintro ⟨⟩, fun _ => ⟨rfl, rfl⟩, by rintro ⟨⟩⟩ (sync_ofParams hn hlen)
    ⟨fun _ h => h.elim, fun h => h.elim⟩ hin rfl hl fun _ => rfl
  refine hsim.post (fun out w₁ o hdone => ?_) fun e w₁ o hf => ?_
  · obtain ⟨sig, env', muts'⟩ := out
    obtain ⟨hdone, -⟩ := hdone
    have hend {frame : List (Value F)} {u : Value F} {le' : LabelEnv} :
        (S.machine d (fill 0 0 frag)).Gets
          (.inl (0 + frag.length, X.mach (frame ++ [u]) [] le' w₁)) (.inr (.ok u, X.mach frame [] le' w₁)) :=
      gets_end (by simp)
    cases sig with
    | normal v =>
      obtain ⟨frame, u, le', rfl, hu⟩ : ∃ frame u le', o = .inl (g.stop, g.X.mach (frame ++ [u]) g.rs
        le' w₁) ∧ (precise = true → u = v) := hdone
      exact ⟨_, hend, _, _, rfl, rfl, u, rfl, hu⟩
    | ret v =>
      obtain ⟨-, ⟨m, rfl, hm⟩ | ⟨-, frame, le', rfl⟩⟩ : g.Returns true v w₁ o := hdone
      · exact ⟨_, .refl _, _, _, rfl, hm, rfl⟩
      · exact ⟨_, hend, _, _, rfl, rfl, rfl⟩
    | brk => cases hdone.1
    | cont => cases hdone.1
  · obtain ⟨m, rfl, hf⟩ := hf
    exact ⟨m, rfl, hf.world⟩

/-- The body executor on compiled code does what the tree-walker does on the statements: for every
run whose events are clean. -/
theorem body_runs {r : Except String (Outcome F)} {t : List (Event F)} {regs : List (Value F)}
    (hA : Agrees S p T) (hr : Runs S X.deeper d k) (hd : X.depth + 1 ≤ S.maxDepth)
    (hc : compilePatternBody S.tables params body = .ok code) (hn : params.Nodup)
    (hlen : args.length = params.length)
    (hok : okStmts p k .top false (.ofParams params) body = true) (hl : LabelsIn T le)
    (hrun : evalStmts S.walk body .unit (bindParams params args) [] w = (r, w', t))
    (hclean : ∀ e ∈ t, Clean (Ctx.body precise) e) :
    ∃ res m n, Parity precise r res ∧ m.vm.world = w' ∧ ∀ lim ≥ n,
      S.executeCode lim (d + 1) code (X.mach args regs le w) = (res, m) := by
  obtain ⟨o, hg, ho⟩ := body_sim hA hr hc hn hlen hok hl _ _ _ hrun hclean
  obtain ⟨res, m, rfl, hm, hp⟩ : ∃ res m, o = .inr (res, m) ∧ m.vm.world = w' ∧
      Parity precise r res := by
    cases r with
    | ok out => exact ho
    | error e =>
      obtain ⟨m, rfl, hm⟩ := ho
      exact ⟨_, m, rfl, hm, rfl⟩
  have hh : Halts (S.machine d code).next (S.machine d code).fin
    (0, (X.mach args regs le w).enter) (res, m) := hg
  obtain ⟨n, hn⟩ := executeCode_of_halts (m := X.mach args regs le w) hd hh
  exact ⟨res, (X.mach args regs le w).leave m, n, hp, hm, hn⟩

end

/-! ## Checking a run -/

instance {v : Value F} : Decidable (v = .unit) := decidable_of_iff (v.isUnit = true) Value.isUnit_iff

/-- `twIndex b i` has a value, and `b` is no string. -/
def indexOk (b i : Value F) : Bool :=
  (twIndex b i).isOk && match b with
    | .string _ => false
    | _ => true

theorem indexOk_iff {b i : Value F} :
    indexOk b i = true ↔ (∃ v, twIndex b i = .ok v) ∧ ∀ s, b ≠ .string s := by
  unfold indexOk
  cases twIndex b i <;> cases b <;> simp [Except.isOk, Except.toBool]

instance Clean.decidable : (c : Ctx) → (e : Event F) → Decidable (Clean c e)
  | _, .read _ _ => .isTrue trivial
  | _, .ne l r => inferInstanceAs (Decidable (comparable l r = true))
  | _, .index _ _ => decidable_of_iff _ indexOk_iff
  | _, .refused _ | _, .limit => .isFalse id
  | _, .items n => inferInstanceAs (Decidable (n < 2 ^ 53))
  | c, .store => inferInstanceAs (Decidable (c.st = true))
  | c, .scrut => inferInstanceAs (Decidable (c.st = true ∨ c.mode.isValue = true))
  | c, .stmt last v isLast => inferInstanceAs (Decidable
      ((v.isHttpResponse = true → isLast = true ∧ (c.mode = .arm ∨ c.tail = true)) ∧
      (c.precise = true → c.keep isLast = true → v = .unit → last = .unit)))
  | c, .silent last isLast =>
    inferInstanceAs (Decidable (c.precise = true → c.keep isLast = true → last = .unit))
  | c, .reset last => inferInstanceAs (Decidable (c.mode.isValue = true → last = .unit))
  | c, .taken last v => inferInstanceAs (Decidable (c.mode.isValue = true → v = .unit → last = .unit))
  | c, .ret isLast => inferInstanceAs (Decidable (c.inArm = true → c.mode = .arm ∧ isLast = true))
  | c, .pend e => Clean.decidable c.pend e
  | c, .arm e => Clean.decidable c.arm e
  | c, .loop e => Clean.decidable c.loop e
  | c, .blk isLast e => Clean.decidable (c.blk isLast) e

/-! ## A small program

What concrete runs are evaluated on: `print` logs its argument, gives it back and is a sink, `env` is a secret
source, `respond` makes a response, `fail` fails, the pattern `id` returns its argument and the pattern `note`
memorizes it and has no value; the global `g` is 7. -/

namespace Sample

def walk : Interpreter Int (List String) where
  call c args w := match c with
    | .builtin "print" => match args with
      | .string s :: _ => (.ok (.string s), w ++ [s])
      | v :: _ => (.error (codedError "TYPE_MISMATCH" ("print() expected String argument, got " ++ v.typeName)), w)
      | [] => (.error "print() requires an argument at position 0", w)
    | .builtin "env" => (.ok (.string "secret"), w)
    | .builtin "respond" => (.ok (.httpResponse 200 "ok" none []), w)
    | .builtin "fail" => (.error "failed", w)
    | .pattern "note" => (.ok .unit, w ++ args.map Value.display)
    | _ => (.ok (args.headD .unit), w)
  resolve f := match f with
    | "print" | "env" | "respond" | "fail" => some (.builtin f)
    | "id" | "note" => some (.pattern f)
    | _ => none
  resolveQualified _ _ := .error "no qualified call"
  arity _ := 1
  globals x := if x = "g" then some (.float 7) else none
  reflexNames _ := none
  memorize s _ w := w ++ [s]
  forget _ _ w := w
  relate _ _ _ w := w
  sandbox := false
  iterLimit := 10000

def classes : Classification := ⟨(· = "env"), (· = "env"), (· = "print")⟩

def tables : Tables where
  builtinIdx f := match f with
    | "print" => some 0
    | "env" => some 1
    | "respond" => some 2
    | "fail" => some 3
    | _ => none
  patternIdx f := match f with
    | "id" => some 0
    | "note" => some 1
    | _ => none
  learnableIdx _ := none
  globalSlot x := if x = "g" then some 0 else none
  denyHandler _ := none
  isTool _ := false
  parked _ := none
  classes := classes

/-- The limits are the source's: depth 512, 100 000 instructions per instruction of code. -/
def setup : Setup Int (List String) where
  walk := walk
  tables := tables
  names := ⟨["print", "env", "respond", "fail"], ["g"], fun _ => none, classes⟩
  program := ⟨[⟨"id", 1, [.loadLocal 0]⟩, ⟨"note", 1, [.loadLocal 0, .memorize 1, .pushUnit]⟩], [], false⟩
  host :=
    { memorize := walk.memorize, forget := walk.forget, relate := walk.relate,
      recallText := fun _ _ => "", maybeCollapse := fun v _ => v,
      builtin := fun f args vm => walk.call (.builtin f) args vm.world,
      callLlm := fun _ _ vm => (.ok .unit, vm.world), recordDeny := fun _ _ _ w => w }
  learnables := []
  callLabels _ _ _ le := le
  maxDepth := 512

/-- An idle machine: nothing but the global. -/
def idle : Fixed Int := ⟨[], [], [.float 7], 0, none, rfl⟩

theorem linked : Linked setup idle.globals where
  builtin {f i} h := by
    simp only [setup, tables] at h
    split at h <;> simp_all [setup]
    all_goals subst h; rfl
  pattern {f i} h := by
    simp only [setup, tables] at h
    split at h <;> cases h <;> exact ⟨_, rfl, rfl, rfl⟩
  learnable h := by simp [setup, tables] at h
  globalSlot {x i} h := by
    simp only [setup, tables] at h
    split_ifs at h with hx
    obtain rfl : 0 = i := by simpa using h
    exact ⟨.float 7, rfl, by simp [setup, walk, hx]⟩
  globalByName {x} h := by
    simp only [setup, tables] at h
    split_ifs at h with hx
    simp [lookupGlobalByName, setup, walk, hx]
  memorize := rfl
  forget := rfl
  relate := rfl
  classes := rfl

theorem runs {d k : Nat} (hk : k ≤ d) (hd : k ≤ 511) : Runs setup idle.deeper d k :=
  ⟨linked, by simp only [Fixed.deeper, idle, setup]; omega, hk⟩

def code (body : List (Stmt Int)) (params : List String) : List (Instr Int) :=
  (compilePatternBody tables params body).toOption.getD []

/-- The machine on a compiled body, with the source's limits. -/
def exec (body : List (Stmt Int)) (params : List String) (args : List (Value Int)) :
    Except String (Value Int) × List String :=
  let (r, m) := setup.executeCode 100000 512 (code body params) (idle.mach args [] (fun _ => none) [])
  (r, m.vm.world)

/-- The tree-walker's run of the statements of a body. -/
def run (body : List (Stmt Int)) (params : List String) (args : List (Value Int)) :
    Except String (Outcome Int) × List String × List (Event Int) :=
  evalStmts walk body .unit (bindParams params args) [] []

/-- The tree-walker's answer. -/
def eval (body : List (Stmt Int)) (params : List String) (args : List (Value Int)) :
    Except String (Value Int) × List String :=
  let (r, w, _) := evalStatements walk body (bindParams params args) []
  (r, w)

end Sample

end Metalogos.Refine
