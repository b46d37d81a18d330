import Metalogos.Pool.Vm

/-!
# Requests on pooled machines

`VmPool` (`src/vm_pool.rs:137-178`) hands machines out and takes them back, `execute_route_body_vm`
(`metalogos-server/src/server.rs:3036-3110`) serves a request on one: it puts the request's context in, runs
the route's code (`src/vm.rs:4615-4631`) and gives the machine back. The code runs on the machine of
`Metalogos.Machine`; its world is the stores of the `Vm` and the rest of the process.

`reuse_invisible`: a server that keeps machines answers every request, in every order of arrivals and
executions, as one that makes a new machine for each.
-/
namespace Metalogos.Pool

open Metalogos.Lang Metalogos.Lib Metalogos.Machine

variable {T : Parts} {F W : Type} [FloatModel F]

/-! ## One request -/

/-- What a route runs on: the builtins, their classification, and the limits. -/
structure Executor (T : Parts) (F W : Type) where
  builtinNames : List String
  classes : Classification
  host : Host F (Stores T F × W)
  limits : Limits

/-- A request, as far as it reaches a machine: the compiled body of its route and its context. -/
structure Request (T : Parts) (F : Type) where
  code : List (Instr F)
  jsonBody : Option (Value F)
  queryParams : Dict String String
  pathParams : Dict String String
  headers : Dict String String
  userRoles : List String
  distillHub : Option T.DistillHub

/-- mirrors metalogos-server/src/server.rs:3055-3095 -/
def inject (r : Request T F) (vm : Vm T F) : Vm T F :=
  let vm := { clearServerContext vm with distillHub := r.distillHub }
  let vm := if r.jsonBody.isSome then { vm with serverJsonBody := r.jsonBody } else vm
  let vm :=
    if r.queryParams.pairs.isEmpty then vm else { vm with serverQueryParams := some r.queryParams }
  let vm := if r.pathParams.pairs.isEmpty then vm else { vm with serverPathParams := some r.pathParams }
  let vm := { vm with serverRequestHeaders := some r.headers }
  if r.userRoles.isEmpty then vm else { vm with serverUserRoles := r.userRoles }

/-- The machine of a route: an empty stack, and no frame. -/
def routeMach (vm : Vm T F) (w : W) : Mach F (Stores T F × W) where
  stack := []
  callStack := []
  vm :=
    { registers := vm.valueRegisters, labelEnv := vm.labelEnv, globals := vm.globals
      callDepth := vm.callDepth, denyEvent := vm.currentDenyEvent, world := (vm.toStores, w) }

/-- What the dispatch loop leaves of a machine. -/
def leave (vm : Vm T F) (m : Machine.Vm F (Stores T F × W)) : Vm T F :=
  { vm with
    toStores := m.world.1, valueRegisters := m.registers, labelEnv := m.labelEnv, globals := m.globals
    callDepth := m.callDepth, currentDenyEvent := m.denyEvent }

/-- mirrors src/vm.rs:4615-4631 -/
def executeRouteCode (E : Executor T F W) (code : List (Instr F)) (vm : Vm T F) (w : W) :
    Except String (Value F) × Vm T F × W :=
  let vm := { vm with callDepth := 0 }
  let names : Names :=
    { builtinNames := E.builtinNames, globalNames := vm.globalNames, reflexNames := vm.reflexNames.get
      classes := E.classes }
  let tables : Machine.Program F :=
    { patterns := vm.patterns.map fun f => ⟨f.name, f.paramCount, f.code⟩
      denyHandlers := vm.denyHandlers.map fun d => (d.cls, d.code)
      collectionsLoaded := vm.collectionsLoaded }
  let r := executeCode names E.host.toHostOps (realCalls names tables E.host) E.limits
    (E.limits.maxDepth + 1) code (routeMach vm w)
  (r.1, leave vm r.2.vm, r.2.vm.world.2)

/-! ## The pool -/

structure Server (T : Parts) (F W : Type) where
  runtime : Runtime T
  program : Program T F
  executor : Executor T F W
  /-- a connection closes when its machine is reset or dropped -/
  close : T.Connection → W → W
  /-- the machines the pool keeps at most; with none it makes a new one for each request -/
  maxIdle : Nat

/-- mirrors src/vm_pool.rs:137-156 -/
def checkout (S : Server T F W) : List (Vm T F) → Except String (Vm T F × List (Vm T F))
  | vm :: idle => .ok (vm, idle)
  | [] =>
    match loadProgram S.runtime S.program (Vm.new S.runtime) with
    | .ok vm => .ok (vm, [])
    | .error e => .error ("VM pool cold init: " ++ e)

def closeDb (S : Server T F W) (vm : Vm T F) (w : W) : W :=
  match vm.dbConn with
  | some c => S.close c w
  | none => w

/-- mirrors src/vm_pool.rs:162-178 -/
def checkin (S : Server T F W) (vm : Vm T F) (execOk : Bool) (idle : List (Vm T F)) : List (Vm T F) :=
  if execOk then
    match resetForReuse S.runtime S.program vm with
    | .error _ => idle
    | .ok vm => if S.maxIdle ≤ idle.length then idle else vm :: idle
  else idle

/-- An answer, and the machine as the request left it. -/
structure Answer (T : Parts) (F : Type) where
  id : Nat
  result : Except String (Value F)
  auditEntries : List String
  left : Option (Vm T F)

/-- What is served: the idle machines, those a request has, the process, and the answers so far. -/
structure State (T : Parts) (F W : Type) where
  idle : List (Vm T F)
  flights : Dict Nat (Request T F × Vm T F)
  world : W
  answers : List (Answer T F)

/-- Requests come and are executed in any order; between them the rest of the process goes on. -/
inductive Event (T : Parts) (F W : Type) where
  | arrive (id : Nat) (r : Request T F)
  | execute (id : Nat)
  | outside (f : W → W)

/-- A request gets its machine, or the error of a machine that could not be made. -/
def receive (id : Nat) (r : Request T F) (s : State T F W) :
    Except String (Vm T F × List (Vm T F)) → State T F W
  | .error e => { s with answers := s.answers ++ [⟨id, .error e, [], none⟩] }
  | .ok (vm, idle) => { s with idle := idle, flights := s.flights.set id (r, inject r vm) }

/-- A request is done: the audit entries are taken, the machine is given back, the answer goes out. -/
def settle (S : Server T F W) (id : Nat) (s : State T F W)
    (out : Except String (Value F) × Vm T F × W) : State T F W where
  idle := checkin S { out.2.1 with auditLog := [] } out.1.isOk s.idle
  flights := s.flights.erase id
  world := closeDb S out.2.1 out.2.2
  answers := s.answers ++ [⟨id, out.1, out.2.1.auditLog, some out.2.1⟩]

/-- mirrors metalogos-server/src/server.rs:3097-3108 -/
def execute (S : Server T F W) (id : Nat) (s : State T F W) : State T F W :=
  match s.flights.get id with
  | none => s
  | some (r, vm) => settle S id s (executeRouteCode S.executor r.code vm s.world)

def step (S : Server T F W) (s : State T F W) : Event T F W → State T F W
  | .arrive id r => receive id r s (checkout S s.idle)
  | .execute id => execute S id s
  | .outside f => { s with world := f s.world }

def start (w : W) : State T F W := ⟨[], .empty, w, []⟩

def run (S : Server T F W) (events : List (Event T F W)) (w : W) : State T F W :=
  events.foldl (step S) (start w)

/-! ## The call depth is not seen -/

omit [FloatModel F] in
theorem inject_atDepth (r : Request T F) (vm : Vm T F) (d : Nat) :
    inject r (vm.atDepth d) = (inject r vm).atDepth d := by
  unfold inject
  cases r.jsonBody.isSome <;> cases r.queryParams.pairs.isEmpty <;> cases r.pathParams.pairs.isEmpty <;>
    cases r.userRoles.isEmpty <;> rfl

theorem executeRouteCode_atDepth (E : Executor T F W) (code : List (Instr F)) (vm : Vm T F) (d : Nat)
    (w : W) : executeRouteCode E code (vm.atDepth d) w = executeRouteCode E code vm w := rfl

/-- A request on a machine that was reset is served as on a new one. -/
theorem reset_serves (S : Server T F W) (vm : Vm T F) (r : Request T F) (w : W) :
    (resetForReuse S.runtime S.program vm).map
        (fun vm => executeRouteCode S.executor r.code (inject r vm) w) =
      (loadProgram S.runtime S.program (Vm.new S.runtime)).map
        (fun vm => executeRouteCode S.executor r.code (inject r vm) w) := by
  rw [reset_fresh]
  cases loadProgram S.runtime S.program (Vm.new S.runtime) with
  | error e => rfl
  | ok fresh =>
    show Except.ok (executeRouteCode S.executor r.code (inject r (fresh.atDepth vm.callDepth)) w) = _
    rw [inject_atDepth, executeRouteCode_atDepth]
    rfl

/-! ## Kept machines and new ones -/

/-- A machine in flight, its call depth apart. -/
def level (f : Request T F × Vm T F) : Request T F × Vm T F := (f.1, f.2.atDepth 0)

/-- A machine the pool may keep: a loaded one at some call depth. -/
def Rested (S : Server T F W) (vm : Vm T F) : Prop :=
  ∃ fresh d, loadProgram S.runtime S.program (Vm.new S.runtime) = .ok fresh ∧ vm = fresh.atDepth d

/-- A server that keeps machines beside one that keeps none. -/
structure Alongside (S : Server T F W) (s t : State T F W) : Prop where
  rested : ∀ vm ∈ s.idle, Rested S vm
  none : t.idle = []
  flights : ∀ id, (s.flights.get id).map level = (t.flights.get id).map level
  world : s.world = t.world
  answers : s.answers = t.answers

theorem checkin_rested {S : Server T F W} {idle : List (Vm T F)} (h : ∀ vm ∈ idle, Rested S vm)
    (vm : Vm T F) (ok : Bool) : ∀ v ∈ checkin S vm ok idle, Rested S v := by
  unfold checkin
  split
  · split
    · exact h
    · rename_i reset hreset
      split
      · exact h
      · intro v hv
        rcases List.mem_cons.1 hv with rfl | hv
        · rw [reset_fresh] at hreset
          cases hload : loadProgram S.runtime S.program (Vm.new S.runtime) with
          | error e => simp [hload, Except.map] at hreset
          | ok fresh =>
            rw [hload] at hreset
            exact ⟨fresh, vm.callDepth, hload, (Except.ok.inj hreset).symm⟩
        · exact h v hv
  · exact h

/-- A server that keeps none gives none back. -/
theorem checkin_none {S : Server T F W} (hS : S.maxIdle = 0) (vm : Vm T F) (ok : Bool) :
    checkin S vm ok [] = [] := by
  unfold checkin
  split
  · split
    · rfl
    · rw [if_pos (by rw [hS]; exact Nat.zero_le _)]
  · rfl

/-- The same server without a pool. -/
def unpooled (S : Server T F W) : Server T F W := { S with maxIdle := 0 }

section Alongside

variable {S : Server T F W} {s t : State T F W}

theorem receive_error (h : Alongside S s t) (id : Nat) (r : Request T F) (e : String) :
    Alongside S (receive id r s (.error e)) (receive id r t (.error e)) :=
  ⟨h.rested, h.none, h.flights, h.world, congrArg (· ++ _) h.answers⟩

theorem receive_ok (h : Alongside S s t) (id : Nat) (r : Request T F) {vm vm' : Vm T F}
    {idle : List (Vm T F)} (hidle : ∀ v ∈ idle, Rested S v) (hvm : vm.atDepth 0 = vm'.atDepth 0) :
    Alongside S (receive id r s (.ok (vm, idle))) (receive id r t (.ok (vm', []))) := by
  refine ⟨hidle, rfl, fun i => ?_, h.world, h.answers⟩
  show ((s.flights.set id (r, inject r vm)).get i).map level =
    ((t.flights.set id (r, inject r vm')).get i).map level
  rw [Dict.get_set, Dict.get_set]
  split
  · show some (r, (inject r vm).atDepth 0) = some (r, (inject r vm').atDepth 0)
    rw [← inject_atDepth, ← inject_atDepth, hvm]
  · exact h.flights i

/-- A machine from the pool, or a new one, beside a new one. -/
theorem arrive_alongside (h : Alongside S s t) (id : Nat) (r : Request T F) :
    Alongside S (receive id r s (checkout S s.idle)) (receive id r t (checkout (unpooled S) t.idle)) := by
  rw [h.none]
  cases hidle : s.idle with
  | nil =>
    rw [checkout, checkout, unpooled]
    cases loadProgram S.runtime S.program (Vm.new S.runtime) with
    | error e => exact receive_error h id r _
    | ok fresh => exact receive_ok h id r (List.forall_mem_nil _) rfl
  | cons vm idle =>
    have hrested : ∀ v ∈ vm :: idle, Rested S v := hidle ▸ h.rested
    obtain ⟨fresh, d, hload, rfl⟩ := hrested vm List.mem_cons_self
    rw [checkout, checkout, unpooled, hload]
    exact receive_ok h id r (fun v hv => hrested v (List.mem_cons_of_mem _ hv)) rfl

theorem settle_alongside (h : Alongside S s t) (id : Nat)
    (out : Except String (Value F) × Vm T F × W) :
    Alongside S (settle S id s out) (settle (unpooled S) id t out) := by
  refine ⟨checkin_rested h.rested _ _, ?_, fun i => ?_, rfl, congrArg (· ++ _) h.answers⟩
  · show checkin (unpooled S) _ _ t.idle = []
    rw [h.none]
    exact checkin_none rfl _ _
  · show ((s.flights.erase id).get i).map level = ((t.flights.erase id).get i).map level
    rw [Dict.get_erase, Dict.get_erase]
    split
    · rfl
    · exact h.flights i

/-- The same code runs on the same machine in the same process. -/
theorem execute_alongside (h : Alongside S s t) (id : Nat) :
    Alongside S (execute S id s) (execute (unpooled S) id t) := by
  have hid := h.flights id
  rw [execute, execute]
  cases hs : s.flights.get id with
  | none =>
    rw [hs] at hid
    cases ht : t.flights.get id with
    | none => exact h
    | some g => simp [ht] at hid
  | some f =>
    rw [hs] at hid
    cases ht : t.flights.get id with
    | none => simp [ht] at hid
    | some g =>
      rw [ht] at hid
      obtain ⟨r, vm⟩ := f
      obtain ⟨r', vm'⟩ := g
      obtain ⟨rfl, hvm⟩ : r = r' ∧ vm.atDepth 0 = vm'.atDepth 0 := by
        simpa [level] using hid
      have hexec : executeRouteCode S.executor r.code vm s.world =
          executeRouteCode S.executor r.code vm' t.world := by
        rw [← executeRouteCode_atDepth _ _ vm 0, hvm, executeRouteCode_atDepth, h.world]
      show Alongside S (settle S id s (executeRouteCode S.executor r.code vm s.world))
        (settle (unpooled S) id t (executeRouteCode S.executor r.code vm' t.world))
      rw [hexec]
      exact settle_alongside h id _

theorem step_alongside (h : Alongside S s t) (e : Event T F W) :
    Alongside S (step S s e) (step (unpooled S) t e) := by
  cases e with
  | arrive id r => exact arrive_alongside h id r
  | execute id => exact execute_alongside h id
  | outside f => exact ⟨h.rested, h.none, h.flights, congrArg f h.world, h.answers⟩

end Alongside

theorem run_alongside (S : Server T F W) (events : List (Event T F W)) (w : W) :
    Alongside S (run S events w) (run (unpooled S) events w) := by
  have hfold : ∀ (events : List (Event T F W)) (s t : State T F W), Alongside S s t →
      Alongside S (events.foldl (step S) s) (events.foldl (step (unpooled S)) t) := by
    intro events
    induction events with
    | nil => exact fun s t h => h
    | cons e events ih => exact fun s t h => ih _ _ (step_alongside h e)
  exact hfold events _ _ ⟨List.forall_mem_nil _, rfl, fun _ => rfl, rfl, rfl⟩

/-- Whatever a machine was used for, a request on it behind a reset ends as on a new machine: with the
same answer, the same stores and variables, and the same process. And a server answers any run of
requests the same with kept machines and with new ones. -/
theorem reuse_invisible (S : Server T F W) :
    (∀ (vm : Vm T F) (r : Request T F) (w : W),
      (resetForReuse S.runtime S.program vm).map
          (fun vm => executeRouteCode S.executor r.code (inject r vm) w) =
        (loadProgram S.runtime S.program (Vm.new S.runtime)).map
          (fun vm => executeRouteCode S.executor r.code (inject r vm) w)) ∧
    ∀ (events : List (Event T F W)) (w : W),
      (run S events w).answers = (run (unpooled S) events w).answers ∧
      (run S events w).world = (run (unpooled S) events w).world :=
  ⟨reset_serves S, fun events w =>
    ⟨(run_alongside S events w).answers, (run_alongside S events w).world⟩⟩

end Metalogos.Pool
