import Metalogos.Lang.Operators
import Metalogos.Machine.Bytecode
import Metalogos.Lib.Dict
import Metalogos.Lib.Text

/-!
# `mutate`: new examples for a learnable, kept or rolled back

Both backends put the new examples in place, measure the learnable on the golden tasks whose inputs are not among
them, and put the old examples back when the rollback condition holds (`src/interpreter/hooks.rs:114-299`,
`src/vm.rs:1707-1745`, `:4390-4509`, `src/interpreter/learnable.rs:1397-1662`). `judge` is what the two have in common
behind the battery: the measurement, the metric of the gate and the decision. What the metrics compute, the answers of
the LLM and the evaluation of the examples are left open.

The gate itself can fail, on a metric without a name in the registry or without a single held-out task, and then
nobody puts the old examples back: `mutate_all_or_nothing`, `refused_stays`.
-/
namespace Metalogos.Learn

open Metalogos.Lang Metalogos.Lib FloatModel

/-- An input and its answer. -/
abbrev Example := String × String

/-! ## The battery -/

/-- mirrors src/interpreter/learnable.rs:1454 -/
def minBatteryTasks : Nat := 20

/-- mirrors src/interpreter/learnable.rs:1458-1467 -/
def batteryHash (input : String) : UInt64 :=
  input.toUTF8.toList.foldl (fun h b => (h ^^^ b.toUInt64) * 0x100000001b3) 0x9E3779B97F4A7C15

/-- The first example of each input. -/
def firstOf (seen : List String) : List Example → List Example
  | [] => []
  | t :: ts => if t.1 ∈ seen then firstOf seen ts else t :: firstOf (t.1 :: seen) ts

/-- The held-out tasks, in the order they are measured. -/
def heldTasks (battery : List Example) (build : List String) : List Example :=
  firstOf [] ((battery.filter fun t => t.1 ∉ build).mergeSort fun a b => batteryHash a.1 ≤ batteryHash b.1)

theorem firstOf_eq_nil {ts : List Example} : firstOf [] ts = [] ↔ ts = [] := by
  cases ts <;> simp [firstOf]

/-- Nothing is held out if and only if the new examples cover the battery. -/
theorem heldTasks_eq_nil {battery : List Example} {build : List String} :
    heldTasks battery build = [] ↔ ∀ t ∈ battery, t.1 ∈ build := by
  have hlen : heldTasks battery build = [] ↔ battery.filter (fun t => t.1 ∉ build) = [] := by
    unfold heldTasks
    rw [firstOf_eq_nil, ← List.length_eq_zero_iff, List.length_mergeSort, List.length_eq_zero_iff]
  rw [hlen, List.filter_eq_nil_iff]
  simp

structure BatteryReport (F : Type) where
  accuracy : F
  batterySize : Nat
  heldOut : Nat
  correct : Nat
  belowMinimum : Bool
  heldPairs : List (String × Option String)

def trimText (s : String) : String := String.ofList (trim s.toList)

variable {F W : Type}

/-- An answer that fails is none. -/
def answerAll (answer : String → W → Except String String × W) :
    List Example → W → List (String × Option String) × W
  | [], w => ([], w)
  | t :: ts, w =>
    let (a, w1) := answer t.1 w
    let (rest, w2) := answerAll answer ts w1
    ((t.2, a.toOption) :: rest, w2)

variable [FloatModel F]

/-- mirrors src/interpreter/learnable.rs:1490-1532 -/
def measureBatteryAccuracy (battery : List Example) (build : List String)
    (answer : String → W → Except String String × W) (w : W) : BatteryReport F × W :=
  let held := heldTasks battery build
  let (pairs, w') := answerAll answer held w
  let correct := pairs.countP fun p => p.2.any fun actual => trimText actual = trimText p.1
  let accuracy := if 0 < held.length then div (ofNat correct) (ofNat held.length) else zero F
  (⟨accuracy, battery.length, held.length, correct, battery.length < minBatteryTasks, pairs⟩, w')

/-! ## The gate -/

/-- mirrors src/nn/metric.rs:13-16 -/
structure MetricSpec (F : Type) where
  name : String
  compute : (predictions : List (List F)) → (targets : List Nat) → F

def noAnswer : String := "<no-answer>"

def pushLabel (labels : List String) (l : String) : List String := if l ∈ labels then labels else labels ++ [l]

/-- The sorted distinct labels of truths and answers, with one for what stayed unanswered. -/
def labelSpace (pairs : List (String × Option String)) : List String :=
  let seen := pairs.foldl (fun ls p =>
    let ls := pushLabel ls (trimText p.1)
    match p.2 with
    | some a => pushLabel ls (trimText a)
    | none => ls) []
  (if pairs.any (·.2.isNone) then pushLabel seen noAnswer else seen).mergeSort (· ≤ ·)

/-- The most frequent class, the smallest of several. -/
def majorityClass (classes : Nat) (truth : List Nat) : Nat :=
  ((List.range classes).foldl (fun (best : Nat × Nat) i =>
    if best.1 < truth.count i then (truth.count i, i) else best) (0, 0)).2

/-- The metric's value and that of the majority baseline.
mirrors src/interpreter/learnable.rs:1549-1626 -/
def gateMetricValue (registry : List (MetricSpec F)) (report : BatteryReport F) (metric : String) :
    Except String (F × F) :=
  match registry.find? (·.name = metric) with
  | none => .error ("mutate: unknown metric '" ++ metric ++ "'. Registered metrics: "
      ++ ", ".intercalate (registry.map (·.name)))
  | some spec =>
    if report.heldOut = 0 then
      .error ("mutate: rollback gate '" ++ metric
        ++ "' has no majority baseline — no held-out evidence (battery " ++ toString report.batterySize
        ++ " tasks, all covered by the mutation's own inputs); a gating metric without a baseline is refused, not kept")
    else
      let labels := labelSpace report.heldPairs
      let classOf (l : String) : Nat := (labels.findIdx? (· = l)).getD 0
      let truth := report.heldPairs.map fun p => classOf (trimText p.1)
      let pred := report.heldPairs.map fun p => classOf ((p.2.map trimText).getD noAnswer)
      let oneHot (c : Nat) : List F := (List.replicate labels.length (zero F)).set c (one F)
      let majority := majorityClass labels.length truth
      .ok (spec.compute (pred.map oneHot) truth, spec.compute (truth.map fun _ => oneHot majority) truth)

/-- The `rollback_if` clause. -/
structure Gate (F : Type) where
  threshold : Option F
  op : Option CompareOp
  metric : Option String

namespace Gate

def metricName (g : Gate F) : String := g.metric.getD "accuracy"

def gated (g : Gate F) : Bool := g.op.isSome && g.threshold.isSome

/-- `1e-9` -/
def epsilon (F : Type) [FloatModel F] : F := div (ofNat 1) (ofNat 1000000000)

def distance (x y : F) : F := if flt (sub x y) (zero F) then sub (zero F) (sub x y) else sub x y

/-- Kept unless the condition holds of the value.
mirrors src/interpreter/hooks.rs:240-259, src/vm.rs:4477-4490 -/
def kept (g : Gate F) (value : F) : Bool :=
  match g.op, g.threshold with
  | some .lt, some t => fle t value
  | some .le, some t => flt t value
  | some .gt, some t => fle value t
  | some .ge, some t => flt value t
  | some .eq, some t => fle (epsilon F) (distance value t)
  | some .ne, some t => flt (distance value t) (epsilon F)
  | _, _ => true

end Gate

structure Verdict where
  kept : Bool
  message : String

/-- What both backends take from outside: whether the LLM is mocked, the metrics, fixed decimals. -/
structure Setting (F : Type) where
  mock : Bool
  registry : List (MetricSpec F)
  printFixed : Nat → F → String

/-- mirrors src/interpreter/learnable.rs:1639-1662 -/
def mutateGateMessage (S : Setting F) (pattern metric : String) (value : F) (kept : Bool) (threshold : F)
    (baseline : Option F) (note : String) : String :=
  let verdict := if kept then "kept (>= " ++ S.printFixed 1 threshold ++ ")"
    else "rolled back (below " ++ S.printFixed 1 threshold ++ ")"
  let segment := (baseline.map fun b => " (majority baseline " ++ metric ++ "=" ++ S.printFixed 3 b ++ ")").getD ""
  "[MUTATE] " ++ pattern ++ ": " ++ metric ++ "=" ++ print value ++ ", " ++ verdict ++ segment ++ note

def batteryNote (report : BatteryReport F) : String :=
  " (battery: " ++ toString report.batterySize ++ " tasks, held-out " ++ toString report.heldOut ++ ", correct "
    ++ toString report.correct ++ (if report.belowMinimum then ", BELOW MINIMUM 20" else "") ++ ")"

/-- The value the gate reads, the baseline and the note. In mock mode the accuracy is 0.95. -/
def measured (S : Setting F) (g : Gate F) (battery : List Example) (build : List String)
    (answer : String → W → Except String String × W) (w : W) : Except String (F × Option F × String) × W :=
  if S.mock then (.ok (div (ofNat 95) (ofNat 100), none, ""), w)
  else
    let (report, w') := measureBatteryAccuracy battery build answer w
    if g.gated then
      ((gateMetricValue S.registry report g.metricName).map fun v => (v.1, some v.2, batteryNote report), w')
    else (.ok (report.accuracy, none, batteryNote report), w')

/-- mirrors src/interpreter/hooks.rs:158-273, src/vm.rs:4414-4501 -/
def judge (S : Setting F) (g : Gate F) (pattern : String) (battery : List Example) (build : List String)
    (answer : String → W → Except String String × W) (w : W) : Except String (Verdict × F) × W :=
  match measured S g battery build answer w with
  | (.error e, w') => (.error e, w')
  | (.ok (value, baseline, note), w') =>
    let kept := g.kept value
    (.ok (⟨kept, mutateGateMessage S pattern g.metricName value kept (g.threshold.getD (zero F)) baseline note⟩,
      value), w')

/-- The gate has no value to read. -/
def Gate.Fails (S : Setting F) (g : Gate F) (battery : List Example) (build : List String) : Prop :=
  S.mock = false ∧ g.gated = true ∧
    (S.registry.find? (·.name = g.metricName) = none ∨ ∀ t ∈ battery, t.1 ∈ build)

theorem gateMetricValue_fails {registry : List (MetricSpec F)} {report : BatteryReport F} {metric : String} :
    (∃ e, gateMetricValue registry report metric = .error e) ↔
      registry.find? (·.name = metric) = none ∨ report.heldOut = 0 := by
  unfold gateMetricValue
  cases hfind : registry.find? (·.name = metric) with
  | none => simp
  | some spec =>
    dsimp only
    split_ifs with hheld <;> simp [hheld]

omit [FloatModel F] in
theorem heldOut_eq_zero {battery : List Example} {build : List String} :
    (heldTasks battery build).length = 0 ↔ ∀ t ∈ battery, t.1 ∈ build := by
  rw [List.length_eq_zero_iff, heldTasks_eq_nil]

theorem judge_fails (S : Setting F) (g : Gate F) (pattern : String) (battery : List Example) (build : List String)
    (answer : String → W → Except String String × W) (w : W) :
    (∃ e, (judge S g pattern battery build answer w).1 = .error e) ↔ g.Fails S battery build := by
  have hjudge : (∃ e, (judge S g pattern battery build answer w).1 = .error e) ↔
      ∃ e, (measured S g battery build answer w).1 = .error e := by
    unfold judge
    split <;> rename_i hm <;> simp [hm]
  rw [hjudge]
  unfold measured Gate.Fails
  cases hmock : S.mock with
  | true => simp
  | false =>
    simp only [Bool.false_eq_true, if_false, true_and]
    cases hgated : g.gated with
    | false => simp
    | true =>
      simp only [if_true, true_and]
      have hvalue : (∃ e, gateMetricValue S.registry (measureBatteryAccuracy battery build answer w).1 g.metricName =
          .error e) ↔ S.registry.find? (·.name = g.metricName) = none ∨ (heldTasks battery build).length = 0 :=
        gateMetricValue_fails
      rw [← heldOut_eq_zero]
      rw [← hvalue]
      cases gateMetricValue S.registry (measureBatteryAccuracy battery build answer w).1 g.metricName <;>
        simp [Except.map]

/-! ## The tree-walker -/

/-- mirrors src/ast.rs:1036-1045 -/
structure MutateDecl (E F : Type) where
  patternName : String
  newExamples : List (E × E)
  gate : Gate F

structure Interp (W : Type) where
  learnables : Dict String (List Example)
  evalBlocks : List (String × List Example)
  audit : List String
  world : W

/-- Expressions, and the LLM on the prompt that a learnable's examples are part of. -/
structure Walker (E F W : Type) where
  evalExpr : E → W → Except String (Value F) × W
  call : (pattern : String) → (fewShot : List Example) → (input : String) → W → Except String String × W

def exampleText (v : Value F) : String :=
  match v with
  | .string s => s
  | other => other.display

/-- mirrors src/interpreter/hooks.rs:116-128 -/
def evalExamples {E : Type} (evalExpr : E → W → Except String (Value F) × W) :
    List (E × E) → W → Except String (List Example) × W
  | [], w => (.ok [], w)
  | (input, output) :: es, w =>
    match evalExpr input w with
    | (.error e, w) => (.error e, w)
    | (.ok i, w) =>
      match evalExpr output w with
      | (.error e, w) => (.error e, w)
      | (.ok o, w) =>
        match evalExamples evalExpr es w with
        | (.error e, w) => (.error e, w)
        | (.ok rest, w) => (.ok ((exampleText i, exampleText o) :: rest), w)

/-- mirrors src/interpreter/learnable.rs:1397-1423 -/
def callLlmForBattery {E : Type} (T : Walker E F W) (learnables : Dict String (List Example)) (pattern input : String)
    (w : W) : Except String String × W :=
  match learnables.get pattern with
  | none => (.error ("battery: learnable pattern '" ++ pattern ++ "' not found"), w)
  | some fewShot => T.call pattern fewShot input w

/-- The datasets of the learnable's eval blocks and its examples so far.
mirrors src/interpreter/hooks.rs:174-190 -/
def goldenTasks (evalBlocks : List (String × List Example)) (pattern : String) (original : List Example) :
    List Example :=
  firstOf [] ((evalBlocks.filter fun b => b.1 = pattern).flatMap (·.2) ++ original)

def auditLine (g : Gate F) (pattern : String) (examples : Nat) (value : F) (kept : Bool) : String :=
  "[AUDIT] mutate " ++ pattern ++ ": " ++ toString examples ++ " examples, " ++ g.metricName ++ "=" ++ print value
    ++ if kept then "" else " (rolled back)"

/-- mirrors src/interpreter/hooks.rs:114-299 -/
def handleMutate {E : Type} (S : Setting F) (T : Walker E F W) (m : MutateDecl E F) (s : Interp W) :
    Except String Verdict × Interp W :=
  match evalExamples T.evalExpr m.newExamples s.world with
  | (.error e, w) => (.error e, { s with world := w })
  | (.ok new, w) =>
    match s.learnables.get m.patternName with
    | none => (.error ("mutate: learnable pattern '" ++ m.patternName ++ "' not found"), { s with world := w })
    | some original =>
      let installed := s.learnables.modify m.patternName fun _ => new
      match judge S m.gate m.patternName (goldenTasks s.evalBlocks m.patternName original) (new.map (·.1))
        (callLlmForBattery T installed m.patternName) w with
      -- the gate failed: the new examples stay
      | (.error e, w) => (.error e, { s with learnables := installed, world := w })
      | (.ok (v, value), w) =>
        let audit := s.audit ++ [auditLine m.gate m.patternName new.length value v.kept]
        if v.kept then (.ok v, { s with learnables := installed, audit := audit, world := w })
        else
          (.ok v, { s with
            learnables := installed.modify m.patternName fun _ => original, audit := audit, world := w })

/-! ## The machine -/

structure VmLearnable where
  name : String
  prompt : String
  fewShot : List Example

structure VmState (W : Type) where
  learnables : List VmLearnable
  world : W

/-- mirrors src/bytecode.rs:407-417 -/
structure MutateData (F : Type) where
  patternName : String
  exampleCount : Nat
  gate : Gate F

/-- The pairs of an instruction, the last one on top of the stack first.
mirrors src/vm.rs:1715-1731 -/
def popExamples : Nat → List (Value F) → Except String (List Example)
  | 0, _ => .ok []
  | _ + 1, [] => .error (Machine.underflowErr "Mutate (output)")
  | _ + 1, [_] => .error (Machine.underflowErr "Mutate (input)")
  | n + 1, output :: input :: stack =>
    (popExamples n stack).map fun rest => (exampleText input, exampleText output) :: rest

/-- `call` is the LLM on a prompt and an input. The stack has its top first.
mirrors src/vm.rs:1707-1745, src/vm.rs:4390-4509 -/
def vmMutate (S : Setting F) (call : (prompt input : String) → W → Except String String × W) (m : MutateData F)
    (stack : List (Value F)) (s : VmState W) : Except String Verdict × VmState W :=
  match popExamples m.exampleCount stack with
  | .error e => (.error e, s)
  | .ok new =>
    match s.learnables.findIdx? (·.name = m.patternName) with
    | none => (.error ("VM mutate: learnable pattern '" ++ m.patternName ++ "' not found"), s)
    | some idx =>
      let original := ((s.learnables[idx]?).map (·.fewShot)).getD []
      let basePrompt := ((s.learnables[idx]?).map (·.prompt)).getD ""
      let put (examples : List Example) (ls : List VmLearnable) : List VmLearnable :=
        ls.modify idx fun l => { l with fewShot := examples }
      match judge S m.gate m.patternName original (new.map (·.1)) (call basePrompt) s.world with
      | (.error e, w) => (.error e, ⟨put new s.learnables, w⟩)
      | (.ok (v, _), w) =>
        if v.kept then (.ok v, ⟨put new s.learnables, w⟩) else (.ok v, ⟨put original (put new s.learnables), w⟩)

/-! ## All or nothing -/

/-- An error or a rollback leaves the examples of all learnables as they were, a kept mutation leaves the new ones. -/
def AllOrNothing {L : Type} (result : Except String Verdict) (before after : L) (installed : List Example → L)
    (new : Except String (List Example)) : Prop :=
  match result with
  | .error _ => after = before
  | .ok v => if v.kept then ∃ examples, new = .ok examples ∧ after = installed examples else after = before

/-- The first learnable of a name with these examples. -/
def install (name : String) (ls : List VmLearnable) (examples : List Example) : List VmLearnable :=
  match ls.findIdx? (·.name = name) with
  | none => ls
  | some idx => ls.modify idx fun l => { l with fewShot := examples }

section Installing

omit [FloatModel F]

theorem get_installed (d : Dict String (List Example)) {p : String} {original : List Example}
    (h : d.get p = some original) (new : List Example) :
    (d.modify p fun _ => new).get = Function.update d.get p (some new) := by
  funext q
  rw [Dict.get_modify, Function.update_apply]
  by_cases hq : q = p
  · rw [if_pos hq, if_pos hq, hq, h, Option.map_some]
  · rw [if_neg hq, if_neg hq]

theorem installed_eq_iff (d : Dict String (List Example)) {p : String} {original : List Example}
    (h : d.get p = some original) (new : List Example) : (d.modify p fun _ => new).get = d.get ↔ new = original := by
  rw [get_installed d h]
  constructor
  · intro heq
    have hp := congrFun heq p
    rw [Function.update_self, h] at hp
    exact Option.some.inj hp
  · rintro rfl
    rw [← h, Function.update_eq_self]

theorem restored (d : Dict String (List Example)) {p : String} {original : List Example}
    (h : d.get p = some original) (new : List Example) :
    ((d.modify p fun _ => new).modify p fun _ => original).get = d.get := by
  have hnew : (d.modify p fun _ => new).get p = some new := by rw [get_installed d h, Function.update_self]
  rw [get_installed _ hnew, get_installed d h, Function.update_idem, ← h, Function.update_eq_self]

theorem modify_eq_iff {ls : List VmLearnable} {idx : Nat} {l : VmLearnable} (h : ls[idx]? = some l)
    (new : List Example) : (ls.modify idx fun l => { l with fewShot := new }) = ls ↔ new = l.fewShot := by
  constructor
  · intro heq
    have hidx : (⟨l.name, l.prompt, new⟩ : VmLearnable) = l := by
      have hget := congrArg (·[idx]?) heq
      simpa only [List.getElem?_modify_eq, h, Option.map_eq_map, Option.map_some, Option.some.injEq] using hget
    exact congrArg VmLearnable.fewShot hidx
  · rintro rfl
    refine List.ext_getElem? fun i => ?_
    rw [List.getElem?_modify]
    split_ifs with hi
    · subst hi
      rw [h]
      rfl
    · simp

theorem modify_back {ls : List VmLearnable} {idx : Nat} {l : VmLearnable} (h : ls[idx]? = some l)
    (new : List Example) : ((ls.modify idx fun l => { l with fewShot := new }).modify idx fun x =>
      { x with fewShot := l.fewShot }) = ls := by
  refine List.ext_getElem? fun i => ?_
  rw [List.getElem?_modify, List.getElem?_modify]
  split_ifs with hi
  · subst hi
    rw [h]
    rfl
  · simp

end Installing

/-- On the tree-walker. -/
theorem handleMutate_iff {E : Type} (S : Setting F) (T : Walker E F W) (m : MutateDecl E F) (s : Interp W) :
    AllOrNothing (handleMutate S T m s).1 s.learnables.get (handleMutate S T m s).2.learnables.get
        (fun new => Function.update s.learnables.get m.patternName (some new))
        (evalExamples T.evalExpr m.newExamples s.world).1 ↔
      ∀ new w original, evalExamples T.evalExpr m.newExamples s.world = (.ok new, w) →
        s.learnables.get m.patternName = some original →
        m.gate.Fails S (goldenTasks s.evalBlocks m.patternName original) (new.map (·.1)) → new = original := by
  unfold handleMutate
  split
  · rename_i e w heval
    rw [heval]
    exact ⟨fun _ new w original h => (by cases h), fun _ => rfl⟩
  · rename_i new w heval
    rw [heval]
    cases hget : s.learnables.get m.patternName with
    | none => exact ⟨fun _ new w original _ h => (by cases h), fun _ => rfl⟩
    | some original =>
      have hfails := judge_fails S m.gate m.patternName (goldenTasks s.evalBlocks m.patternName original)
        (new.map (·.1)) (callLlmForBattery T (s.learnables.modify m.patternName fun _ => new) m.patternName) w
      dsimp only
      split
      · rename_i e w' hjudge
        rw [hjudge] at hfails
        have hfail := hfails.1 ⟨e, rfl⟩
        refine (installed_eq_iff _ hget new).trans ⟨fun heq new' w'' original' heval' horig _ => ?_, fun h => ?_⟩
        · cases heval'
          cases horig
          exact heq
        · exact h new w original rfl rfl hfail
      · rename_i v value w' hjudge
        rw [hjudge] at hfails
        have hok : ¬ m.gate.Fails S (goldenTasks s.evalBlocks m.patternName original) (new.map (·.1)) := by
          intro hfail
          obtain ⟨e, he⟩ := hfails.2 hfail
          cases he
        refine iff_of_true ?_ fun new' w'' original' heval' horig hfail => ?_
        · cases hkept : v.kept with
          | true => simpa [AllOrNothing, hkept] using get_installed _ hget new
          | false => simpa [AllOrNothing, hkept] using restored _ hget new
        · cases heval'
          cases horig
          exact absurd hfail hok

/-- On the machine. -/
theorem vmMutate_iff (S : Setting F) (call : (prompt input : String) → W → Except String String × W)
    (m : MutateData F) (stack : List (Value F)) (s : VmState W) :
    AllOrNothing (vmMutate S call m stack s).1 s.learnables (vmMutate S call m stack s).2.learnables
        (install m.patternName s.learnables) (popExamples m.exampleCount stack) ↔
      ∀ new idx l, popExamples m.exampleCount stack = .ok new →
        s.learnables.findIdx? (·.name = m.patternName) = some idx → s.learnables[idx]? = some l →
        m.gate.Fails S l.fewShot (new.map (·.1)) → new = l.fewShot := by
  unfold vmMutate install
  cases hpop : popExamples m.exampleCount stack with
  | error e => exact ⟨fun _ new idx l h => (by cases h), fun _ => rfl⟩
  | ok new =>
    dsimp only
    cases hfind : s.learnables.findIdx? (·.name = m.patternName) with
    | none => exact ⟨fun _ new idx l _ h => (by cases h), fun _ => rfl⟩
    | some idx =>
      have hlt : idx < s.learnables.length := (List.findIdx?_eq_some_iff_findIdx_eq.1 hfind).1
      have hget : s.learnables[idx]? = some s.learnables[idx] := List.getElem?_eq_getElem hlt
      generalize s.learnables[idx] = l at hget
      have hfails := judge_fails S m.gate m.patternName l.fewShot (new.map (·.1)) (call l.prompt) s.world
      dsimp only
      rw [hget]
      dsimp only [Option.map_some, Option.getD_some]
      split
      · rename_i e w' hjudge
        rw [hjudge] at hfails
        have hfail := hfails.1 ⟨e, rfl⟩
        refine (modify_eq_iff hget new).trans ⟨fun heq new' idx' l' hpop' hidx hl _ => ?_, fun h => ?_⟩
        · cases hpop'
          cases hidx
          cases hget.symm.trans hl
          exact heq
        · exact h new idx l rfl rfl hget hfail
      · rename_i v value w' hjudge
        rw [hjudge] at hfails
        have hok : ¬ m.gate.Fails S l.fewShot (new.map (·.1)) := by
          intro hfail
          obtain ⟨e, he⟩ := hfails.2 hfail
          cases he
        refine iff_of_true ?_ fun new' idx' l' hpop' hidx hl hfail => ?_
        · cases hkept : v.kept with
          | true => simp [AllOrNothing, hkept]
          | false => simpa [AllOrNothing, hkept] using modify_back hget new
        · cases hpop'
          cases hidx
          cases hget.symm.trans hl
          exact absurd hfail hok

/-- On both backends `mutate` is all or nothing if and only if its gate does not fail behind new examples that differ
from the old ones. -/
theorem mutate_all_or_nothing (S : Setting F) :
    (∀ {E : Type} (T : Walker E F W) (m : MutateDecl E F) (s : Interp W),
      AllOrNothing (handleMutate S T m s).1 s.learnables.get (handleMutate S T m s).2.learnables.get
          (fun new => Function.update s.learnables.get m.patternName (some new))
          (evalExamples T.evalExpr m.newExamples s.world).1 ↔
        ∀ new w original, evalExamples T.evalExpr m.newExamples s.world = (.ok new, w) →
          s.learnables.get m.patternName = some original →
          m.gate.Fails S (goldenTasks s.evalBlocks m.patternName original) (new.map (·.1)) → new = original) ∧
    ∀ (call : (prompt input : String) → W → Except String String × W) (m : MutateData F) (stack : List (Value F))
      (s : VmState W),
      AllOrNothing (vmMutate S call m stack s).1 s.learnables (vmMutate S call m stack s).2.learnables
          (install m.patternName s.learnables) (popExamples m.exampleCount stack) ↔
        ∀ new idx l, popExamples m.exampleCount stack = .ok new →
          s.learnables.findIdx? (·.name = m.patternName) = some idx → s.learnables[idx]? = some l →
          m.gate.Fails S l.fewShot (new.map (·.1)) → new = l.fewShot :=
  ⟨fun T m s => handleMutate_iff S T m s, fun call m stack s => vmMutate_iff S call m stack s⟩

namespace Sample

def setting : Setting Int := ⟨false, [⟨"accuracy", fun _ _ => 0⟩], fun _ x => toString x⟩

def gate : Gate Int := ⟨some 1, some .lt, some "accuracy"⟩

def walker : Walker String Int Unit := ⟨fun e w => (.ok (.string e), w), fun _ _ _ w => (.ok "", w)⟩

def interp : Interp Unit := ⟨⟨[("greet", [("hi", "hello")])]⟩, [], [], ()⟩

/-- Another answer to the only task there is. -/
def decl : MutateDecl String Int := ⟨"greet", [("hi", "hey")], gate⟩

end Sample

/-- The gate finds no held-out task, `mutate` ends in its error, and the new examples are in place. -/
theorem refused_stays :
    (¬ ∀ (S : Setting Int) (T : Walker String Int Unit) (m : MutateDecl String Int) (s : Interp Unit),
      AllOrNothing (handleMutate S T m s).1 s.learnables.get (handleMutate S T m s).2.learnables.get
        (fun new => Function.update s.learnables.get m.patternName (some new))
        (evalExamples T.evalExpr m.newExamples s.world).1) ∧
    ¬ ∀ (S : Setting Int) (call : (prompt input : String) → Unit → Except String String × Unit) (m : MutateData Int)
      (stack : List (Value Int)) (s : VmState Unit),
      AllOrNothing (vmMutate S call m stack s).1 s.learnables (vmMutate S call m stack s).2.learnables
        (install m.patternName s.learnables) (popExamples m.exampleCount stack) := by
  have hcovered : ∀ t ∈ [("hi", "hello")], t.1 ∈ [("hi", "hey")].map (·.1) := by decide
  constructor
  · intro h
    have hfails : Sample.gate.Fails Sample.setting (goldenTasks [] "greet" [("hi", "hello")]) ["hi"] :=
      ⟨rfl, rfl, .inr hcovered⟩
    have heq : [("hi", "hey")] = [("hi", "hello")] :=
      (handleMutate_iff Sample.setting Sample.walker Sample.decl Sample.interp).1 (h _ _ _ _)
        [("hi", "hey")] () [("hi", "hello")] rfl rfl hfails
    exact absurd heq (by decide)
  · intro h
    have hfails : Sample.gate.Fails Sample.setting [("hi", "hello")] ["hi"] := ⟨rfl, rfl, .inr hcovered⟩
    have heq : [("hi", "hey")] = [("hi", "hello")] :=
      (vmMutate_iff Sample.setting (fun _ _ w => (.ok "", w)) ⟨"greet", 1, Sample.gate⟩ [.string "hey", .string "hi"]
        ⟨[⟨"greet", "", [("hi", "hello")]⟩], ()⟩).1 (h _ _ _ _ _)
        [("hi", "hey")] 0 ⟨"greet", "", [("hi", "hello")]⟩ rfl rfl rfl hfails
    exact absurd heq (by decide)

end Metalogos.Learn
