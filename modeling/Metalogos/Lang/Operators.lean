import Metalogos.Lang.Value

/-!
# Operators: printing, truth, arithmetic, comparison, indexing

Printing (`Value::Display`), conditions (`as_bool`), truth of `and`/`or` operands
(`is_truthy`), field access and the arm predicates of `match` are shared by the two
backends. Binary operators and index access are not: the tree-walker has one
`eval_binop` (`src/interpreter/execution.rs:3083-3161`), the machine splits it into
`eval_binop` and `eval_cmp` (`src/vm.rs:4952-5022`, `:5089-5142`) and runs `!=` as an
inverted `==` (`src/vm.rs:2334-2349`).

* `vmArith_eq`, `evalCmp_eq`: `+ - * / > < >= <= ==` agree, texts included;
* `vmNe_eq`: `!=` agrees on comparable operands; on the others the machine's text names
  `Eq` where the tree-walker's names `Ne` (`vmNe_text`);
* `vmIndex_of_twIndex`: index access agrees wherever the tree-walker finds an element of a
  list or a field of a struct.
-/
namespace Metalogos.Lang

open FloatModel

variable {F : Type} [FloatModel F]

/-! ## Printing -/

/-- The printed form of a handle; `text` is the projection the store prints for the kinds
whose form is not fixed.
mirrors src/interpreter/values.rs:284-326 -/
def HandleKind.display (k : HandleKind) (id : Nat) (text : String) : String :=
  match k with
  | .subgraph | .media _ | .forecastHandle => text
  | .reflex => "[Reflex#" ++ toString id ++ "]"
  | .bpeVocab => "[BpeVocab#" ++ toString id ++ "]"
  | .vision => "[Vision#" ++ toString id ++ "]"
  | .voice => "[Voice#" ++ toString id ++ "]"
  | .audio => "[Audio#" ++ toString id ++ "]"
  | .video => "[Video#" ++ toString id ++ "]"
  | .llmStream => "[LlmStream#" ++ toString id ++ "]"
  | .seriesHandle => "[Series]"
  | k => "[" ++ k.typeName ++ "]"

/-- The last variant of greatest confidence (`Iterator::max_by`). -/
def bestVariant : List (String × F) → Option (String × F)
  | [] => none
  | v :: vs => some (vs.foldl (fun b x => if flt x.2 b.2 then b else x) v)

mutual
/-- mirrors src/interpreter/values.rs:201-328 -/
def Value.display : Value F → String
  | .string s => s
  | .float f => print f
  | .bool b => toString b
  | .struct t fields =>
    let shown := displayFields fields
    let body := t ++ " \x7b" ++ ", ".intercalate (shown.map fun kv => kv.1 ++ ": " ++ kv.2)
      ++ "\x7d"
    if t = "TryResult" then (shown.lookup "value").getD body else body
  | .list items => "[" ++ ", ".intercalate (displayItems items) ++ "]"
  | .fluid variants => ((bestVariant (displayVariants variants)).map (·.1)).getD "()"
  | .unit => "()"
  | .html s => s
  | .query _ => "[Query]"
  | .secret _ => "[Secret]"
  | .encrypted _ => "[Encrypted]"
  | .hash _ => "[Hash]"
  | .session _ => "[Session]"
  | .httpResponse status .. => "[HttpResponse " ++ toString status ++ "]"
  | .handle k id text => k.display id text

def displayItems : List (Value F) → List String
  | [] => []
  | v :: vs => v.display :: displayItems vs

def displayFields : List (String × Value F) → List (String × String)
  | [] => []
  | (k, v) :: rest => (k, v.display) :: displayFields rest

def displayVariants : List (String × Value F × F) → List (String × F)
  | [] => []
  | (_, v, c) :: rest => (v.display, c) :: displayVariants rest
end

/-! ## Conditions, truth, conversion, fields -/

/-- A condition of `if`, `while` and friends: composites and opaque values refuse.
mirrors src/interpreter/values.rs:436-447 -/
def Value.asBool : Value F → Except String Bool
  | .bool b => .ok b
  | .float f => .ok (!feq f (zero F))
  | .string s => .ok (s ≠ "")
  | .unit => .ok false
  | v => .error (codedError "TYPE_MISMATCH" ("cannot convert " ++ v.typeName ++ " to Bool"))

/-- Truth of an `and`/`or` operand; never refuses.
mirrors src/vm.rs:5226-5275, src/interpreter/execution.rs:3035-3081 -/
def Value.isTruthy : Value F → Bool
  | .string s => s ≠ ""
  | .float f => !feq f (zero F)
  | .bool b => b
  | .list items => !items.isEmpty
  | _ => false

/-- mirrors src/interpreter/values.rs:415-424 -/
def Value.asFloat : Value F → Except String F
  | .float f => .ok f
  | .bool b => .ok (if b then one F else zero F)
  | .string s =>
    match parse s with
    | some f => .ok f
    | none => .error ("cannot convert '" ++ s ++ "' to Float")
  | v => .error ("cannot convert " ++ v.typeName ++ " to Float")

/-- mirrors src/interpreter/values.rs:386-397 -/
def Value.getField (v : Value F) (field : String) : Except String (Value F) :=
  match v with
  | .struct _ fields =>
    match fields.lookup field with
    | some x => .ok x
    | none => .error ("field '" ++ field ++ "' not found on struct")
  | v => .error ("cannot access field '" ++ field ++ "' on non-struct value (" ++ v.typeName ++ ")")

/-! ## Match arms -/

/-- `MatchArm::compare_values`: numeric when both sides convert, else by printed form.
mirrors src/ast.rs:1776-1804 -/
def compareValues (l : Value F) (op : CompareOp) (r : Value F) : Bool :=
  match l.asFloat, r.asFloat with
  | .ok a, .ok b =>
    match op with
    | .gt => flt b a
    | .lt => flt a b
    | .ge => fle b a
    | .le => fle a b
    | .eq => feq a b
    | .ne => !feq a b
  | _, _ =>
    match op with
    | .eq => l.display = r.display
    | .ne => l.display ≠ r.display
    | .gt => decide (r.display < l.display)
    | .lt => decide (l.display < r.display)
    | .ge => !decide (l.display < r.display)
    | .le => !decide (r.display < l.display)

/-! ## Binary operators -/

/-- mirrors src/limits.rs:26 -/
def maxStringLength : Nat := 1000000

/-- The types `+` refuses outright.
mirrors src/vm.rs:5026-5036 and `Interpreter::is_opaque_type` -/
def Value.isOpaque : Value F → Bool
  | .html _ | .query _ | .secret _ | .encrypted _ | .hash _ => true
  | .handle .subgraph _ _ => true
  | _ => false

/-- The text of an operator applied to operand types it does not know. -/
def mismatch (l : Value F) (op : BinOp) (r : Value F) : String :=
  codedError "TYPE_MISMATCH"
    ("type mismatch in binary operation: " ++ l.typeName ++ " " ++ op.debug ++ " " ++ r.typeName)

/-- `+`: the same function on both backends.
mirrors src/interpreter/execution.rs:3085-3112,3138-3151 and src/vm.rs:4964-5009 -/
def addValues (l r : Value F) : Except String (Value F) :=
  if l.isOpaque then .error ("cannot concatenate opaque type " ++ l.typeName)
  else if r.isOpaque then .error ("cannot concatenate opaque type " ++ r.typeName)
  else match l, r with
    | .string a, .string b =>
      let n := (a ++ b).utf8ByteSize
      if n > maxStringLength then
        .error ("string length " ++ toString n ++ " exceeds maximum allowed "
          ++ toString maxStringLength)
      else .ok (.string (a ++ b))
    | .float a, .float b => .ok (.float (add a b))
    | l, r => .error (codedError "TYPE_MISMATCH"
        ("type mismatch in string concatenation: " ++ l.typeName ++ " + " ++ r.typeName
          ++ " (use to_string() explicitly)"))

/-- `/` on two floats. -/
def divFloats (a b : F) : Except String (Value F) :=
  if feq b (zero F) then .error "division by zero" else .ok (.float (div a b))

/-- The tree-walker's `eval_binop`; `and`/`or` never reach it (they short-circuit first).
mirrors src/interpreter/execution.rs:3083-3161 -/
def twBinop (l : Value F) (op : BinOp) (r : Value F) : Except String (Value F) :=
  match op, l, r with
  | .add, l, r => addValues l r
  | .sub, .float a, .float b => .ok (.float (sub a b))
  | .mul, .float a, .float b => .ok (.float (mul a b))
  | .div, .float a, .float b => divFloats a b
  | .gt, .float a, .float b => .ok (.bool (flt b a))
  | .lt, .float a, .float b => .ok (.bool (flt a b))
  | .ge, .float a, .float b => .ok (.bool (fle b a))
  | .le, .float a, .float b => .ok (.bool (fle a b))
  | .eq, .float a, .float b => .ok (.bool (feq a b))
  | .eq, .string a, .string b => .ok (.bool (a = b))
  | .eq, .bool a, .bool b => .ok (.bool (a = b))
  | .eq, .unit, .unit => .ok (.bool true)
  | .eq, .unit, _ => .ok (.bool false)
  | .eq, _, .unit => .ok (.bool false)
  | .ne, .string a, .string b => .ok (.bool (a ≠ b))
  | .ne, .float a, .float b => .ok (.bool (!feq a b))
  | .ne, .bool a, .bool b => .ok (.bool (a ≠ b))
  | .ne, .unit, .unit => .ok (.bool false)
  | .ne, .unit, _ => .ok (.bool true)
  | .ne, _, .unit => .ok (.bool true)
  | op, l, r => .error (mismatch l op r)

/-- The machine's `eval_binop`, reached by `Add`, `Sub`, `Mul` and `Div` only.
mirrors src/vm.rs:4952-5022 -/
def vmArith (l : Value F) (op : BinOp) (r : Value F) : Except String (Value F) :=
  match op, l, r with
  | .add, l, r => addValues l r
  | .sub, .float a, .float b => .ok (.float (sub a b))
  | .mul, .float a, .float b => .ok (.float (mul a b))
  | .div, .float a, .float b => divFloats a b
  | op, l, r => .error (mismatch l op r)

/-- The `{:?}` spelling of a comparison, as the operator it came from. -/
def CompareOp.toBinOp : CompareOp → BinOp
  | .gt => .gt | .lt => .lt | .ge => .ge | .le => .le | .eq => .eq | .ne => .ne

/-- mirrors src/vm.rs:5089-5142 -/
def evalCmp (l r : Value F) (op : CompareOp) : Except String (Value F) :=
  match op, l, r with
  | .eq, .float a, .float b => .ok (.bool (feq a b))
  | .eq, .string a, .string b => .ok (.bool (a = b))
  | .eq, .bool a, .bool b => .ok (.bool (a = b))
  | .eq, .unit, .unit => .ok (.bool true)
  | .eq, .unit, _ => .ok (.bool false)
  | .eq, _, .unit => .ok (.bool false)
  | .ne, .string a, .string b => .ok (.bool (a ≠ b))
  | .ne, .float a, .float b => .ok (.bool (!feq a b))
  | .ne, .bool a, .bool b => .ok (.bool (a ≠ b))
  | .ne, .unit, .unit => .ok (.bool false)
  | .ne, .unit, _ => .ok (.bool true)
  | .ne, _, .unit => .ok (.bool true)
  | .gt, .float a, .float b => .ok (.bool (flt b a))
  | .lt, .float a, .float b => .ok (.bool (flt a b))
  | .ge, .float a, .float b => .ok (.bool (fle b a))
  | .le, .float a, .float b => .ok (.bool (fle a b))
  | op, l, r => .error (mismatch l op.toBinOp r)

/-- `CmpNe`: `eval_cmp` with `Eq`, then inverted.
mirrors src/vm.rs:2334-2349 -/
def vmNe (l r : Value F) : Except String (Value F) :=
  match evalCmp l r .eq with
  | .ok (.bool b) => .ok (.bool (!b))
  | .ok (.float f) => .ok (.float (if feq f (one F) then zero F else one F))
  | other => other

/-- `==` knows these operand types; every other pair is a type mismatch. -/
def comparable (l r : Value F) : Bool :=
  match l, r with
  | .float _, .float _ | .string _, .string _ | .bool _, .bool _ | .unit, _ | _, .unit => true
  | _, _ => false

/-! ## Index access -/

/-- `usize::wrapping_sub` on a 64-bit target. -/
def wrappingSub (n k : Nat) : Nat := if k ≤ n then n - k else n + 2 ^ 64 - k

/-- The position an `f64` index addresses: negative indices count from the end. -/
def indexPos (n : Nat) (f : F) : Nat :=
  let i := toIsize f
  if i < 0 then wrappingSub n i.natAbs else i.toNat

/-- The tree-walker's index access: errors out of range, knows strings.
mirrors src/interpreter/execution.rs:1802-1849 -/
def twIndex (base idx : Value F) : Except String (Value F) :=
  match base, idx with
  | .list items, .float f =>
    match items[indexPos items.length f]? with
    | some v => .ok v
    | none => .error ("list index out of bounds: " ++ toString (indexPos items.length f))
  | .struct _ fields, .string key =>
    match fields.lookup key with
    | some v => .ok v
    | none => .error ("struct has no field '" ++ key ++ "'")
  | .string s, .float f =>
    .ok (.string (String.singleton ((s.toList[indexPos s.length f]?).getD '\x00')))
  | b, i => .error ("index access: expected List[Int] or Struct[String], got " ++ b.typeName
      ++ "[" ++ i.typeName ++ "]")

/-- The machine's `IndexAccess`: never errors, `Unit` where nothing is found.
mirrors src/vm.rs:2387-2412 -/
def vmIndex (base idx : Value F) : Value F :=
  match base, idx with
  | .list items, .float f => (items[indexPos items.length f]?).getD .unit
  | .struct _ fields, .string key => (fields.lookup key).getD .unit
  | _, _ => .unit

/-! ## The two operator tables compared -/

theorem vmArith_eq {op : BinOp} (h : op ∈ [BinOp.add, .sub, .mul, .div]) (l r : Value F) :
    vmArith l op r = twBinop l op r := by
  simp only [List.mem_cons, List.not_mem_nil, or_false] at h
  rcases h with rfl | rfl | rfl | rfl
  · rfl
  all_goals cases l <;> cases r <;> rfl

theorem evalCmp_eq (op : CompareOp) (l r : Value F) :
    evalCmp l r op = twBinop l op.toBinOp r := by
  cases op <;> cases l <;> cases r <;> rfl

/-- `!=` agrees with the tree-walker on comparable operands. -/
theorem vmNe_eq {l r : Value F} (h : comparable l r = true) : vmNe l r = twBinop l .ne r := by
  cases l <;> cases r <;> simp_all [comparable, vmNe, evalCmp, twBinop]

/-- On the other operands both refuse, under different operator names. -/
theorem vmNe_text {l r : Value F} (h : comparable l r = false) :
    vmNe l r = .error (mismatch l .eq r) ∧ twBinop l .ne r = .error (mismatch l .ne r) := by
  cases l <;> cases r <;> first | exact ⟨rfl, rfl⟩ | simp [comparable] at h

/-- Index access agrees wherever the tree-walker finds a list element or a struct field. -/
theorem vmIndex_of_twIndex {b i v : Value F} (hs : ∀ s, b ≠ .string s)
    (h : twIndex b i = .ok v) : vmIndex b i = v := by
  unfold twIndex at h
  split at h
  · split at h <;> simp_all [vmIndex]
  · split at h <;> simp_all [vmIndex]
  · simp_all
  · simp at h

end Metalogos.Lang
