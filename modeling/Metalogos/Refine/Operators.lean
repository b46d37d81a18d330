import Metalogos.Refine.Steps
import Metalogos.Lib.Text

/-!
# Operators and accesses: one instruction against one evaluation

The parity oracle of the repository compares two refusals by their class (`err_class` of
`tests/naryad_465_diff_fuzzer.rs`), the code in brackets when there is one. In these terms every operator
instruction does what the tree-walker's operator does on any two values, and so does `GetField`
(`operators_agree`).

`IndexAccess` differs by design where nothing is found: a list index out of range and a missing key of a struct
are answered by `Unit` on the machine (`src/vm.rs:5128-5130`, `tests/naryad_762_unit_fallback_census.rs`), and
refused by the tree-walker (`index_differs`).
-/
namespace Metalogos.Refine

open Metalogos.Lang Metalogos.Machine Metalogos.Compile Metalogos.Lib

/-- The bracketed code when present, else the head of the text.
mirrors tests/naryad_465_diff_fuzzer.rs:731-737 -/
def errClass (err : String) : List Char :=
  let head := trim err.toList
  let a := head.idxOf '['
  let b := head.idxOf ']'
  if a < b ∧ b < head.length then (head.take (b + 1)).drop a else head.take 40

variable {F : Type}

/-- The same value, or refusals of one class. -/
def SameOutcome (a b : Except String (Value F)) : Prop :=
  match a, b with
  | .ok v, .ok w => v = w
  | .error e, .error e' => errClass e = errClass e'
  | _, _ => False

theorem SameOutcome.refl (a : Except String (Value F)) : SameOutcome a a := by
  cases a <;> rfl

/-- A stamped text is filed under its stamp. -/
theorem errClass_codedError {c : String} (hclose : ']' ∉ c.toList) (msg : String) :
    errClass (codedError c msg) = '[' :: c.toList ++ [']'] := by
  have htext : trim (codedError c msg).toList = '[' :: c.toList ++ ']' :: trimEnd (' ' :: msg.toList) := by
    have hchars : (codedError c msg).toList = ('[' :: c.toList) ++ ']' :: ' ' :: msg.toList := by
      simp [codedError]
    rw [hchars, List.cons_append, trim_of_head (by decide), ← List.cons_append, trimEnd_append (by decide)]
  have ha : (trim (codedError c msg).toList).idxOf '[' = 0 := by
    rw [htext]
    rfl
  have hb : (trim (codedError c msg).toList).idxOf ']' = c.toList.length + 1 := by
    rw [htext, List.idxOf_append_of_notMem (by simp [hclose]), List.idxOf_cons_self]
    rfl
  have htake : (trim (codedError c msg).toList).take (c.toList.length + 1 + 1) = '[' :: c.toList ++ [']'] := by
    rw [htext, show c.toList.length + 1 + 1 = ('[' :: c.toList).length + 1 from rfl, List.take_length_add_append]
    rfl
  unfold errClass
  dsimp only
  rw [ha, hb, htake, if_pos (by rw [htext]; simp), List.drop_zero]

variable [FloatModel F]

/-- Both tables refuse a pair that `==` does not know, and only the name of the operator differs. -/
theorem vmNe_same (l r : Value F) : SameOutcome (vmNe l r) (twBinop l .ne r) := by
  cases h : comparable l r with
  | true =>
    rw [vmNe_eq h]
    exact SameOutcome.refl _
  | false =>
    obtain ⟨hvm, htw⟩ := vmNe_text h
    rw [hvm, htw]
    show errClass (mismatch l .eq r) = errClass (mismatch l .ne r)
    unfold mismatch
    rw [errClass_codedError (by decide), errClass_codedError (by decide)]

theorem evalCmp_same (op : CompareOp) (l r : Value F) : SameOutcome (evalCmp l r op) (twBinop l op.toBinOp r) := by
  rw [evalCmp_eq]
  exact SameOutcome.refl _

/-- What a list holds at an index, and a struct under a key: nothing where the index is out of range or the key is
missing. Other receivers have no elements. -/
def element (base idx : Value F) : Option (Option (Value F)) :=
  match base, idx with
  | .list items, .float f => some items[indexPos items.length f]?
  | .struct _ fields, .string key => some (fields.lookup key)
  | _, _ => none

theorem index_found {b i v : Value F} (h : element b i = some (some v)) : vmIndex b i = v ∧ twIndex b i = .ok v := by
  unfold element at h
  split at h
  · simp only [Option.some.injEq] at h
    simp [vmIndex, twIndex, h]
  · simp only [Option.some.injEq] at h
    simp [vmIndex, twIndex, h]
  · cases h

theorem index_missing {b i : Value F} (h : element b i = some none) :
    vmIndex b i = .unit ∧ ∃ e, twIndex b i = .error e := by
  unfold element at h
  split at h
  · simp only [Option.some.injEq] at h
    simp [vmIndex, twIndex, h]
  · simp only [Option.some.injEq] at h
    simp [vmIndex, twIndex, h]
  · cases h

section

variable {W : Type} (N : Names) (H : HostOps F W) (C : Calls F W) (ip : Nat) (m : Mach F W) (s : List (Value F))
  (l r : Value F)

theorem step_arith (op : ArithOp) :
    step N H C (.arith op) ip (m.withStack (s ++ [l] ++ [r])) =
      pushResult (twBinop l op.toBinOp r) (ip + 1) (m.withStack s) := by
  have hmem : op.toBinOp ∈ [BinOp.add, .sub, .mul, .div] := by cases op <;> decide
  simp [-List.append_assoc, step, popSoft, Mach.withStack, vmArith_eq hmem]

theorem step_cmp (op : CompareOp) : ∃ out,
    step N H C (.cmp op) ip (m.withStack (s ++ [l] ++ [r])) = pushResult out (ip + 1) (m.withStack s) ∧
      SameOutcome out (twBinop l op.toBinOp r) := by
  cases op with
  | ne =>
    refine ⟨vmNe l r, ?_, vmNe_same l r⟩
    simp [-List.append_assoc, step, popLoud, Mach.withStack]
  | eq =>
    refine ⟨evalCmp l r .eq, ?_, evalCmp_same .eq l r⟩
    simp [-List.append_assoc, step, popLoud, Mach.withStack]
  | gt | lt | ge | le =>
    refine ⟨evalCmp l r _, ?_, evalCmp_same _ l r⟩
    simp [-List.append_assoc, step, popSoft, Mach.withStack]

theorem step_getField (field : String) :
    step N H C (.getField field) ip (m.withStack (s ++ [l])) =
      pushResult (l.getField field) (ip + 1) (m.withStack s) := by
  simp [step, popSoft, Mach.withStack]

theorem step_indexAccess :
    step N H C .indexAccess ip (m.withStack (s ++ [l] ++ [r])) =
      .next (ip + 1) (m.withStack (s ++ [vmIndex l r])) := by
  simp [-List.append_assoc, step, popLoud, Mach.withStack, Mach.push]

/-- Each operator and access instruction on any two values against the tree-walker's operator or access: the same
value or the same class of error; an index into a list and a key of a struct give the same element, and where there
is none the tree-walker refuses and the machine goes on with `Unit`. -/
theorem operators_agree :
    (∀ op : ArithOp, ∃ out,
      step N H C (.arith op) ip (m.withStack (s ++ [l] ++ [r])) = pushResult out (ip + 1) (m.withStack s) ∧
        SameOutcome out (twBinop l op.toBinOp r)) ∧
    (∀ op : CompareOp, ∃ out,
      step N H C (.cmp op) ip (m.withStack (s ++ [l] ++ [r])) = pushResult out (ip + 1) (m.withStack s) ∧
        SameOutcome out (twBinop l op.toBinOp r)) ∧
    (∀ op : CompareOp, SameOutcome (evalCmp l r op) (twBinop l op.toBinOp r)) ∧
    (∀ field, ∃ out,
      step N H C (.getField field) ip (m.withStack (s ++ [l])) = pushResult out (ip + 1) (m.withStack s) ∧
        SameOutcome out (l.getField field)) ∧
    ∃ out, step N H C .indexAccess ip (m.withStack (s ++ [l] ++ [r])) = .next (ip + 1) (m.withStack (s ++ [out])) ∧
      (∀ v, element l r = some (some v) → out = v ∧ twIndex l r = .ok v) ∧
      (element l r = some none → out = .unit ∧ ∃ e, twIndex l r = .error e) := by
  refine ⟨fun op => ?_, step_cmp N H C ip m s l r, fun op => evalCmp_same op l r, fun field => ?_, ?_⟩
  · exact ⟨_, step_arith N H C ip m s l r op, SameOutcome.refl _⟩
  · exact ⟨_, step_getField N H C ip m s l field, SameOutcome.refl _⟩
  · exact ⟨_, step_indexAccess N H C ip m s l r, fun v hfound => index_found hfound, index_missing⟩

end

/-- The list has no element 9: one refuses, the other goes on. -/
theorem index_differs : ¬ ∀ b i : Value Int, SameOutcome (.ok (vmIndex b i)) (twIndex b i) :=
  fun h => h (.list [.float 10, .float 20]) (.float 9)

end Metalogos.Refine
