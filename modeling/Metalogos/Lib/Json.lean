import Mathlib.Algebra.Group.Int.Defs
import Mathlib.Algebra.Group.Nat.Defs

/-!
# JSON trees

What a JSON parser hands out, with the ways to look into it.
-/
namespace Metalogos.Lib

/-- A JSON tree; a `real` is a number that is no integer. -/
inductive Json where
  | null
  | bool (b : Bool)
  | int (n : Int)
  | real (text : String)
  | str (s : String)
  | arr (items : List Json)
  | obj (fields : List (String × Json))

namespace Json

/-- The member of an object. -/
def get (key : String) : Json → Option Json
  | .obj fields => fields.lookup key
  | _ => none

def asU64 : Json → Option Nat
  | .int (.ofNat n) => if n < UInt64.size then some n else none
  | _ => none

def asI64 : Json → Option Int
  | .int n => if -2 ^ 63 ≤ n ∧ n < 2 ^ 63 then some n else none
  | _ => none

def asStr : Json → Option String
  | .str s => some s
  | _ => none

theorem asU64_int {n k : Nat} (h : (Json.int n).asU64 = some k) : n = k := by
  change (if n < UInt64.size then some n else none) = some k at h
  split at h
  · exact Option.some.inj h
  · cases h

end Json

end Metalogos.Lib
