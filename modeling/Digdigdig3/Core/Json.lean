import Mathlib.Tactic.Common
import Mathlib.Data.Rat.Defs

/-!
# JSON values

The part of `serde_json::Value` that the frame parsers of the connectors read. A number is an
`i64`, `u64` or `f64` in the source; here it is an integer, or a rational for a number with a
fraction or an exponent.
-/

namespace Digdigdig3

/-- `serde_json::Value`. -/
inductive Json
  | null
  | bool (b : Bool)
  | int (n : ℤ)
  | float (q : ℚ)
  | str (s : String)
  | arr (items : List Json)
  | obj (fields : List (String × Json))

namespace Json

/-- `Value::as_array`. -/
def asArray : Json → Option (List Json)
  | arr items => some items
  | _ => none

/-- `Value::as_str`. -/
def asStr : Json → Option String
  | str s => some s
  | _ => none

/-- `Value::as_i64`. -/
def asI64 : Json → Option ℤ
  | int n => if -9223372036854775808 ≤ n ∧ n ≤ 9223372036854775807 then some n else none
  | _ => none

/-- `Value::as_u64`. -/
def asU64 : Json → Option ℕ
  | int n => if 0 ≤ n ∧ n ≤ 18446744073709551615 then some n.toNat else none
  | _ => none

/-- `Value::as_f64`. -/
def asF64 : Json → Option ℚ
  | int n => some n
  | float q => some q
  | _ => none

/-- `Value::get` with a key. -/
def get? (key : String) : Json → Option Json
  | obj fields => (fields.find? (·.1 = key)).map (·.2)
  | _ => none

@[simp] theorem asArray_arr (items : List Json) : (arr items).asArray = some items := rfl

@[simp] theorem asArray_int (n : ℤ) : (int n).asArray = none := rfl

@[simp] theorem asArray_float (q : ℚ) : (float q).asArray = none := rfl

@[simp] theorem asArray_str (s : String) : (str s).asArray = none := rfl

@[simp] theorem asStr_str (s : String) : (str s).asStr = some s := rfl

end Json

end Digdigdig3
