import Aer.Data.Double

set_option linter.all false

/-! Runtime values. A heap value names a cell of the pool of its type; an integer
outside the inline range names a cell of the pool of 64-bit integers. -/
namespace Aer.Data

/-- `long long` arithmetic, modulo 2^64. -/
def wrap64 (n : Int) : Int :=
  (n + 2 ^ 63) % 2 ^ 64 - 2 ^ 63

def IsLong (n : Int) : Prop :=
  -2 ^ 63 ≤ n ∧ n < 2 ^ 63

instance (n : Int) : Decidable (IsLong n) := by unfold IsLong; infer_instance

theorem isLong_wrap64 (n : Int) : IsLong (wrap64 n) := by
  unfold IsLong wrap64
  omega

theorem wrap64_of_isLong {n : Int} (h : IsLong n) : wrap64 n = n := by
  unfold IsLong at h
  unfold wrap64
  omega

def IsInt47 (n : Int) : Prop :=
  -2 ^ 46 ≤ n ∧ n ≤ 2 ^ 46 - 1

instance (n : Int) : Decidable (IsInt47 n) := by unfold IsInt47; infer_instance

theorem isInt47_zero : IsInt47 0 := by decide

theorem isInt47_one : IsInt47 1 := by decide

/-- The integers a value holds inline. -/
structure Int47 where
  val : Int
  inRange : IsInt47 val
  deriving DecidableEq

instance : Inhabited Int47 := ⟨⟨0, by decide⟩⟩

inductive ValueType
  | null | boolean | integer | real | string | function | array | dict
  deriving DecidableEq, Inhabited

inductive AerVal
  | null
  | boolean (b : Bool)
  | integer (n : Int47)
  | long (cell : Nat)
  | real (d : Double)
  | string (cell : Nat)
  | function (cell : Nat)
  | array (cell : Nat)
  | dict (cell : Nat)
  deriving DecidableEq, Inhabited

namespace AerVal

def type : AerVal → ValueType
  | null => .null
  | boolean _ => .boolean
  | integer _ | long _ => .integer
  | real _ => .real
  | string _ => .string
  | function _ => .function
  | array _ => .array
  | dict _ => .dict

end AerVal

/-- The factory of reals, which keeps a single NaN. -/
def aerReal (d : Double) : AerVal :=
  .real (if d.isNaN then .nan else d)

def aerBool (b : Bool) : AerVal := .boolean b

/-- The storage of a captured variable: a cell of the box pool, or the separately
allocated cell that an overflowed variable already lives in. -/
inductive BoxRef
  | pooled (cell : Nat)
  | spilled (entry : Nat)
  deriving DecidableEq, Inhabited

/-- The address of a variable: an inline slot of a scope, or a box. -/
inductive Addr
  | slot (scope idx : Nat)
  | box (b : BoxRef)
  deriving DecidableEq, Inhabited

structure AerFunction where
  codeOffset : Nat
  arity : Nat
  minArity : Nat
  defaults : List AerVal
  hasReceiver : Bool
  receiverType : Nat
  upvalues : List BoxRef
  deriving DecidableEq, Inhabited

/-- An array or, with a shape, a struct instance; `items.length` is the count. -/
structure AerArray where
  items : List AerVal
  capacity : Nat
  shape : Option Nat
  deriving DecidableEq, Inhabited

/-- A struct type: pool indices of the names, and the default of each field. -/
structure Shape where
  name : Nat
  fields : List (Nat × AerVal)
  deriving DecidableEq, Inhabited

def typeNames : ValueType → Bytes
  | .null => bytes "null"
  | .boolean => bytes "boolean"
  | .integer => bytes "integer"
  | .real => bytes "real"
  | .string => bytes "string"
  | .function => bytes "function"
  | .array => bytes "array"
  | .dict => bytes "dict"

end Aer.Data
