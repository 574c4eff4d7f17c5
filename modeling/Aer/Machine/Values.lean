import Aer.Machine.Ops

set_option linter.all false

/-! Truth, operators, conversions, slices and indexing: the parts of the handlers
that compute with values. -/
namespace Aer.Machine

open Aer.Data Aer.Memory Aer.Lib.Interaction

/-- Report an error and answer with a placeholder. -/
def errorWith (msg : Bytes) (v : AerVal) : Handler AerVal := do
  perform (.error msg)
  return v

/-- Report an error and push null. -/
def errorNull (msg : Bytes) : Handler Unit := do
  perform (.error msg)
  perform (.push .null)

def vmTruthy (v : AerVal) : Handler Bool :=
  match v with
  | .null => return false
  | .boolean b => return b
  | .integer _ | .long _ => do return (← perform (.asInt v)) != 0
  | .real d => return !d.isZero
  | .string c => do return 0 < (← perform (.string c)).length
  | .function _ => return true
  | .array c => do return 0 < (← perform (.array c)).items.length
  | .dict c => do return 0 < (← perform (.dict c)).count

def vmPromoteReal (v : AerVal) : Handler AerVal :=
  match v.type with
  | .integer => do return aerReal (.ofInt (← perform (.asInt v)))
  | _ => return v

/-- `strncmp` of the first `length` bytes, equal lengths given. -/
def sameBytes (a b : Bytes) : Bool :=
  a.length == b.length && cString a == cString b

def valuesEqual (a b : AerVal) : Handler Bool :=
  match a, b with
  | .null, .null => return true
  | .boolean x, .boolean y => return x == y
  | .real x, .real y => return x.beq y
  | .string x, .string y => do return sameBytes (← perform (.string x)) (← perform (.string y))
  | .function x, .function y => do
      return (← perform (.function x)).codeOffset == (← perform (.function y)).codeOffset
  | .array x, .array y => return x == y
  | .dict x, .dict y => return x == y
  | _, _ =>
      if a.type = .integer ∧ b.type = .integer then do
        return (← perform (.asInt a)) == (← perform (.asInt b))
      else return false

def containsEqual (a : AerVal) : List AerVal → Handler Bool
  | [] => return false
  | v :: vs => do
      if ← valuesEqual a v then return true
      containsEqual a vs

def keyTooLong : Bytes := bytes "Dict key too long (max " ++ natText vmKeyMax ++ bytes " bytes)"

def vmIn (a b : AerVal) : Handler AerVal :=
  match b with
  | .dict c =>
      match a with
      | .string k => do
          let key ← perform (.string k)
          if vmKeyMax < key.length then errorWith keyTooLong (aerBool false)
          else do return aerBool ((← perform (.dict c)).get key).isSome
      | _ => errorWith (bytes "Left side of 'in' must be a string when testing dict membership")
          (aerBool false)
  | .array c => do
      let arr ← perform (.array c)
      return aerBool (← containsEqual a arr.items)
  | _ => errorWith (bytes "Right side of 'in' must be a dict or array") (aerBool false)

/-- `&`, `|` and `^` on 64-bit two's complement words. -/
def bitOp (f : BitVec 64 → BitVec 64 → BitVec 64) (l r : Int) : Int :=
  (f (.ofInt 64 l) (.ofInt 64 r)).toInt

/-- A shift; the count must lie in 0..63, as the C operators require. -/
def vmShift (f : BitVec 64 → Nat → BitVec 64) (l r : Int) : Handler AerVal :=
  if 0 ≤ r ∧ r < 64 then perform (.newInt (f (.ofInt 64 l) r.toNat).toInt)
  else do
    perform .fault
    return .null

/-- Floor division through doubles; a quotient outside 64 bits is undefined. -/
def vmFloorDiv (l r : Int) : Handler AerVal :=
  match ((Double.ofInt l).div (.ofInt r)).floor.toLong with
  | some n => perform (.newInt n)
  | none => do
      perform .fault
      return .null

/-- `%`; the one quotient that overflows is undefined. -/
def vmMod (l r : Int) : Handler AerVal :=
  if l = -2 ^ 63 ∧ r = -1 then do
    perform .fault
    return .null
  else perform (.newInt (l.tmod r))

def vmBinaryInt (l r : Int) (op : Opcode) : Handler AerVal :=
  match op with
  | .add => perform (.newInt (wrap64 (l + r)))
  | .sub => perform (.newInt (wrap64 (l - r)))
  | .mul => perform (.newInt (wrap64 (l * r)))
  | .div =>
      if r = 0 then do errorWith (bytes "Division by zero") (← perform (.newInt 0))
      else return aerReal ((Double.ofInt l).div (.ofInt r))
  | .floorDiv =>
      if r = 0 then do errorWith (bytes "Division by zero") (← perform (.newInt 0))
      else vmFloorDiv l r
  | .mod =>
      if r = 0 then do errorWith (bytes "Modulo by zero") (← perform (.newInt 0))
      else vmMod l r
  | .lshift => vmShift (fun x n => x <<< n) l r
  | .rshift => vmShift (fun x n => x.sshiftRight n) l r
  | .bitwiseAnd => perform (.newInt (bitOp (· &&& ·) l r))
  | .bitwiseOr => perform (.newInt (bitOp (· ||| ·) l r))
  | .bitwiseXor => perform (.newInt (bitOp (· ^^^ ·) l r))
  | .eq => return aerBool (l == r)
  | .neq => return aerBool (l != r)
  | .lt => return aerBool (l < r)
  | .gt => return aerBool (r < l)
  | .lte => return aerBool (l ≤ r)
  | .gte => return aerBool (r ≤ l)
  | _ => do errorWith (bytes "Operator not valid for integers") (← perform (.newInt 0))

def vmBinaryReal (l r : Double) (op : Opcode) : Handler AerVal :=
  match op with
  | .add => return aerReal (l.add r)
  | .sub => return aerReal (l.sub r)
  | .mul => return aerReal (l.mul r)
  | .div =>
      if r.isZero then errorWith (bytes "Division by zero") (.real (.zero false))
      else return aerReal (l.div r)
  | .floorDiv =>
      if r.isZero then errorWith (bytes "Division by zero") (.real (.zero false))
      else return aerReal (l.div r).floor
  | .mod => return aerReal (l.fmod r)
  | .eq => return aerBool (l.beq r)
  | .neq => return aerBool !(l.beq r)
  | .lt => return aerBool (l.blt r)
  | .gt => return aerBool (r.blt l)
  | .lte => return aerBool (l.ble r)
  | .gte => return aerBool (r.ble l)
  | _ => errorWith (bytes "Operator not valid for reals") (.real (.zero false))

/-- The types on which only equality is defined. -/
def vmEquality (same : Bool) (op : Opcode) (msg : Bytes) : Handler AerVal :=
  match op with
  | .eq => return aerBool same
  | .neq => return aerBool !same
  | _ => errorWith msg (aerBool false)

def vmBinaryOther (a b : AerVal) (op : Opcode) : Handler AerVal :=
  match a, b with
  | .real l, .real r => vmBinaryReal l r op
  | .boolean l, .boolean r => vmEquality (l == r) op (bytes "Operator not valid for booleans")
  | .string l, .string r => do
      let l ← perform (.string l)
      let r ← perform (.string r)
      if op = .add then perform (.newString (l ++ r))
      else vmEquality (sameBytes l r) op (bytes "Operator not valid for strings")
  | .array l, .array r => vmEquality (l == r) op (bytes "Operator not valid for arrays")
  | .dict l, .dict r => vmEquality (l == r) op (bytes "Operator not valid for dicts")
  | _, _ => errorWith (bytes "Type mismatch in binary expression") (aerBool false)

def vmBinary (a b : AerVal) (op : Opcode) : Handler AerVal := do
  if op = .and then
    if ← vmTruthy a then return aerBool (← vmTruthy b)
    return aerBool false
  if op = .or then
    if ← vmTruthy a then return aerBool true
    return aerBool (← vmTruthy b)
  if op = .isIn then
    return ← vmIn a b
  if a.type = .integer ∧ b.type = .integer then
    return ← vmBinaryInt (← perform (.asInt a)) (← perform (.asInt b)) op
  if a = .null ∨ b = .null then
    return ← vmEquality (a == .null && b == .null) op (bytes "Operator not valid for null")
  if a.type = .real ∨ b.type = .real then
    return ← vmBinaryOther (← vmPromoteReal a) (← vmPromoteReal b) op
  vmBinaryOther a b op

def vmToStr (v : AerVal) : Handler AerVal :=
  match v with
  | .string _ => return v
  | _ => do perform (.newString (← perform (.format v)))

/-- The bounds of a slice of length `len`, or `none` after a reported error. -/
def vmSliceBounds (start stop : AerVal) (len : Nat) : Handler (Option (Nat × Nat)) := do
  let bound (v : AerVal) (dflt : Int) : Handler (Option Int) :=
    match v.type with
    | .null => return some dflt
    | .integer => do return some (← perform (.asInt v))
    | _ => do
        perform (.error (bytes "Slice bounds must be integers"))
        return none
  match ← bound start 0 with
  | none => return none
  | some lo =>
      match ← bound stop (len : Int) with
      | none => return none
      | some hi =>
          let lo := max 0 (if lo < 0 then lo + len else lo)
          let hi := min (len : Int) (if hi < 0 then hi + len else hi)
          return some (lo.toNat, (max lo hi).toNat)

/-- The element an index denotes, negative indices counting from the end. -/
def elementIndex (i : Int) (count : Nat) : Option Nat :=
  let j := if i < 0 then i + count else i
  if 0 ≤ j ∧ j < count then some j.toNat else none

def outOfBounds (what : String) (i : Int) (count : Nat) : Bytes :=
  bytes what ++ bytes " index " ++ intText i ++ bytes " out of bounds (len " ++ natText count ++
    bytes ")"

def vmIndexGetCompute (obj idx : AerVal) : Handler AerVal :=
  match obj with
  | .array c => do
      let a ← perform (.array c)
      if a.shape.isSome then
        errorWith (bytes "Struct fields are accessed with '.', not '[]'") .null
      else if idx.type = .integer then
        let i ← perform (.asInt idx)
        match (elementIndex i a.items.length).bind (a.items[·]?) with
        | some v => return v
        | none => errorWith (outOfBounds "Array" i a.items.length) .null
      else errorWith (bytes "Array index must be an integer") .null
  | .dict c =>
      match idx with
      | .string k => do
          let key ← perform (.string k)
          if vmKeyMax < key.length then errorWith keyTooLong .null
          else do return ((← perform (.dict c)).get key).getD .null
      | _ => errorWith (bytes "Dict key must be a string") .null
  | .string c => do
      let str ← perform (.string c)
      if idx.type = .integer then
        let i ← perform (.asInt idx)
        match (elementIndex i str.length).bind (str[·]?) with
        | some ch => perform (.newString [ch])
        | none => errorWith (outOfBounds "String" i str.length) .null
      else errorWith (bytes "String index must be an integer") .null
  | _ => errorWith (bytes "Cannot index type") .null

/-- The leading part of a string that the number conversions copy to their buffer. -/
def castBuffer (b : Bytes) : Bytes := cString (b.take 63)

def vmCast (target : Int) (v : AerVal) : Handler AerVal :=
  if target = castInteger then
    match v with
    | .integer _ | .long _ => return v
    | .real d =>
        match d.toLong with
        | some n => perform (.newInt n)
        | none => do
            perform .fault
            return .null
    | .boolean b => perform (.newInt (if b then 1 else 0))
    | .string c => do perform (.newInt (strtoll (castBuffer (← perform (.string c)))))
    | _ => do
        errorWith (bytes "Cannot convert this type to integer") (← perform (.newInt 0))
  else if target = castFloat then
    match v with
    | .real _ => return v
    | .integer _ | .long _ => do return aerReal (.ofInt (← perform (.asInt v)))
    | .boolean b => return .real (.ofInt (if b then 1 else 0))
    | .string c => do return aerReal (.strtod (castBuffer (← perform (.string c))))
    | _ => errorWith (bytes "Cannot convert this type to float") (.real (.zero false))
  else if target = castBoolean then do return aerBool (← vmTruthy v)
  else return .null

end Aer.Machine
