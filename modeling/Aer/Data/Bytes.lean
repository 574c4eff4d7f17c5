import Mathlib.Algebra.Order.Ring.Int
import Mathlib.Algebra.BigOperators.Group.List.Basic
import Mathlib.Data.List.TakeWhile

set_option linter.all false

/-! Byte strings and the conversions of the C library the program relies on. -/
namespace Aer.Data

abbrev Bytes := List UInt8

/-- The bytes of an ASCII literal of the source. -/
def bytes (s : String) : Bytes :=
  s.toList.map fun c => c.toNat.toUInt8

def byte (c : Char) : UInt8 := c.toNat.toUInt8

/-- A property of every byte. -/
theorem forall_byte {p : UInt8 → Prop} (h : ∀ n < 256, p (UInt8.ofNat n)) (c : UInt8) : p c := by
  have hc := h c.toNat c.toNat_lt
  rwa [UInt8.ofNat_toNat] at hc

/-- What `strlen` and `strcmp` see of a buffer: the bytes before the first NUL. -/
def cString (b : Bytes) : Bytes :=
  b.takeWhile (· ≠ 0)

def isSpace (c : UInt8) : Bool :=
  c == byte ' ' || (9 ≤ c && c ≤ 13)

def isDigit (c : UInt8) : Bool :=
  byte '0' ≤ c && c ≤ byte '9'

def isUpper (c : UInt8) : Bool :=
  byte 'A' ≤ c && c ≤ byte 'Z'

def isAlpha (c : UInt8) : Bool :=
  isUpper c || (byte 'a' ≤ c && c ≤ byte 'z')

def toLower (c : UInt8) : UInt8 :=
  if isUpper c then c + 32 else c

/-- The value of a digit of base 36. -/
def digitVal (c : UInt8) : Nat :=
  if isDigit c then (c - byte '0').toNat
  else if isAlpha c then (toLower c - byte 'a').toNat + 10
  else 36

def isDigitOf (base : Nat) (c : UInt8) : Bool :=
  digitVal c < base

def digitsVal (base : Nat) (ds : Bytes) : Nat :=
  ds.foldl (fun n c => n * base + digitVal c) 0

theorem cString_idem (b : Bytes) : cString (cString b) = cString b :=
  List.takeWhile_idem

theorem cString_of_nulFree {b : Bytes} (h : ∀ c ∈ b, c ≠ 0) : cString b = b :=
  List.takeWhile_eq_self_iff.mpr (by simpa using h)

/-! Decimal and hexadecimal text. -/

def natText (n : Nat) : Bytes :=
  (Nat.toDigits 10 n).map fun c => c.toNat.toUInt8

/-- The conversion `%d`, `%u`, `%lld` of `printf`. -/
def intText (n : Int) : Bytes :=
  if n < 0 then byte '-' :: natText n.natAbs else natText n.natAbs

/-- A number's text as `strtol` reads it: blanks, a sign and the rest. -/
def splitSign (b : Bytes) : Bool × Bytes :=
  match b.dropWhile isSpace with
  | c :: rest =>
      if c = byte '-' then (true, rest) else if c = byte '+' then (false, rest) else (false, c :: rest)
  | [] => (false, [])

/-- `strtoll` in base 10, saturating at the limits of 64 bits; also `atoll`. -/
def strtoll (b : Bytes) : Int :=
  let (neg, rest) := splitSign b
  let n := digitsVal 10 (rest.takeWhile isDigit)
  if neg then max (-2 ^ 63) (-n) else min (2 ^ 63 - 1) n

example : intText (-120) = bytes "-120" := by decide

end Aer.Data
