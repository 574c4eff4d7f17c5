import Aer.Data.Bytes

set_option linter.all false

/-! IEEE 754 binary64 as a 64-bit word. A finite double is an integer multiple
of 2^-1074, so every operation is an exact integer quotient, rounded once to
nearest with ties to even. -/
namespace Aer.Data

structure Double where
  word : BitVec 64
  deriving DecidableEq, Inhabited

namespace Double

def isNeg (x : Double) : Bool := x.word.msb

def expo (x : Double) : Nat := x.word.toNat / 2 ^ 52 % 2048

def frac (x : Double) : Nat := x.word.toNat % 2 ^ 52

def isNaN (x : Double) : Bool := x.expo == 2047 && x.frac != 0

def isInf (x : Double) : Bool := x.expo == 2047 && x.frac == 0

/-- The magnitude of a finite double, in units of 2^-1074. -/
def magnitude (x : Double) : Nat :=
  if x.expo = 0 then x.frac else (2 ^ 52 + x.frac) * 2 ^ (x.expo - 1)

/-- A finite double in units of 2^-1074. -/
def scaled (x : Double) : Int :=
  if x.isNeg then -x.magnitude else x.magnitude

def ofFields (neg : Bool) (expo frac : Nat) : Double :=
  ⟨BitVec.ofNat 64 ((if neg then 2 ^ 63 else 0) + expo * 2 ^ 52 + frac)⟩

def nan : Double := ofFields false 2047 (2 ^ 51)

def inf (neg : Bool) : Double := ofFields neg 2047 0

def zero (neg : Bool) : Double := ofFields neg 0 0

/-- The quotient rounded to the nearest integer, ties to even. -/
def roundQuot (num den : Nat) : Nat :=
  let q := num / den
  let r := num % den
  if den < 2 * r ∨ (2 * r = den ∧ q % 2 = 1) then q + 1 else q

/-- The binary exponent, above the smallest, of a double near `num / den` units. -/
def unitExpo (num den : Nat) : Nat :=
  (num / den).log2 - 52

/-- The double nearest to `num / den` units of 2^-1074. -/
def round (neg : Bool) (num den : Nat) : Double :=
  let e := unitExpo num den
  let m := roundQuot num (den * 2 ^ e)
  -- A carry out of the significand moves to the next binade by itself.
  let w := if m < 2 ^ 52 then m else (e + 1) * 2 ^ 52 + (m - 2 ^ 52)
  if w < 2047 * 2 ^ 52 then ofFields neg 0 w else inf neg

def unit : Nat := 2 ^ 1074

/-- Conversion of a `long long`. -/
def ofInt (n : Int) : Double :=
  round (decide (n < 0)) (n.natAbs * unit) 1

def neg (x : Double) : Double :=
  ⟨x.word ^^^ BitVec.ofNat 64 (2 ^ 63)⟩

def roundInt (n : Int) (den : Nat) (negZero : Bool) : Double :=
  if n = 0 then zero negZero else round (decide (n < 0)) n.natAbs den

def add (x y : Double) : Double :=
  if x.isNaN || y.isNaN then nan
  else if x.isInf then (if y.isInf && x.isNeg != y.isNeg then nan else x)
  else if y.isInf then y
  else roundInt (x.scaled + y.scaled) 1 (x.isNeg && y.isNeg)

def sub (x y : Double) : Double := add x (neg y)

def mul (x y : Double) : Double :=
  let s := x.isNeg != y.isNeg
  if x.isNaN || y.isNaN then nan
  else if x.isInf || y.isInf then
    (if x.magnitude = 0 || y.magnitude = 0 then nan else inf s)
  else roundInt (x.scaled * y.scaled) unit s

def div (x y : Double) : Double :=
  let s := x.isNeg != y.isNeg
  if x.isNaN || y.isNaN then nan
  else if x.isInf then (if y.isInf then nan else inf s)
  else if y.isInf then zero s
  else if y.magnitude = 0 then (if x.magnitude = 0 then nan else inf s)
  else if x.magnitude = 0 then zero s
  else round s (x.magnitude * unit) y.magnitude

/-- `floor`; an integral result keeps the sign of a zero. -/
def floor (x : Double) : Double :=
  if x.isNaN || x.isInf || x.magnitude = 0 then x
  else roundInt (x.scaled / unit * unit) 1 false

def fmod (x y : Double) : Double :=
  if x.isNaN || y.isNaN || x.isInf || (!y.isInf && y.magnitude = 0) then nan
  else if y.isInf then x
  else roundInt (x.scaled.tmod y.scaled) 1 x.isNeg

/-- The conversion to `long long`, defined when the truncated value fits. -/
def toLong (x : Double) : Option Int :=
  if x.isNaN || x.isInf then none
  else
    let n := x.scaled.tdiv unit
    if -2 ^ 63 ≤ n ∧ n < 2 ^ 63 then some n else none

/-- The comparison of two doubles, `none` when one of them is a NaN. -/
def compare (x y : Double) : Option Ordering :=
  if x.isNaN || y.isNaN then none
  else some (Ord.compare (key x) (key y))
where
  key (x : Double) : Int :=
    if x.isInf then (if x.isNeg then -(2 ^ 2100) else 2 ^ 2100) else x.scaled

def beq (x y : Double) : Bool := compare x y == some .eq
def blt (x y : Double) : Bool := compare x y == some .lt
def ble (x y : Double) : Bool := blt x y || beq x y

def isZero (x : Double) : Bool := beq x (zero false)

/-! The conversion `%g` of `printf`: six significant digits, no trailing zeros. -/

/-- The rational `num / den` scaled by `10 ^ k` and rounded to an integer. -/
def scaleTen (num den : Nat) (k : Int) : Nat :=
  if 0 ≤ k then roundQuot (num * 10 ^ k.toNat) den else roundQuot num (den * 10 ^ (-k).toNat)

/-- The decimal exponent of a positive rational, at most `hi` and at least `hi - fuel`. -/
def tenExpo (num den : Nat) : Nat → Int → Int
  | 0, hi => hi
  | fuel + 1, hi =>
      let reached : Bool :=
        if 0 ≤ hi then den * 10 ^ hi.toNat ≤ num else den ≤ num * 10 ^ (-hi).toNat
      if reached then hi else tenExpo num den fuel (hi - 1)

def dropZeros (ds : Bytes) : Bytes :=
  (ds.reverse.dropWhile (· == byte '0')).reverse

def pointText (whole part : Bytes) : Bytes :=
  if part.isEmpty then whole else whole ++ byte '.' :: part

def expoText (e : Int) : Bytes :=
  let ds := natText e.natAbs
  byte 'e' :: (if e < 0 then byte '-' else byte '+') ::
    (if ds.length < 2 then byte '0' :: ds else ds)

def digitsText (digits : Bytes) (e : Int) : Bytes :=
  if e < -4 ∨ 6 ≤ e then
    pointText (digits.take 1) (dropZeros (digits.drop 1)) ++ expoText e
  else if e < 0 then
    pointText [byte '0'] (List.replicate (-e - 1).toNat (byte '0') ++ dropZeros digits)
  else
    pointText (digits.take (e.toNat + 1)) (dropZeros (digits.drop (e.toNat + 1)))

def formatG (x : Double) : Bytes :=
  let sign : Bytes := if x.isNeg then [byte '-'] else []
  if x.isNaN then sign ++ bytes "nan"
  else if x.isInf then sign ++ bytes "inf"
  else if x.magnitude = 0 then sign ++ [byte '0']
  else
    let e := tenExpo x.magnitude unit 640 309
    let m := scaleTen x.magnitude unit (5 - e)
    -- Rounding up to seven digits moves to the next power of ten.
    if m < 1000000 then sign ++ digitsText (natText m) e
    else sign ++ digitsText (natText (m / 10)) (e + 1)

/-! `strtod`, for the decimal, hexadecimal, infinity and NaN subjects. -/

def hasPrefix (word text : Bytes) : Bool :=
  word.isPrefixOf (text.map toLower)

/-- The digits before and after the point, and what follows them. -/
def splitPoint (digit : UInt8 → Bool) (b : Bytes) : Bytes × Bytes × Bytes :=
  let whole := b.takeWhile digit
  match b.dropWhile digit with
  | c :: rest =>
      if c = byte '.' then (whole, rest.takeWhile digit, rest.dropWhile digit)
      else (whole, [], c :: rest)
  | [] => (whole, [], [])

/-- An exponent part introduced by `mark`; without digits it is not consumed. -/
def splitExpo (mark : UInt8) (b : Bytes) : Int :=
  match b with
  | c :: rest =>
      if toLower c = mark then
        let (neg, ds) :=
          match rest with
          | s :: ds => if s = byte '-' then (true, ds) else if s = byte '+' then (false, ds)
              else (false, rest)
          | [] => (false, [])
        let n := digitsVal 10 (ds.takeWhile isDigit)
        if neg then -n else n
      else 0
  | [] => 0

def ofScientific (neg : Bool) (digits : Nat) (base : Nat) (e : Int) : Double :=
  if digits = 0 then zero neg
  else if 0 ≤ e then round neg (digits * base ^ e.toNat * unit) 1
  else round neg (digits * unit) (base ^ (-e).toNat)

def strtod (b : Bytes) : Double :=
  let (neg, text) := splitSign b
  if hasPrefix (bytes "inf") text then inf neg
  else if hasPrefix (bytes "nan") text then (if neg then nan.neg else nan)
  else
    let hexSubject := hasPrefix (bytes "0x") text &&
      (let (whole, part, _) := splitPoint (isDigitOf 16) (text.drop 2)
       !(whole.isEmpty && part.isEmpty))
    if hexSubject then
      let (whole, part, rest) := splitPoint (isDigitOf 16) (text.drop 2)
      ofScientific neg (digitsVal 16 (whole ++ part)) 2 (splitExpo (byte 'p') rest - 4 * part.length)
    else
      let (whole, part, rest) := splitPoint isDigit text
      if whole.isEmpty && part.isEmpty then zero false
      else ofScientific neg (digitsVal 10 (whole ++ part)) 10
        (splitExpo (byte 'e') rest - part.length)

/-! The equality of doubles against that of their words. -/

theorem word_fields (x : Double) :
    x.word.toNat = (if x.isNeg then 2 ^ 63 else 0) + x.expo * 2 ^ 52 + x.frac ∧
      x.expo < 2048 ∧ x.frac < 2 ^ 52 := by
  have hlt := x.word.isLt
  have hneg : x.isNeg = decide (2 ^ 63 ≤ x.word.toNat) := BitVec.msb_eq_decide x.word
  unfold expo frac
  rw [hneg]
  by_cases h : 2 ^ 63 ≤ x.word.toNat
  · simp only [h, decide_true, if_true]
    omega
  · simp only [h, decide_false, Bool.false_eq_true, if_false]
    omega

/-- A double is its sign, its exponent and its fraction. -/
theorem ext_fields {x y : Double} (hneg : x.isNeg = y.isNeg) (hexpo : x.expo = y.expo)
    (hfrac : x.frac = y.frac) : x = y := by
  have hx := (word_fields x).1
  have hy := (word_fields y).1
  rw [hneg, hexpo, hfrac, ← hy] at hx
  cases x with
  | mk v =>
    cases y with
    | mk w => exact congrArg Double.mk (BitVec.eq_of_toNat_eq hx)

theorem magnitude_lt (x : Double) : x.magnitude < 2 ^ 52 * 2 ^ x.expo := by
  obtain ⟨-, -, hf⟩ := word_fields x
  unfold magnitude
  split
  · next he => simpa [he] using hf
  · next he =>
    have hpow : 2 ^ x.expo = 2 * 2 ^ (x.expo - 1) := by
      rw [← Nat.pow_succ']
      congr 1
      omega
    rw [hpow, ← Nat.mul_assoc]
    exact Nat.mul_lt_mul_of_pos_right (by omega) (Nat.two_pow_pos _)

theorem magnitude_ge {x : Double} (he : x.expo ≠ 0) : 2 ^ 52 * 2 ^ (x.expo - 1) ≤ x.magnitude := by
  unfold magnitude
  rw [if_neg he]
  exact Nat.mul_le_mul_right _ (Nat.le_add_right _ _)

/-- The magnitude grows with the exponent. -/
theorem magnitude_lt_of_expo {x y : Double} (h : x.expo < y.expo) : x.magnitude < y.magnitude :=
  calc x.magnitude < 2 ^ 52 * 2 ^ x.expo := magnitude_lt x
    _ ≤ 2 ^ 52 * 2 ^ (y.expo - 1) :=
        Nat.mul_le_mul_left _ (Nat.pow_le_pow_right (by decide) (by omega))
    _ ≤ y.magnitude := magnitude_ge (by omega)

theorem fields_of_magnitude {x y : Double} (h : x.magnitude = y.magnitude) :
    x.expo = y.expo ∧ x.frac = y.frac := by
  have hexpo : x.expo = y.expo := by
    rcases Nat.lt_trichotomy x.expo y.expo with hlt | he | hlt
    · exact absurd h (magnitude_lt_of_expo hlt).ne
    · exact he
    · exact absurd h (magnitude_lt_of_expo hlt).ne'
  refine ⟨hexpo, ?_⟩
  unfold magnitude at h
  rw [hexpo] at h
  split at h
  · exact h
  · exact Nat.add_left_cancel (Nat.eq_of_mul_eq_mul_right (Nat.two_pow_pos _) h)

theorem magnitude_lt_inf (x : Double) : x.magnitude < 2 ^ 2100 := by
  have hlt := (word_fields x).2.1
  calc x.magnitude < 2 ^ 52 * 2 ^ x.expo := magnitude_lt x
    _ = 2 ^ (52 + x.expo) := (Nat.pow_add ..).symm
    _ ≤ 2 ^ 2100 := Nat.pow_le_pow_right (by decide) (by omega)

/-- The magnitude by which `compare` orders, above all the finite ones for an infinity. -/
def size (x : Double) : Nat := if x.isInf then 2 ^ 2100 else x.magnitude

theorem key_eq (x : Double) : compare.key x = if x.isNeg then -(x.size : Int) else x.size := by
  unfold compare.key size scaled
  cases x.isInf <;> cases x.isNeg <;> rfl

theorem magnitude_eq_zero_iff (x : Double) : x.magnitude = 0 ↔ x.size = 0 := by
  unfold size
  split
  · next h =>
    simp only [isInf, Bool.and_eq_true, beq_iff_eq] at h
    refine ⟨fun hx => absurd hx ?_, fun hx => absurd hx (Nat.two_pow_pos 2100).ne'⟩
    have hge := magnitude_ge (x := x) (by omega)
    exact (Nat.lt_of_lt_of_le (Nat.mul_pos (by decide) (Nat.two_pow_pos _)) hge).ne'
  · rfl

theorem fields_of_size {x y : Double} (h : x.size = y.size) : x.expo = y.expo ∧ x.frac = y.frac := by
  have hxlt := magnitude_lt_inf x
  have hylt := magnitude_lt_inf y
  unfold size at h
  cases hxi : x.isInf with
  | true =>
    cases hyi : y.isInf with
    | true =>
      simp only [isInf, Bool.and_eq_true, beq_iff_eq] at hxi hyi
      exact ⟨hxi.1.trans hyi.1.symm, hxi.2.trans hyi.2.symm⟩
    | false =>
      rw [hxi, hyi, if_pos rfl, if_neg Bool.false_ne_true] at h
      exact absurd h hylt.ne'
  | false =>
    cases hyi : y.isInf with
    | true =>
      rw [hxi, hyi, if_neg Bool.false_ne_true, if_pos rfl] at h
      exact absurd h hxlt.ne
    | false =>
      rw [hxi, hyi] at h
      exact fields_of_magnitude h

theorem size_of_key {x y : Double} (h : compare.key x = compare.key y) :
    x.size = y.size ∧ (x.isNeg = y.isNeg ∨ x.size = 0) := by
  rw [key_eq, key_eq] at h
  cases hx : x.isNeg <;> cases hy : y.isNeg <;> simp only [hx, hy] at h ⊢ <;> grind

/-- The equality of C holds of equal words and of two zeros, whatever their signs. -/
theorem beq_eq_true_iff {x y : Double} (hx : x.isNaN = false) (hy : y.isNaN = false) :
    x.beq y = true ↔ x = y ∨ (x.magnitude = 0 ∧ y.magnitude = 0) := by
  have hkey : x.beq y = true ↔ compare.key x = compare.key y := by
    simp [beq, compare, hx, hy]
  rw [hkey, magnitude_eq_zero_iff, magnitude_eq_zero_iff]
  constructor
  · intro h
    obtain ⟨hsize, hneg | hzero⟩ := size_of_key h
    · obtain ⟨hexpo, hfrac⟩ := fields_of_size hsize
      exact .inl (ext_fields hneg hexpo hfrac)
    · exact .inr ⟨hzero, hsize ▸ hzero⟩
  · rintro (rfl | ⟨hx0, hy0⟩)
    · rfl
    · rw [key_eq, key_eq, hx0, hy0]
      simp

/-! The sign. -/

theorem expo_neg (x : Double) : x.neg.expo = x.expo := by
  have hdiv : (x.word ^^^ BitVec.ofNat 64 (2 ^ 63)).toNat / 2 ^ 52 % 2 ^ 11 =
      x.word.toNat / 2 ^ 52 % 2 ^ 11 := by
    rw [BitVec.toNat_xor, Nat.xor_div_two_pow, Nat.xor_mod_two_pow,
      show (BitVec.ofNat 64 (2 ^ 63)).toNat / 2 ^ 52 % 2 ^ 11 = 0 from rfl, Nat.xor_zero]
  exact hdiv

theorem frac_neg (x : Double) : x.neg.frac = x.frac := by
  have hmod : (x.word ^^^ BitVec.ofNat 64 (2 ^ 63)).toNat % 2 ^ 52 = x.word.toNat % 2 ^ 52 := by
    rw [BitVec.toNat_xor, Nat.xor_mod_two_pow,
      show (BitVec.ofNat 64 (2 ^ 63)).toNat % 2 ^ 52 = 0 from rfl, Nat.xor_zero]
  exact hmod

theorem neg_neg (x : Double) : x.neg.neg = x := by
  unfold neg
  dsimp only
  rw [BitVec.xor_assoc, BitVec.xor_self, BitVec.xor_zero]

theorem isNeg_neg (x : Double) : x.neg.isNeg = !x.isNeg := by
  unfold isNeg neg
  dsimp only
  rw [BitVec.msb_xor, show (BitVec.ofNat 64 (2 ^ 63)).msb = true from rfl, Bool.xor_true]

theorem neg_ne (x : Double) : x.neg ≠ x := by
  intro h
  have hsign := isNeg_neg x
  rw [h] at hsign
  cases hx : x.isNeg <;> rw [hx] at hsign <;> cases hsign

theorem isNaN_neg (x : Double) : x.neg.isNaN = x.isNaN := by
  rw [isNaN, isNaN, expo_neg, frac_neg]

theorem magnitude_neg (x : Double) : x.neg.magnitude = x.magnitude := by
  rw [magnitude, magnitude, expo_neg, frac_neg]

/-- There are two zeros. -/
theorem eq_or_neg_of_zero {x y : Double} (hx : x.magnitude = 0) (hy : y.magnitude = 0) :
    x = y ∨ x = y.neg := by
  have hsize (z : Double) (hz : z.magnitude = 0) : z.size = 0 := (magnitude_eq_zero_iff z).mp hz
  have hsame {z : Double} (hz : z.magnitude = 0) (hsign : x.isNeg = z.isNeg) : x = z := by
    obtain ⟨hexpo, hfrac⟩ := fields_of_size ((hsize x hx).trans (hsize z hz).symm)
    exact ext_fields hsign hexpo hfrac
  by_cases hsign : x.isNeg = y.isNeg
  · exact .inl (hsame hy hsign)
  · refine .inr (hsame ((magnitude_neg y).trans hy) ?_)
    rw [isNeg_neg]
    cases hx : x.isNeg <;> cases hy : y.isNeg <;> simp_all


end Double

end Aer.Data
