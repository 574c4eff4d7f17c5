import Aer.Json.EncodedText

set_option linter.all false

/-! The text of a real: a JSON number for a finite one, and no start of any JSON value for
the others. -/
namespace Aer.Json

open Aer.Data

def IsNumber (l : Bytes) : Prop := IsSigned l ∨ IsReal l

/-- A sign, digits, and possibly a fraction and an exponent. -/
theorem isNumber_of_parts {i f e : Bytes} {fr : Bool} (ex : Bool) (hi : IsSigned i)
    (hf : Optional IsFraction fr f) (he : Optional IsExponent ex e) : IsNumber (i ++ f ++ e) := by
  cases fr with
  | false =>
    obtain rfl : f = [] := hf
    rw [List.append_nil]
    cases ex with
    | false =>
      obtain rfl : e = [] := he
      rw [List.append_nil]
      exact .inl hi
    | true => exact .inr (.exponent hi he)
  | true =>
    cases ex with
    | false =>
      obtain rfl : e = [] := he
      rw [List.append_nil]
      exact .inr (.fraction hi hf)
    | true => exact .inr (.both hi hf he)

/-! The digits. -/

theorem AllDigits.dropZeros {ds : Bytes} (h : AllDigits ds) : AllDigits (Double.dropZeros ds) := by
  intro d hd
  have hmem := (List.dropWhile_sublist _).subset (List.mem_reverse.mp hd)
  exact h d (List.mem_reverse.mp hmem)

theorem AllDigits.append {a b : Bytes} (ha : AllDigits a) (hb : AllDigits b) : AllDigits (a ++ b) :=
  fun d hd => (List.mem_append.mp hd).elim (ha d) (hb d)

theorem AllDigits.take {ds : Bytes} (h : AllDigits ds) (n : Nat) : AllDigits (ds.take n) :=
  fun d hd => h d (List.mem_of_mem_take hd)

theorem AllDigits.drop {ds : Bytes} (h : AllDigits ds) (n : Nat) : AllDigits (ds.drop n) :=
  fun d hd => h d (List.mem_of_mem_drop hd)

theorem allDigits_zeros (n : Nat) : AllDigits (List.replicate n (byte '0')) := by
  intro d hd
  rw [(List.mem_replicate.mp hd).2]
  decide

theorem IsInteger.take {i : Bytes} (h : IsInteger i) (n : Nat) : IsInteger (i.take (n + 1)) := by
  cases h with
  | zero =>
    rw [List.take_of_length_le (Nat.le_add_left 1 n)]
    exact .zero
  | digits hd hne hds => exact .digits hd hne (hds.take n)

theorem pointText_eq (whole : Bytes) {part : Bytes} (h : AllDigits part) :
    ∃ fr f, Double.pointText whole part = whole ++ f ∧ Optional IsFraction fr f := by
  unfold Double.pointText
  cases part with
  | nil => exact ⟨false, [], by simp, rfl⟩
  | cons d ds => exact ⟨true, byte '.' :: d :: ds, rfl, .mk (by simp) h⟩

theorem isExponent_expoText (e : Int) : IsExponent (Double.expoText e) := by
  obtain ⟨hall, hne⟩ := digits_of_isInteger (isInteger_natText e.natAbs)
  have hsign : ∀ b : Bool, [if b then byte '-' else byte '+'] = [byte '+'] ∨
      [if b then byte '-' else byte '+'] = [byte '-'] := by decide
  have hpadded : ∀ ds, ds ≠ [] → AllDigits ds →
      (if ds.length < 2 then byte '0' :: ds else ds) ≠ [] ∧
        AllDigits (if ds.length < 2 then byte '0' :: ds else ds) := by
    intro ds hds hall
    split
    · exact ⟨List.cons_ne_nil _ _, (allDigits_zeros 1).append hall⟩
    · exact ⟨hds, hall⟩
  obtain ⟨hne', hall'⟩ := hpadded _ hne hall
  refine .mk (s := [if e < 0 then byte '-' else byte '+']) (.inl rfl) (.inr ?_) hne' hall'
  simpa using hsign (decide (e < 0))

theorem isNumber_digitsText {sign digits : Bytes} (hs : sign = [] ∨ sign = [byte '-'])
    (hd : IsInteger digits) (e : Int) : IsNumber (sign ++ Double.digitsText digits e) := by
  have hsigned : ∀ i, IsInteger i → IsSigned (sign ++ i) := by
    intro i hi
    rcases hs with rfl | rfl
    · exact .plus hi
    · exact .minus hi
  obtain ⟨hall, hne⟩ := digits_of_isInteger hd
  unfold Double.digitsText
  split
  · obtain ⟨fr, f, heq, hf⟩ := pointText_eq (digits.take 1) (hall.drop 1).dropZeros
    rw [heq, ← List.append_assoc, ← List.append_assoc]
    exact isNumber_of_parts true (hsigned _ (hd.take 0)) hf (isExponent_expoText e)
  · split
    · obtain ⟨fr, f, heq, hf⟩ := pointText_eq [byte '0']
        ((allDigits_zeros (-e - 1).toNat).append hall.dropZeros)
      rw [heq, ← List.append_assoc, ← List.append_nil (_ ++ f)]
      exact isNumber_of_parts false (hsigned _ .zero) hf rfl
    · obtain ⟨fr, f, heq, hf⟩ := pointText_eq (digits.take (e.toNat + 1))
        (hall.drop (e.toNat + 1)).dropZeros
      rw [heq, ← List.append_assoc, ← List.append_nil (_ ++ f)]
      exact isNumber_of_parts false (hsigned _ (hd.take _)) hf rfl

/-- A real that is neither an infinity nor a NaN. -/
def IsFinite (x : Double) : Prop := x.isNaN = false ∧ x.isInf = false

theorem isNumber_formatG {x : Double} (h : IsFinite x) : IsNumber x.formatG := by
  have hs : ∀ b : Bool, (if b then [byte '-'] else []) = [] ∨
      (if b then [byte '-'] else []) = [byte '-'] := by decide
  have hsign := hs x.isNeg
  unfold Double.formatG
  rw [h.1, h.2]
  simp only [Bool.false_eq_true, ↓reduceIte]
  split
  · rcases hsign with hsign | hsign <;> rw [hsign]
    · exact .inl (.plus .zero)
    · exact .inl (.minus .zero)
  · split
    · exact isNumber_digitsText hsign (isInteger_natText _) _
    · exact isNumber_digitsText hsign (isInteger_natText _) _

end Aer.Json
