import Aer.Json.Encode
import Aer.Json.Exact

set_option linter.all false

/-! The encoder's output is JSON: the leaves. -/
namespace Aer.Json

open Aer.Data Aer.Memory

/-! Numbers. -/

theorem digit_of_digitChar {d : Nat} (h : d < 10) :
    isDigit ((Nat.digitChar d).toNat.toUInt8) = true ∧ digitVal ((Nat.digitChar d).toNat.toUInt8) = d ∧
      (0 < d → (Nat.digitChar d).toNat.toUInt8 ≠ byte '0') := by
  have : ∀ d : Fin 10, isDigit ((Nat.digitChar d).toNat.toUInt8) = true ∧
      digitVal ((Nat.digitChar d).toNat.toUInt8) = d ∧
        (0 < d.val → (Nat.digitChar d).toNat.toUInt8 ≠ byte '0') := by decide
  exact this ⟨d, h⟩

theorem natText_of_lt {n : Nat} (h : n < 10) : natText n = [(Nat.digitChar n).toNat.toUInt8] := by
  rw [natText, Nat.toDigits_of_lt_base h]
  rfl

theorem natText_of_le {n : Nat} (h : 10 ≤ n) :
    natText n = natText (n / 10) ++ [(Nat.digitChar (n % 10)).toNat.toUInt8] := by
  rw [natText, Nat.toDigits_of_base_le (by decide) h, List.map_append]
  rfl

theorem digitsVal_natText (n : Nat) : digitsVal 10 (natText n) = n := by
  induction n using Nat.strongRecOn with
  | ind n ih =>
    rcases Nat.lt_or_ge n 10 with h | h
    · rw [natText_of_lt h]
      simp [digitsVal, (digit_of_digitChar h).2.1]
    · have hmod := digit_of_digitChar (Nat.mod_lt n (show 0 < 10 by decide))
      have := ih (n / 10) (by omega)
      rw [natText_of_le h, digitsVal, List.foldl_append, ← digitsVal, this, List.foldl_cons,
        List.foldl_nil, hmod.2.1]
      omega

theorem natText_pos {n : Nat} (h : 0 < n) :
    ∃ d ds, natText n = d :: ds ∧ isDigit d = true ∧ d ≠ byte '0' ∧ AllDigits ds := by
  induction n using Nat.strongRecOn with
  | ind n ih =>
    rcases Nat.lt_or_ge n 10 with hlt | hge
    · have hd := digit_of_digitChar hlt
      exact ⟨_, [], natText_of_lt hlt, hd.1, hd.2.2 h, by simp [AllDigits]⟩
    · obtain ⟨d, ds, hds, hd, hne, hall⟩ := ih (n / 10) (by omega) (by omega)
      have hmod := digit_of_digitChar (Nat.mod_lt n (show 0 < 10 by decide))
      refine ⟨d, ds ++ [_], by rw [natText_of_le hge, hds, List.cons_append], hd, hne, ?_⟩
      intro c hc
      rcases List.mem_append.mp hc with hc | hc
      · exact hall c hc
      · rw [List.mem_singleton.mp hc]
        exact hmod.1

theorem isInteger_natText (n : Nat) : IsInteger (natText n) := by
  rcases Nat.eq_zero_or_pos n with rfl | h
  · exact .zero
  · obtain ⟨d, ds, hds, hd, hne, hall⟩ := natText_pos h
    rw [hds]
    exact .digits hd hne hall

theorem isSigned_intText (n : Int) : IsSigned (intText n) := by
  unfold intText
  split
  · exact .minus (isInteger_natText _)
  · exact .plus (isInteger_natText _)

theorem integerValue_intText (n : Int) : integerValue (intText n) = n := by
  unfold intText
  split
  · show -(digitsVal 10 (natText n.natAbs) : Int) = n
    rw [digitsVal_natText]
    omega
  · obtain ⟨hall, hne⟩ := digits_of_isInteger (isInteger_natText n.natAbs)
    have hval : integerValue (natText n.natAbs) = digitsVal 10 (natText n.natAbs) := by
      obtain ⟨c, t, h⟩ := List.exists_cons_of_ne_nil hne
      rw [h] at hall ⊢
      exact if_neg (isDigit_ne (hall c List.mem_cons_self) (by decide))
    rw [hval, digitsVal_natText]
    omega

theorem value_intText {n : Int} (h : IsLong n) (r : Bytes) :
    Value rfc8259Long (.integer n) (intText n ++ r) r := by
  refine .integer (isSigned_intText n) ?_ r
  simp only [rfc8259Long, integerValue_intText]
  exact if_pos h

/-! Strings. -/

theorem hexUnit_control : ∀ b : UInt8, b < 0x20 → hexUnit (hexText4 b) = some [b] :=
  forall_byte (by decide +kernel)

theorem chars_encodeByte {t m r : Bytes} (b : UInt8) (h : Chars rfc8259Long t m r) :
    Chars rfc8259Long (jsonEncodeByte b ++ t) (b :: m) r := by
  unfold jsonEncodeByte
  split_ifs with h₁ h₂ h₃ h₄ h₅ h₆ h₇ h₈
  · exact h₁ ▸ .escape (by decide) h
  · exact h₂ ▸ .escape (by decide) h
  · exact h₃ ▸ .escape (by decide) h
  · exact h₄ ▸ .escape (by decide) h
  · exact h₅ ▸ .escape (by decide) h
  · exact h₆ ▸ .escape (by decide) h
  · exact h₇ ▸ .escape (by decide) h
  · exact .unit (q := hexText4 b) rfl (hexUnit_control b h₈) h
  · exact .plain h₁ h₂ (UInt8.not_lt.mp h₈) h

theorem chars_encoded (s r : Bytes) :
    Chars rfc8259Long (s.flatMap jsonEncodeByte ++ quote :: r) s r := by
  induction s with
  | nil => exact .close r
  | cons b s ih =>
    rw [List.flatMap_cons, List.append_assoc]
    exact chars_encodeByte b ih

/-- The text of a string. -/
def stringText (s : Bytes) : Bytes := quote :: s.flatMap jsonEncodeByte ++ [quote]

theorem jsonEncodeString_eq (b s : Bytes) : jsonEncodeString b s = b ++ stringText s := by
  simp [jsonEncodeString, stringText, quote]

theorem stringText_append (s r : Bytes) :
    stringText s ++ r = quote :: (s.flatMap jsonEncodeByte ++ quote :: r) := by
  simp [stringText]

theorem shortEscapes_unique {x y : UInt8 × UInt8} (hx : x ∈ shortEscapes) (hy : y ∈ shortEscapes)
    (h : x.1 = y.1) : x.2 = y.2 := by
  have hall : (shortEscapes.all fun x => shortEscapes.all fun y => x.1 != y.1 || x.2 == y.2) = true := by
    decide
  have hxy := List.all_eq_true.mp (List.all_eq_true.mp hall x hx) y hy
  rw [h, bne_self_eq_false, Bool.false_or] at hxy
  exact beq_iff_eq.mp hxy

theorem shortEscapes_not_unit {x : UInt8 × UInt8} (hx : x ∈ shortEscapes) : x.1 ≠ byte 'u' := by
  have hall : (shortEscapes.all fun x => x.1 != byte 'u') = true := by decide
  exact bne_iff_ne.mp (List.all_eq_true.mp hall x hx)

theorem Chars.unique {d : Dialect} {t m r m' r' : Bytes} (h : Chars d t m r) (h' : Chars d t m' r') :
    m = m' ∧ r = r' := by
  have hne : quote ≠ backslash := by decide
  induction h generalizing m' r' with
  | close r =>
    generalize htext : quote :: r = t at h'
    cases h' with
    | close => exact ⟨rfl, (List.cons.inj htext).2⟩
    | plain hq => exact absurd (List.cons.inj htext).1.symm hq
    | escape | unit => exact absurd (List.cons.inj htext).1 hne
  | @plain b t m r hq hb _ _ ih =>
    generalize htext : b :: t = u at h'
    cases h' with
    | close => exact absurd (List.cons.inj htext).1 hq
    | plain _ _ _ h' =>
      obtain ⟨rfl, rfl⟩ := List.cons.inj htext
      obtain ⟨rfl, rfl⟩ := ih h'
      exact ⟨rfl, rfl⟩
    | escape | unit => exact absurd (List.cons.inj htext).1 hb
  | @escape e b t m r he _ ih =>
    generalize htext : backslash :: e :: t = u at h'
    cases h' with
    | close => exact absurd (List.cons.inj htext).1.symm hne
    | plain _ hb => exact absurd (List.cons.inj htext).1.symm hb
    | escape he' h' =>
      obtain ⟨rfl, rfl⟩ := List.cons.inj (List.cons.inj htext).2
      obtain ⟨rfl, rfl⟩ := ih h'
      exact ⟨congrArg (· :: m) (shortEscapes_unique he he' rfl), rfl⟩
    | unit => exact absurd (List.cons.inj (List.cons.inj htext).2).1 (shortEscapes_not_unit he)
  | @unit q u t m r hq hu _ ih =>
    generalize htext : backslash :: byte 'u' :: (q ++ t) = v at h'
    cases h' with
    | close => exact absurd (List.cons.inj htext).1.symm hne
    | plain _ hb => exact absurd (List.cons.inj htext).1.symm hb
    | escape he' =>
      exact absurd (List.cons.inj (List.cons.inj htext).2).1.symm (shortEscapes_not_unit he')
    | unit hq' hu' h' =>
      have hrest := (List.cons.inj (List.cons.inj htext).2).2
      obtain ⟨rfl, rfl⟩ := List.append_inj hrest (hq.trans hq'.symm)
      obtain ⟨rfl, rfl⟩ := ih h'
      exact ⟨congrArg (· ++ m) (Option.some.inj (hu.symm.trans hu')), rfl⟩

/-- What stands behind the text of a string begins where the text ends. -/
theorem stringText_inj {s s' r r' : Bytes} (h : stringText s ++ r = stringText s' ++ r') :
    s = s' ∧ r = r' := by
  rw [stringText_append, stringText_append] at h
  have hchars := chars_encoded s' r'
  rw [← (List.cons.inj h).2] at hchars
  exact (chars_encoded s r).unique hchars

/-! Containers. -/

def joinCommas : Bool → List Bytes → Bytes
  | _, [] => []
  | first, t :: ts => (if first then t else byte ',' :: t) ++ joinCommas false ts

theorem joinCommas_cons (t : Bytes) {ts : List Bytes} (h : ts ≠ []) :
    joinCommas true (t :: ts) = t ++ byte ',' :: joinCommas true ts := by
  obtain ⟨u, ts, rfl⟩ := List.exists_cons_of_ne_nil h
  simp [joinCommas]

theorem encodeAll_eq {α : Type} {f : α → Bytes → EncodeResult} {xs : List α} {text : α → Bytes}
    (h : ∀ x ∈ xs, ∀ b, f x b = some (true, b ++ text x)) (first : Bool) (b : Bytes) :
    encodeAll f first xs b = some (true, b ++ joinCommas first (xs.map text)) := by
  induction xs generalizing first b with
  | nil => simp [encodeAll, joinCommas]
  | cons x xs ih =>
    have hx := h x List.mem_cons_self
    have ih := ih fun y hy => h y (List.mem_cons_of_mem _ hy)
    cases first <;> simp [encodeAll, hx, ih, joinCommas]

theorem derives_items {d : Dialect} {ρ : Type} {js : ρ → Tree} {text : ρ → Bytes} (x : ρ)
    (xs : List ρ) (r : Bytes) (h : ∀ y ∈ x :: xs, ∀ r, Value d (js y) (text y ++ r) r) :
    Derives d (.items ((x :: xs).map js))
      (joinCommas true ((x :: xs).map text) ++ byte ']' :: r) r := by
  induction xs generalizing x with
  | nil =>
    have : joinCommas true ([x].map text) = text x := by simp [joinCommas]
    rw [this]
    exact .lastItem (.none _) (h x List.mem_cons_self _) (.none _)
  | cons y ys ih =>
    rw [List.map_cons, List.map_cons (l := y :: ys), joinCommas_cons _ (by simp), List.append_assoc]
    exact .nextItem (.none _) (h x List.mem_cons_self _) (.none _)
      (ih y fun z hz => h z (List.mem_cons_of_mem _ hz))

/-- The text of a member. -/
def memberText (k t : Bytes) : Bytes := stringText k ++ byte ':' :: t

theorem derives_members {d : Dialect} (hd : rfc8259Long.Within d) {ρ : Type} (ms : ρ → Bytes × Tree)
    (text : ρ → Bytes) (x : ρ) (xs : List ρ) (r : Bytes)
    (h : ∀ y ∈ x :: xs, ∀ r, Value d (ms y).2 (text y ++ r) r) :
    Derives d (.members ((x :: xs).map ms))
      (joinCommas true ((x :: xs).map fun y => memberText (ms y).1 (text y)) ++ byte '}' :: r) r := by
  induction xs generalizing x with
  | nil =>
    have : joinCommas true ([x].map fun y => memberText (ms y).1 (text y)) =
        memberText (ms x).1 (text x) := by simp [joinCommas]
    rw [this, memberText, List.append_assoc, stringText_append]
    exact .lastMember (.none _) ((chars_encoded _ _).within hd) (.none _) (.none _)
      (h x List.mem_cons_self _) (.none _)
  | cons y ys ih =>
    rw [List.map_cons, List.map_cons (l := y :: ys), joinCommas_cons _ (by simp), List.append_assoc,
      memberText, List.append_assoc, stringText_append]
    exact .nextMember (.none _) ((chars_encoded _ _).within hd) (.none _) (.none _)
      (h x List.mem_cons_self _) (.none _) (ih y fun z hz => h z (List.mem_cons_of_mem _ hz))

end Aer.Json
