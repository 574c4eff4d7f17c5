import Aer.Json.Meaning
import Mathlib.Data.Nat.Bitwise

set_option linter.all false

/-! The dialect of the decoder against RFC 8259, and the texts on which the difference
does not show. -/
namespace Aer.Json

open Aer.Data Aer.Memory Aer.Memory.Heap Aer.Lib.Scan

/-! Four hexadecimal digits. -/

theorem jsonCodeBytes_eq {code : Nat} (h : code < 2 ^ 16) : jsonCodeBytes code = utf8 code := by
  have hlow : ∀ n, 0x80 ||| (n &&& 0x3F) = 0x80 + n % 64 := fun n => by
    rw [show 0x3F = 2 ^ 6 - 1 by rfl, Nat.and_two_pow_sub_one_eq_mod]
    exact (Nat.two_pow_add_eq_or_of_lt (i := 7) ((Nat.mod_lt n (by decide)).trans (by decide)) 1).symm
  unfold jsonCodeBytes utf8
  simp only [hlow, Nat.shiftRight_eq_div_pow]
  split
  · rfl
  · split
    · have hhigh : 0xC0 ||| code / 2 ^ 6 = 0xC0 + code / 64 :=
        (Nat.two_pow_add_eq_or_of_lt (i := 6) (show code / 2 ^ 6 < 2 ^ 6 by omega) 3).symm
      rw [hhigh]
    · have hhigh : 0xE0 ||| code / 2 ^ 12 = 0xE0 + code / 4096 :=
        (Nat.two_pow_add_eq_or_of_lt (i := 5) (show code / 2 ^ 12 < 2 ^ 5 by omega) 7).symm
      rw [hhigh]

theorem isHex_ne {b c : UInt8} (h : isHex b = true) (hc : isHex c = false) : b ≠ c := by
  rintro rfl
  rw [h] at hc
  cases hc

/-- Text that starts with no blank and no sign. -/
theorem splitSign_eq {c : UInt8} {t : Bytes} (hs : isSpace c = false) (hm : c ≠ byte '-')
    (hp : c ≠ byte '+') : splitSign (c :: t) = (false, c :: t) := by
  simp only [splitSign, List.dropWhile_cons, hs, Bool.false_eq_true, ↓reduceIte, hm, hp]

theorem isSpace_of_isHex {b : UInt8} : isHex b = true → isSpace b = false :=
  forall_byte (p := fun b => isHex b = true → isSpace b = false) (by decide +kernel) b

theorem strtoul16_hex {q : Bytes} (hq : q.all isHex = true) (hne : q ≠ []) :
    strtoul16 q = digitsVal 16 q := by
  obtain ⟨c, t, rfl⟩ := List.exists_cons_of_ne_nil hne
  have hc : isHex c = true := List.all_eq_true.mp hq c List.mem_cons_self
  have hsplit := splitSign_eq (t := t) (isSpace_of_isHex hc) (isHex_ne hc (by decide))
    (isHex_ne hc (by decide))
  have hall : ∀ b ∈ c :: t, isDigitOf 16 b = true := List.all_eq_true.mp hq
  have hbegins : ∀ x, isHex x = false → (c :: t).take 2 ≠ [byte '0', x] := by
    rintro x hx h
    have hmem : x ∈ c :: t := List.mem_of_mem_take (i := 2) (by rw [h]; simp)
    rw [show isHex x = true from hall x hmem] at hx
    cases hx
  unfold strtoul16
  simp only [hsplit, Bool.false_eq_true, ↓reduceIte]
  rw [if_neg (by
    rintro ⟨h | h, -⟩
    · exact hbegins (byte 'x') (by decide) h
    · exact hbegins (byte 'X') (by decide) h), List.takeWhile_eq_self_iff.mpr hall]

theorem digitVal_lt_of_isHex {b : UInt8} (h : isHex b = true) : digitVal b < 16 := by
  simpa [isHex, isDigitOf] using h

theorem hexUnit_eq {q u : Bytes} (hq : q.length = 4) (h : hexUnit q = some u) :
    jsonCodeBytes (strtoul16 q) = u := by
  unfold hexUnit at h
  split at h
  · rename_i hall
    obtain rfl := Option.some.inj h
    rw [strtoul16_hex hall (List.ne_nil_of_length_eq_add_one hq), jsonCodeBytes_eq]
    match q, hq with
    | [a, b, c, d], _ =>
      have hlt : ∀ x ∈ [a, b, c, d], digitVal x < 16 := fun x hx =>
        digitVal_lt_of_isHex (List.all_eq_true.mp hall x hx)
      have ha := hlt a (by simp)
      have hb := hlt b (by simp)
      have hc := hlt c (by simp)
      have hd := hlt d (by simp)
      simp only [digitsVal, List.foldl_cons, List.foldl_nil]
      omega
  · cases h

/-! Integer literals. -/

theorem digitsVal_cons (d : UInt8) (ds : Bytes) :
    digitsVal 10 (d :: ds) = digitVal d * 10 ^ ds.length + digitsVal 10 ds := by
  have hfold : ∀ (ds : Bytes) (a : Nat),
      ds.foldl (fun n c => n * 10 + digitVal c) a = a * 10 ^ ds.length + digitsVal 10 ds := by
    intro ds
    induction ds with
    | nil => intro a; simp [digitsVal]
    | cons c ds ih =>
      intro a
      have hzero : digitsVal 10 (c :: ds) = (0 * 10 + digitVal c) * 10 ^ ds.length + digitsVal 10 ds :=
        ih _
      rw [List.foldl_cons, ih, hzero, List.length_cons, pow_succ]
      ring
  rw [digitsVal, List.foldl_cons, hfold]
  simp

theorem digitVal_pos {d : UInt8} : isDigit d = true → d ≠ byte '0' → 0 < digitVal d :=
  forall_byte (p := fun d => isDigit d = true → d ≠ byte '0' → 0 < digitVal d)
    (by decide +kernel) d

/-- An integer literal without its sign. -/
theorem digits_of_isInteger {i : Bytes} (h : IsInteger i) : AllDigits i ∧ i ≠ [] := by
  cases h with
  | zero => exact ⟨by simp [AllDigits]; decide, by simp⟩
  | digits hd _ hds => exact ⟨List.forall_mem_cons.mpr ⟨hd, hds⟩, by simp⟩

/-- A literal of many digits is large. -/
theorem pow_le_digitsVal {i : Bytes} (h : IsInteger i) (hlen : 2 ≤ i.length) :
    10 ^ (i.length - 1) ≤ digitsVal 10 i := by
  cases h with
  | zero => simp at hlen
  | @digits d ds hd hne _ =>
    rw [digitsVal_cons, List.length_cons, Nat.add_sub_cancel]
    have := Nat.le_mul_of_pos_left (10 ^ ds.length) (digitVal_pos hd hne)
    omega

theorem isSpace_of_isDigit {b : UInt8} : isDigit b = true → isSpace b = false :=
  forall_byte (p := fun b => isDigit b = true → isSpace b = false) (by decide +kernel) b

theorem isDigit_ne {b c : UInt8} (h : isDigit b = true) (hc : isDigit c = false) : b ≠ c := by
  rintro rfl
  rw [h] at hc
  cases hc

theorem strtoll_digits {i : Bytes} (hi : AllDigits i) (hne : i ≠ []) :
    strtoll i = min (2 ^ 63 - 1) (digitsVal 10 i : Int) := by
  obtain ⟨c, t, rfl⟩ := List.exists_cons_of_ne_nil hne
  have hc : isDigit c = true := hi c List.mem_cons_self
  have hsplit := splitSign_eq (t := t) (isSpace_of_isDigit hc) (isDigit_ne hc (by decide))
    (isDigit_ne hc (by decide))
  simp only [strtoll, hsplit, Bool.false_eq_true, ↓reduceIte, List.takeWhile_eq_self_iff.mpr hi]

theorem strtoll_minus {i : Bytes} (hi : AllDigits i) :
    strtoll (byte '-' :: i) = max (-2 ^ 63) (-(digitsVal 10 i : Int)) := by
  have hsplit : splitSign (byte '-' :: i) = (true, i) := rfl
  simp only [strtoll, hsplit, ↓reduceIte, List.takeWhile_eq_self_iff.mpr hi]

/-- A literal whose value fits 64 bits is converted to it. -/
theorem strtoll_cutLiteral {l : Bytes} (hl : IsSigned l) (h : IsLong (integerValue l)) :
    strtoll (cutLiteral l) = integerValue l := by
  -- A literal past the buffer has a value far outside.
  have hshort : ∀ i, IsInteger i → (digitsVal 10 i : Int) ≤ 2 ^ 63 → i.length < 63 := by
    intro i hi hle
    by_contra hlong
    have hpow := pow_le_digitsVal hi (by omega)
    have : 10 ^ 62 ≤ 10 ^ (i.length - 1) := Nat.pow_le_pow_right (by decide) (by omega)
    omega
  unfold IsLong at h
  cases hl with
  | plus hi =>
    obtain ⟨hall, hne⟩ := digits_of_isInteger hi
    have hval : integerValue l = digitsVal 10 l := by
      obtain ⟨c, t, rfl⟩ := List.exists_cons_of_ne_nil hne
      exact if_neg (isDigit_ne (hall c List.mem_cons_self) (by decide))
    rw [hval] at h ⊢
    have := hshort l hi (by omega)
    rw [cutLiteral, if_neg (by omega), List.take_length, strtoll_digits hall hne]
    omega
  | @minus i hi =>
    obtain ⟨hall, -⟩ := digits_of_isInteger hi
    have hval : integerValue (byte '-' :: i) = -digitsVal 10 i := rfl
    rw [hval] at h ⊢
    have := hshort i hi (by omega)
    rw [cutLiteral, if_neg (by rw [List.length_cons]; omega), List.take_length, strtoll_minus hall]
    omega

theorem rfc8259Long_within_lenient : rfc8259Long.Within lenient where
  plain _ _ := trivial
  unit _ _ hq h := congrArg some (hexUnit_eq hq h)
  integer l n hl h := by
    simp only [rfc8259Long, Option.ite_none_right_eq_some, Option.some.injEq] at h
    obtain ⟨hfit, rfl⟩ := h
    exact congrArg some (strtoll_cutLiteral hl hfit)

/-! Every text of RFC 8259 has the form of the decoder's dialect. -/

/-- The same kind of phrase. -/
inductive Alike : Phrase → Phrase → Prop
  | value (j k : Tree) : Alike (.value j) (.value k)
  | items (js ks : List Tree) : Alike (.items js) (.items ks)
  | members (ms ks : List (Bytes × Tree)) : Alike (.members ms) (.members ks)

theorem exists_chars_lenient {d : Dialect} {t m r : Bytes} (h : Chars d t m r) :
    ∃ m', Chars lenient t m' r := by
  induction h with
  | close r => exact ⟨_, .close r⟩
  | plain hq hb _ _ ih => exact ih.elim fun m hm => ⟨_, .plain hq hb trivial hm⟩
  | escape he _ ih => exact ih.elim fun m hm => ⟨_, .escape he hm⟩
  | unit hq _ _ ih => exact ih.elim fun m hm => ⟨_, .unit hq rfl hm⟩

theorem exists_derives_lenient {d : Dialect} {x : Phrase} {t r : Bytes} (h : Derives d x t r) :
    ∃ y, Alike x y ∧ Derives lenient y t r := by
  induction h with
  | null r => exact ⟨_, .value _ _, .null r⟩
  | true r => exact ⟨_, .value _ _, .true r⟩
  | false r => exact ⟨_, .value _ _, .false r⟩
  | integer hl _ r => exact ⟨_, .value _ _, .integer hl rfl r⟩
  | real hl r => exact ⟨_, .value _ _, .real hl r⟩
  | string hm => exact (exists_chars_lenient hm).elim fun m hm => ⟨_, .value _ _, .string hm⟩
  | emptyArray h => exact ⟨_, .value _ _, .emptyArray h⟩
  | array _ ih =>
    obtain ⟨_, ⟨⟩, h⟩ := ih
    exact ⟨_, .value _ _, .array h⟩
  | emptyObject h => exact ⟨_, .value _ _, .emptyObject h⟩
  | object _ ih =>
    obtain ⟨_, ⟨⟩, h⟩ := ih
    exact ⟨_, .value _ _, .object h⟩
  | lastItem h₁ _ h₂ ih =>
    obtain ⟨_, ⟨⟩, h⟩ := ih
    exact ⟨_, .items _ _, .lastItem h₁ h h₂⟩
  | nextItem h₁ _ h₂ _ ih ihs =>
    obtain ⟨_, ⟨⟩, h⟩ := ih
    obtain ⟨_, ⟨⟩, hs⟩ := ihs
    exact ⟨_, .items _ _, .nextItem h₁ h h₂ hs⟩
  | lastMember h₁ hk h₂ h₃ _ h₄ ih =>
    obtain ⟨_, ⟨⟩, h⟩ := ih
    obtain ⟨_, hk⟩ := exists_chars_lenient hk
    exact ⟨_, .members _ _, .lastMember h₁ hk h₂ h₃ h h₄⟩
  | nextMember h₁ hk h₂ h₃ _ h₄ _ ih ihs =>
    obtain ⟨_, ⟨⟩, h⟩ := ih
    obtain ⟨_, ⟨⟩, hs⟩ := ihs
    obtain ⟨_, hk⟩ := exists_chars_lenient hk
    exact ⟨_, .members _ _, .nextMember h₁ hk h₂ h₃ h h₄ hs⟩

theorem exists_text_lenient {d : Dialect} {s : Bytes} {j : Tree} (h : Text d s j) :
    ∃ k, Text lenient s k := by
  obtain ⟨t, r, ht, hj, hr⟩ := h
  obtain ⟨_, ⟨⟩, hk⟩ := exists_derives_lenient hj
  exact ⟨_, t, r, ht, hk, hr⟩

/-! The decoder and the standard. -/

/-- The decoder takes exactly the texts of RFC 8259, and each with its value, the
integers as they stand. -/
structure DecodesExactly (heap : Heap) (s : Bytes) : Prop where
  accepts : (∃ v p, jsonDecode (s.length + 1) heap s = .ok (v, p) ∧ p.err = none) ↔
    ∃ j, Text rfc8259 s j
  integers : ∀ v p, jsonDecode (s.length + 1) heap s = .ok (v, p) → p.err = none →
    ∃ j, Text rfc8259Long s j ∧ Denotes heap.Live p.heap v j

/-- Wherever the text has the form of the decoder's dialect, it is JSON in which the
integers fit 64 bits. -/
def IsPlain (s : Bytes) : Prop :=
  (∃ j, Text lenient s j) → ∃ j, Text rfc8259Long s j

theorem decodesExactly_iff {heap : Heap} {s : Bytes} (hw : heap.PoolsWf) (hs : s.length < 2 ^ 32) :
    DecodesExactly heap s ↔ IsPlain s := by
  constructor
  · rintro ⟨-, hints⟩ ⟨j, hj⟩
    obtain ⟨v, p, hp, herr, -⟩ := hj.decodes hs hw (Nat.lt_succ_self _)
    obtain ⟨k, hk, -⟩ := hints v p hp herr
    exact ⟨k, hk⟩
  · intro hplain
    have hlong : ∀ v p, jsonDecode (s.length + 1) heap s = .ok (v, p) → p.err = none →
        ∃ j, Text rfc8259Long s j := by
      intro v p hp herr
      have hd : Decoded s (v, p) := (sat_jsonDecode heap s (Nat.lt_succ_self _)).of_ok hp
      rcases hd.2 with ⟨-, -, hj⟩ | ⟨he, -⟩
      · exact hplain hj
      · rw [herr] at he
        cases he
    constructor
    · constructor
      · rintro ⟨v, p, hp, herr⟩
        exact (hlong v p hp herr).imp fun j hj => hj.within rfc8259Long_within
      · rintro ⟨j, hj⟩
        obtain ⟨k, hk⟩ := exists_text_lenient hj
        obtain ⟨v, p, hp, herr, -⟩ := hk.decodes hs hw (Nat.lt_succ_self _)
        exact ⟨v, p, hp, herr⟩
    · intro v p hp herr
      obtain ⟨j, hj⟩ := hlong v p hp herr
      obtain ⟨v', p', hp', -, -, -, hd⟩ :=
        (hj.within rfc8259Long_within_lenient).decodes hs hw (Nat.lt_succ_self _)
      rw [hp] at hp'
      cases hp'
      exact ⟨j, hj, hd⟩

theorem decodesExactly_iff_sample :
    DecodesExactly .init (bytes "[-1, \"a\"]") ↔ IsPlain (bytes "[-1, \"a\"]") :=
  decodesExactly_iff poolsWf_init (by decide)

/-- A value that starts with a quote is a string. -/
theorem chars_of_quote {d : Dialect} {j : Tree} {t r : Bytes} (h : Value d j (quote :: t) r) :
    ∃ m, Chars d t m r := by
  generalize hx : quote :: t = x at h
  cases h with
  | string hm =>
    cases hx
    exact ⟨_, hm⟩
  | null | true | false | emptyArray _ | array _ | emptyObject _ | object _ =>
    exact absurd (List.cons.inj hx).1 (by decide)
  | integer hl _ _ =>
    obtain ⟨b, u, h, hb⟩ := hl.starts r
    exact absurd (List.cons.inj (hx.trans h)).1 (hb.ne (by decide) (by decide)).symm
  | real hl _ =>
    obtain ⟨b, u, h, hb⟩ := hl.starts r
    exact absurd (List.cons.inj (hx.trans h)).1 (hb.ne (by decide) (by decide)).symm

/-- A string of one control character, unescaped. -/
def controlText : Bytes := [quote, 1, quote]

theorem text_controlText : Text lenient controlText (.string [1]) :=
  ⟨controlText, [], .none _,
    .string (.plain (by decide) (by decide) trivial (.close [])), .none _⟩

theorem controlText_not_exact : ¬ DecodesExactly .init controlText := by
  intro h
  obtain ⟨v, p, hp, herr, -⟩ :=
    text_controlText.decodes (by decide) poolsWf_init (Nat.lt_succ_self _)
  obtain ⟨j, t, r, ht, hj, -⟩ := h.accepts.mp ⟨v, p, hp, herr⟩
  cases ht with
  | more hb _ => exact absurd hb (by decide)
  | none =>
    obtain ⟨m, hm⟩ := chars_of_quote hj
    generalize hx : [1, quote] = x at hm
    cases hm with
    | close r => exact absurd (List.cons.inj hx).1 (by decide)
    | plain _ _ hp _ =>
      rw [← (List.cons.inj hx).1] at hp
      exact absurd hp (by simp [rfc8259])
    | escape _ _ | unit _ _ _ => exact absurd (List.cons.inj hx).1 (by decide)

end Aer.Json
