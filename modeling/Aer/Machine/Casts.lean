import Aer.Json.EncodedText
import Aer.Machine.DictLoop
import Aer.Machine.FloorDivision

set_option linter.all false

/-! The cast of strings to integers, which reads a copy of their first 63 bytes. -/
namespace Aer.Machine

open Aer.Data Aer.Memory Aer.Json Aer.Lib.Interaction

/-- A number as it begins a text: spaces, at most one sign and decimal digits. -/
structure Numeral where
  spaces : Bytes
  sign : Bytes
  digits : Bytes
  spaces_space : ∀ c ∈ spaces, isSpace c = true
  sign_sign : sign = [] ∨ sign = [byte '+'] ∨ sign = [byte '-']
  digits_digit : AllDigits digits

namespace Numeral

def text (n : Numeral) : Bytes := n.spaces ++ (n.sign ++ n.digits)

/-- The value; without digits it is 0. -/
def value (n : Numeral) : Int :=
  if n.sign = [byte '-'] then -digitsVal 10 n.digits else digitsVal 10 n.digits

/-- No longer number begins the text. -/
structure Longest (n : Numeral) (s : Bytes) : Prop where
  isPrefix : n.text <+: s
  longest : ∀ m : Numeral, m.text <+: s → m.text.length ≤ n.text.length

/-- The first `k` bytes of a number are one. -/
def take (n : Numeral) (k : Nat) : Numeral where
  spaces := n.spaces.take k
  sign := n.sign.take (k - n.spaces.length)
  digits := n.digits.take (k - n.spaces.length - n.sign.length)
  spaces_space c hc := n.spaces_space c (List.mem_of_mem_take hc)
  sign_sign := by
    rcases n.sign_sign with h | h | h <;> rw [h] <;> cases k - n.spaces.length <;> simp
  digits_digit := fun c hc => n.digits_digit c (List.mem_of_mem_take hc)

theorem text_take (n : Numeral) (k : Nat) : (n.take k).text = n.text.take k := by
  rw [text, text, List.take_append, List.take_append, take]

theorem natAbs_value (n : Numeral) : n.value.natAbs = digitsVal 10 n.digits := by
  unfold value
  split <;> simp

section Longest
variable {n : Numeral} {s rest : Bytes} {c : UInt8}

/-- What begins the text only has to begin it where the number is cut from it. -/
theorem Longest.of_prefix {t : Bytes} (h : n.Longest s) (hn : n.text <+: t) (ht : t <+: s) :
    n.Longest t :=
  ⟨hn, fun m hm => h.longest m (hm.trans ht)⟩

/-- The next byte makes no longer number. -/
theorem Longest.stops (h : n.Longest (n.text ++ c :: rest)) (m : Numeral) :
    m.text ≠ n.text ++ [c] := by
  intro hm
  have hlong := h.longest m ⟨rest, by simp [hm]⟩
  rw [hm, List.length_append] at hlong
  simp at hlong

theorem Longest.digit (h : n.Longest (n.text ++ c :: rest)) : isDigit c = false := by
  rw [Bool.eq_false_iff]
  intro hc
  have hall : AllDigits (n.digits ++ [c]) := by
    simpa [AllDigits, or_imp, forall_and] using ⟨n.digits_digit, hc⟩
  exact h.stops { n with digits := n.digits ++ [c], digits_digit := hall } (by simp [text])

/-- Behind spaces alone there is neither a space nor a sign. -/
theorem Longest.head (h : n.Longest (n.text ++ c :: rest)) (hsign : n.sign = [])
    (hdigits : n.digits = []) : isSpace c = false ∧ c ≠ byte '-' ∧ c ≠ byte '+' := by
  have hnone : AllDigits [] := by simp [AllDigits]
  refine ⟨?_, ?_, ?_⟩
  · rw [Bool.eq_false_iff]
    intro hc
    have hall : ∀ d ∈ n.spaces ++ [c], isSpace d = true := by
      simpa [or_imp, forall_and] using ⟨n.spaces_space, hc⟩
    exact h.stops { n with spaces := n.spaces ++ [c], spaces_space := hall }
      (by simp [text, hsign, hdigits])
  · rintro rfl
    exact h.stops ⟨n.spaces, [byte '-'], [], n.spaces_space, by simp, hnone⟩
      (by simp [text, hsign, hdigits])
  · rintro rfl
    exact h.stops ⟨n.spaces, [byte '+'], [], n.spaces_space, by simp, hnone⟩
      (by simp [text, hsign, hdigits])

theorem dropWhile_spaces (n : Numeral) (t : Bytes) (ht : ∀ c u, t = c :: u → isSpace c = false) :
    (n.spaces ++ t).dropWhile isSpace = t := by
  rw [List.dropWhile_append_of_pos n.spaces_space]
  cases t with
  | nil => rfl
  | cons c u => exact List.dropWhile_cons_of_neg (by simp [ht c u rfl])

/-- What `strtoll` sees of a text that begins with the number. -/
theorem Longest.splitSign (h : n.Longest (n.text ++ rest)) :
    splitSign (n.text ++ rest) = (decide (n.sign = [byte '-']), n.digits ++ rest) := by
  have hassoc : n.text ++ rest = n.spaces ++ (n.sign ++ (n.digits ++ rest)) := by simp [text]
  rw [hassoc, Data.splitSign, dropWhile_spaces]
  · rcases n.sign_sign with hsign | hsign | hsign
    · rw [hsign]
      cases hdigits : n.digits with
      | nil =>
        cases rest with
        | nil => rfl
        | cons c rest =>
          obtain ⟨-, hm, hp⟩ := h.head hsign hdigits
          simp [hm, hp]
      | cons d ds =>
        have hd : isDigit d = true := n.digits_digit d (by simp [hdigits])
        simp [isDigit_ne hd (show isDigit (byte '-') = false by decide),
          isDigit_ne hd (show isDigit (byte '+') = false by decide)]
    · have hne : byte '+' ≠ byte '-' := by decide
      rw [hsign]
      simp [hne]
    · rw [hsign]
      simp
  · intro c u hc
    rcases n.sign_sign with hsign | hsign | hsign
    · rw [hsign] at hc
      cases hdigits : n.digits with
      | nil =>
        rw [hdigits] at hc
        subst hc
        exact (h.head hsign hdigits).1
      | cons d ds =>
        rw [hdigits] at hc
        obtain ⟨rfl, -⟩ := List.cons.inj hc
        exact isSpace_of_isDigit (n.digits_digit d (by simp [hdigits]))
    all_goals
      rw [hsign] at hc
      obtain ⟨rfl, -⟩ := List.cons.inj hc
      decide

theorem Longest.takeWhile (h : n.Longest (n.text ++ rest)) :
    (n.digits ++ rest).takeWhile isDigit = n.digits := by
  rw [List.takeWhile_append_of_pos n.digits_digit]
  cases rest with
  | nil => simp
  | cons c rest => rw [List.takeWhile_cons_of_neg (by simp [h.digit]), List.append_nil]

/-- `strtoll` reads the whole number, up to the limits of 64 bits. -/
theorem Longest.strtoll (h : n.Longest s) :
    strtoll s = max (-2 ^ 63) (min (2 ^ 63 - 1) n.value) := by
  obtain ⟨rest, rfl⟩ := h.isPrefix
  simp only [Data.strtoll, h.splitSign, h.takeWhile, decide_eq_true_eq, value]
  split <;> omega

end Longest

/-! What the copy keeps of the number. -/

section Copy
variable {n : Numeral} {s : Bytes}

theorem text_nulFree (n : Numeral) : ∀ c ∈ n.text, c ≠ 0 := by
  rintro c hc rfl
  rcases List.mem_append.mp hc with hc | hc
  · exact absurd (n.spaces_space 0 hc) (by decide)
  · rcases List.mem_append.mp hc with hc | hc
    · have : byte '+' ≠ 0 ∧ byte '-' ≠ 0 := by decide
      rcases n.sign_sign with h | h | h <;> simp [h] at hc
      · exact this.1 hc.symm
      · exact this.2 hc.symm
    · exact absurd (n.digits_digit 0 hc) (by decide)

/-- In the copy the number is cut after 63 bytes. -/
theorem Longest.castBuffer (h : n.Longest s) : (n.take 63).Longest (castBuffer s) := by
  have hcopy : Machine.castBuffer s <+: s.take 63 := List.takeWhile_prefix _
  have htext : (n.take 63).text <+: s.take 63 := by
    rw [text_take]
    exact h.isPrefix.take 63
  refine ⟨?_, fun m hm => ?_⟩
  · have hself : cString (n.take 63).text = (n.take 63).text :=
      cString_of_nulFree (n.take 63).text_nulFree
    obtain ⟨rest, hrest⟩ := htext
    refine ⟨cString rest, ?_⟩
    rw [Machine.castBuffer, ← hrest, cString, cString,
      List.takeWhile_append_of_pos (by simpa using (n.take 63).text_nulFree)]
  · have hlong := h.longest m (hm.trans (hcopy.trans (List.take_prefix _ _)))
    have hshort := (hm.trans hcopy).length_le
    rw [List.length_take] at hshort
    rw [text_take, List.length_take]
    omega

theorem digitsVal_append (a b : Bytes) :
    digitsVal 10 (a ++ b) = digitsVal 10 a * 10 ^ b.length + digitsVal 10 b := by
  induction a with
  | nil => simp [digitsVal]
  | cons d a ih =>
    rw [List.cons_append, digitsVal_cons, digitsVal_cons, ih, List.length_append, pow_add]
    ring

/-- Digits that are cut off are missed, unless there are only zeros. -/
theorem digitsVal_take {ds : Bytes} {k : Nat} (hk : k < ds.length) :
    digitsVal 10 (ds.take k) < digitsVal 10 ds ∨ digitsVal 10 ds = 0 := by
  have hsplit := digitsVal_append (ds.take k) (ds.drop k)
  rw [List.take_append_drop, List.length_drop] at hsplit
  obtain ⟨j, hj⟩ : ∃ j, ds.length - k = j + 1 := ⟨ds.length - k - 1, by omega⟩
  rw [hj, pow_succ] at hsplit
  have hpow : 1 ≤ 10 ^ j := Nat.one_le_pow _ _ (by decide)
  have hle : digitsVal 10 (ds.take k) ≤ digitsVal 10 (ds.take k) * 10 ^ j :=
    Nat.le_mul_of_pos_right _ hpow
  rw [← mul_assoc] at hsplit
  omega

theorem digitsVal_take_le (ds : Bytes) (k : Nat) : digitsVal 10 (ds.take k) ≤ digitsVal 10 ds := by
  have hsplit := digitsVal_append (ds.take k) (ds.drop k)
  rw [List.take_append_drop] at hsplit
  have hpow : 1 ≤ 10 ^ (ds.drop k).length := Nat.one_le_pow _ _ (by decide)
  have hle := Nat.le_mul_of_pos_right (digitsVal 10 (ds.take k)) hpow
  omega

/-- The cut number has the sign of the whole one, or no digits. -/
theorem value_take_between (n : Numeral) (k : Nat) :
    (0 ≤ (n.take k).value ∧ (n.take k).value ≤ n.value) ∨
      n.value ≤ (n.take k).value ∧ (n.take k).value ≤ 0 := by
  have hle := digitsVal_take_le n.digits (k - n.spaces.length - n.sign.length)
  by_cases hcut : (n.take k).sign = n.sign
  · have hdigits : (n.take k).digits = n.digits.take (k - n.spaces.length - n.sign.length) := rfl
    rw [value, value, hcut, hdigits]
    split <;> omega
  · have hnone : (n.take k).digits = [] := by
      have hlen : k - n.spaces.length < n.sign.length := by
        by_contra hle
        exact hcut (List.take_of_length_le (by omega))
      simp only [take, show k - n.spaces.length - n.sign.length = 0 by omega, List.take_zero]
    have hzero : (n.take k).value = 0 := by simp [value, hnone, digitsVal]
    omega

theorem value_take_iff (n : Numeral) (k : Nat) :
    (n.take k).value = n.value ↔ n.text.length ≤ k ∨ n.value = 0 := by
  have htext : n.text.length = n.spaces.length + (n.sign.length + n.digits.length) := by
    simp [text]
  constructor
  · intro h
    by_contra hnot
    rw [not_or, not_le] at hnot
    have habs : digitsVal 10 (n.digits.take (k - n.spaces.length - n.sign.length)) =
        digitsVal 10 n.digits := by
      rw [← n.natAbs_value, ← h, natAbs_value]
      rfl
    rcases Nat.eq_zero_or_pos n.digits.length with hdigits | hdigits
    · have hnil : n.digits = [] := List.eq_nil_of_length_eq_zero hdigits
      exact hnot.2 (by simp [value, hnil, digitsVal])
    · rcases digitsVal_take (show k - n.spaces.length - n.sign.length < n.digits.length by omega)
        with hlt | hzero
      · omega
      · exact hnot.2 (Int.natAbs_eq_zero.mp (n.natAbs_value.trans hzero))
  · rintro (h | h)
    · have hsign : (n.take k).sign = n.sign := List.take_of_length_le (by omega)
      have hdigits : (n.take k).digits = n.digits := List.take_of_length_le (by omega)
      rw [value, value, hsign, hdigits]
    · have := n.value_take_between k
      omega

end Copy

end Numeral

section Cast
variable (cfg : Config) {s : State} {c : Nat} {b : Bytes} {n : Numeral} {k : Int}

/-- The cast of a string gives what `strtoll` reads of the copy. -/
theorem yields_castInteger (hw : s.heap.longs.Wf) (hc : s.stringData c = some b) :
    Yields cfg (vmCast castInteger (.string c)) s (strtoll (castBuffer b)) := by
  unfold Yields vmCast
  rw [if_pos rfl]
  dsimp only
  rw [run_bind, run_string cfg hc, Outcome.done_andThen]
  exact yields_newInt cfg hw _

theorem yields_castInteger_iff (hw : s.heap.longs.Wf) (hc : s.stringData c = some b)
    (hn : n.Longest b) (hfit : IsLong n.value) :
    Yields cfg (vmCast castInteger (.string c)) s n.value ↔ (n.take 63).value = n.value := by
  have hyields := yields_castInteger cfg hw hc
  rw [hn.castBuffer.strtoll] at hyields
  have hclamp : max (-2 ^ 63) (min (2 ^ 63 - 1) (n.take 63).value) = (n.take 63).value := by
    have := n.value_take_between 63
    unfold IsLong at hfit
    omega
  rw [hclamp] at hyields
  exact ⟨fun h => hyields.unique h, fun h => h ▸ hyields⟩

/-! The text of an integer. -/

theorem intText_nulFree (k : Int) : ∀ c ∈ intText k, c ≠ 0 := by
  have hall : AllDigits (natText k.natAbs) := (digits_of_isInteger (isInteger_natText _)).1
  have hdigits : ∀ c ∈ natText k.natAbs, c ≠ 0 := fun c hc => isDigit_ne (hall c hc) (by decide)
  unfold intText
  split
  · exact List.forall_mem_cons.mpr ⟨by decide, hdigits⟩
  · exact hdigits

theorem strtoll_intText (hk : IsLong k) : strtoll (castBuffer (intText k)) = k := by
  have hvalue := integerValue_intText k
  have hread := strtoll_cutLiteral (isSigned_intText k) (hvalue.symm ▸ hk)
  have hcut : castBuffer (intText k) = cutLiteral (intText k) := by
    have hnul : ∀ c ∈ (intText k).take 63, c ≠ 0 := fun c hc =>
      intText_nulFree k c (List.mem_of_mem_take hc)
    rw [castBuffer, cString_of_nulFree hnul, cutLiteral]
    split
    · rfl
    · rw [List.take_of_length_le (by omega), List.take_length]
  rw [hcut, hread, hvalue]

theorem format_of_asInt {v : AerVal} (hv : s.asInt v = some k) : s.format v = some (intText k) := by
  cases v <;> try cases hv
  · simp [State.format, State.formatDepth]
  · simp [State.format, State.formatDepth, hv]

/-- An integer comes back from its text. -/
theorem yields_toStr_cast (hw : s.heap.PoolsWf) {v : AerVal} (hv : s.asInt v = some k)
    (hk : IsLong k) : Yields cfg (do vmCast castInteger (← vmToStr v)) s k := by
  have hformat : exec cfg (.format v) s = .done (intText k) s := by
    change orFault (s.format v) s = _
    rw [format_of_asInt hv]
    rfl
  have htext : (vmToStr v).run (exec cfg) s = s.gain (s.heap.aerMakeString (intText k)) := by
    unfold vmToStr
    cases v <;> first | cases hv | skip
    all_goals
      dsimp only
      unfold perform
      rw [run_bind, run_perform, hformat, Outcome.done_andThen, run_perform]
      rfl
  have hyields := yields_castInteger cfg (s := { s with heap := (s.heap.aerMakeString (intText k)).2 })
    hw.longs (stringData_aerMakeString hw (intText k))
  rw [strtoll_intText hk] at hyields
  unfold Yields
  rw [run_bind, htext]
  exact hyields

/-- The cast of a string to an integer reads the whole number with which the string begins just
when that is at most 63 bytes long or is 0; and an integer comes back from its text. -/
theorem castInteger_exact (hw : s.heap.PoolsWf) (hc : s.stringData c = some b) (hn : n.Longest b)
    (hfit : IsLong n.value) :
    (Yields cfg (vmCast castInteger (.string c)) s n.value ↔ n.text.length ≤ 63 ∨ n.value = 0) ∧
      ∀ v k, s.asInt v = some k → IsLong k →
        Yields cfg (do vmCast castInteger (← vmToStr v)) s k :=
  ⟨(yields_castInteger_iff cfg hw.longs hc hn hfit).trans (n.value_take_iff 63),
    fun _ _ hv hk => yields_toStr_cast cfg hw hv hk⟩

end Cast

/-- A machine with one string. -/
def holdingText (b : Bytes) : State :=
  { State.init with heap := (Heap.init.aerMakeString b).2 }

theorem holdingText_pools (b : Bytes) : (holdingText b).heap.PoolsWf :=
  (Heap.grows_aerMakeString Heap.poolsWf_init b).wf Heap.poolsWf_init

theorem holdingText_data (b : Bytes) : (holdingText b).stringData 0 = some b :=
  stringData_aerMakeString (s := .init) Heap.poolsWf_init b

/-- The digits of a text of nothing else. -/
def Numeral.ofDigits (ds : Bytes) (h : AllDigits ds) : Numeral :=
  ⟨[], [], ds, by simp, .inl rfl, h⟩

theorem Numeral.longest_ofDigits {ds : Bytes} (h : AllDigits ds) : (ofDigits ds h).Longest ds :=
  ⟨List.prefix_rfl, fun _ hm => hm.length_le⟩

theorem allDigits_fortyTwo : AllDigits (bytes "42") := by
  unfold AllDigits
  decide +kernel

theorem castInteger_exact_fortyTwo :
    (Yields {} (vmCast castInteger (.string 0)) (holdingText (bytes "42")) 42 ↔
        (bytes "42").length ≤ 63 ∨ (42 : Int) = 0) ∧
      ∀ v k, (holdingText (bytes "42")).asInt v = some k → IsLong k →
        Yields {} (do vmCast castInteger (← vmToStr v)) (holdingText (bytes "42")) k :=
  castInteger_exact {} (holdingText_pools _) (holdingText_data _)
    (Numeral.longest_ofDigits allDigits_fortyTwo) (by decide +kernel)

/-- A 7 behind 63 zeros. -/
def paddedSeven : Bytes := List.replicate 63 (byte '0') ++ [byte '7']

theorem allDigits_paddedSeven : AllDigits paddedSeven := by
  unfold AllDigits
  decide +kernel

/-- `paddedSeven as integer` is 0. -/
theorem castInteger_cuts :
    ∃ n : Numeral, n.Longest paddedSeven ∧ n.value = 7 ∧
      ¬ Yields {} (vmCast castInteger (.string 0)) (holdingText paddedSeven) n.value := by
  refine ⟨_, Numeral.longest_ofDigits allDigits_paddedSeven, by decide +kernel, fun h => ?_⟩
  have hyields := yields_castInteger {} (holdingText_pools paddedSeven).longs
    (holdingText_data paddedSeven)
  have hvalue := hyields.unique h
  revert hvalue
  decide +kernel

end Aer.Machine
