import Mathlib.Data.Nat.Log
import Mathlib.Tactic.Ring
import Mathlib.Tactic.Linarith
import Aer.Data.Double

set_option linter.all false

/-! Rounding to nearest: its order, its fixed points and its scale. -/
namespace Aer.Data.Double

section Quotients
variable {a b c d : Nat}

theorem le_roundQuot (a b : Nat) : a / b ≤ roundQuot a b := by
  unfold roundQuot
  dsimp only
  split <;> omega

theorem roundQuot_le (a b : Nat) : roundQuot a b ≤ a / b + 1 := by
  unfold roundQuot
  dsimp only
  split <;> omega

theorem roundQuot_mul (m : Nat) (hb : 0 < b) : roundQuot (m * b) b = m := by
  unfold roundQuot
  rw [Nat.mul_div_cancel _ hb, Nat.mul_mod_left]
  dsimp only
  rw [if_neg (by omega)]

theorem roundQuot_mul_right (a b : Nat) (hc : 0 < c) :
    roundQuot (a * c) (b * c) = roundQuot a b := by
  unfold roundQuot
  rw [Nat.mul_div_mul_right _ _ hc, Nat.mul_mod_mul_right]
  have hlt : b * c < 2 * (a % b * c) ↔ b < 2 * (a % b) := by
    rw [← Nat.mul_assoc, Nat.mul_lt_mul_right hc]
  have heq : 2 * (a % b * c) = b * c ↔ 2 * (a % b) = b := by
    rw [← Nat.mul_assoc, Nat.mul_right_cancel_iff hc]
  simp only [hlt, heq]

theorem div_le_div_of_cross (hb : 0 < b) (hd : 0 < d) (h : a * d ≤ c * b) : a / b ≤ c / d := by
  rw [Nat.le_div_iff_mul_le hd]
  refine Nat.le_of_mul_le_mul_right ?_ hb
  calc a / b * d * b = a / b * b * d := Nat.mul_right_comm _ _ _
    _ ≤ a * d := Nat.mul_le_mul_right _ (Nat.div_mul_le_self a b)
    _ ≤ c * b := h

/-- Rounding keeps the order of quotients. -/
theorem roundQuot_le_roundQuot (hb : 0 < b) (hd : 0 < d) (h : a * d ≤ c * b) :
    roundQuot a b ≤ roundQuot c d := by
  rcases Nat.lt_or_eq_of_le (div_le_div_of_cross hb hd h) with hlt | heq
  · calc roundQuot a b ≤ a / b + 1 := roundQuot_le a b
      _ ≤ c / d := hlt
      _ ≤ roundQuot c d := le_roundQuot c d
  · -- With equal whole parts the remainders are in order.
    have hrem : a % b * d ≤ c % d * b := by
      have ha := Nat.div_add_mod a b
      have hc := Nat.div_add_mod c d
      rw [← ha, ← hc, heq] at h
      nlinarith
    unfold roundQuot
    dsimp only
    rw [heq]
    split
    · next hup =>
      rw [if_pos]
      rcases hup with hup | ⟨hup, hodd⟩
      · refine .inl (Nat.lt_of_mul_lt_mul_right (a := b) ?_)
        nlinarith
      · rcases Nat.lt_or_ge d (2 * (c % d)) with hlt | hge
        · exact .inl hlt
        · refine .inr ⟨Nat.le_antisymm hge (Nat.le_of_mul_le_mul_right (c := b) ?_ hb), hodd⟩
          nlinarith
    · split <;> omega

end Quotients

/-- The magnitude that `round` gives, where it does not overflow. -/
def roundMag (num den : Nat) : Nat :=
  roundQuot num (den * 2 ^ unitExpo num den) * 2 ^ unitExpo num den

section Magnitudes
variable {a b c d : Nat}

theorem lt_unitExpo (a : Nat) (hb : 0 < b) : a < b * 2 ^ (unitExpo a b + 53) := by
  have hpow : 2 ^ ((a / b).log2 + 1) ≤ 2 ^ (unitExpo a b + 53) :=
    Nat.pow_le_pow_right (by decide) (by unfold unitExpo; omega)
  rw [Nat.mul_comm, ← Nat.div_lt_iff_lt_mul hb]
  exact Nat.lt_of_lt_of_le Nat.lt_log2_self hpow

theorem unitExpo_le (hb : 0 < b) (he : 0 < unitExpo a b) : b * 2 ^ (unitExpo a b + 52) ≤ a := by
  have hlog : unitExpo a b + 52 = (a / b).log2 := by
    unfold unitExpo at he ⊢
    omega
  have hne : a / b ≠ 0 := by
    intro hzero
    rw [hzero, Nat.log2_zero] at hlog
    omega
  rw [Nat.mul_comm, ← Nat.le_div_iff_mul_le hb, hlog]
  exact Nat.log2_self_le hne

/-- The exponent is the least with which the quotient is a significand. -/
theorem unitExpo_le_of_lt (hb : 0 < b) {e : Nat} (h : a < b * 2 ^ (e + 53)) : unitExpo a b ≤ e := by
  by_contra hlt
  have hle := unitExpo_le (a := a) hb (by omega)
  have hpow : b * 2 ^ (e + 53) ≤ b * 2 ^ (unitExpo a b + 52) :=
    Nat.mul_le_mul_left _ (Nat.pow_le_pow_right (by decide) (by omega))
  omega

theorem le_unitExpo (hb : 0 < b) {e : Nat} (h : b * 2 ^ (e + 52) ≤ a) : e ≤ unitExpo a b := by
  have hlt := Nat.lt_of_mul_lt_mul_left (Nat.lt_of_le_of_lt h (lt_unitExpo a hb))
  have hpow := (Nat.pow_lt_pow_iff_right (by decide)).mp hlt
  omega

theorem unitExpo_mono (hb : 0 < b) (hd : 0 < d) (h : a * d ≤ c * b) :
    unitExpo a b ≤ unitExpo c d := by
  refine unitExpo_le_of_lt hb (Nat.lt_of_mul_lt_mul_right (a := d) ?_)
  calc a * d ≤ c * b := h
    _ < d * 2 ^ (unitExpo c d + 53) * b := Nat.mul_lt_mul_of_pos_right (lt_unitExpo c hd) hb
    _ = b * 2 ^ (unitExpo c d + 53) * d := by ring

theorem significand_le (a : Nat) (hb : 0 < b) : roundQuot a (b * 2 ^ unitExpo a b) ≤ 2 ^ 53 := by
  have hunit : 0 < b * 2 ^ unitExpo a b := Nat.mul_pos hb (Nat.two_pow_pos _)
  have hlt := lt_unitExpo a hb
  rw [Nat.pow_add, ← Nat.mul_assoc, Nat.mul_comm, ← Nat.div_lt_iff_lt_mul hunit] at hlt
  exact Nat.le_trans (roundQuot_le _ _) hlt

theorem le_significand (hb : 0 < b) (he : 0 < unitExpo a b) :
    2 ^ 52 ≤ roundQuot a (b * 2 ^ unitExpo a b) := by
  have hunit : 0 < b * 2 ^ unitExpo a b := Nat.mul_pos hb (Nat.two_pow_pos _)
  have hle := unitExpo_le hb he
  rw [Nat.pow_add, ← Nat.mul_assoc, Nat.mul_comm, ← Nat.le_div_iff_mul_le hunit] at hle
  exact Nat.le_trans hle (le_roundQuot _ _)

/-- Rounding keeps the order. -/
theorem roundMag_mono (hb : 0 < b) (hd : 0 < d) (h : a * d ≤ c * b) :
    roundMag a b ≤ roundMag c d := by
  unfold roundMag
  rcases Nat.lt_or_eq_of_le (unitExpo_mono hb hd h) with hlt | heq
  · calc roundQuot a (b * 2 ^ unitExpo a b) * 2 ^ unitExpo a b
        ≤ 2 ^ 53 * 2 ^ unitExpo a b := Nat.mul_le_mul_right _ (significand_le a hb)
      _ = 2 ^ 52 * 2 ^ (unitExpo a b + 1) := by ring
      _ ≤ 2 ^ 52 * 2 ^ unitExpo c d :=
          Nat.mul_le_mul_left _ (Nat.pow_le_pow_right (by decide) hlt)
      _ ≤ roundQuot c (d * 2 ^ unitExpo c d) * 2 ^ unitExpo c d :=
          Nat.mul_le_mul_right _ (le_significand hd (by omega))
  · rw [heq]
    refine Nat.mul_le_mul_right _ (roundQuot_le_roundQuot ?_ ?_ ?_)
    · exact Nat.mul_pos hb (Nat.two_pow_pos _)
    · exact Nat.mul_pos hd (Nat.two_pow_pos _)
    · calc a * (d * 2 ^ unitExpo c d) = a * d * 2 ^ unitExpo c d := by ring
        _ ≤ c * b * 2 ^ unitExpo c d := Nat.mul_le_mul_right _ h
        _ = c * (b * 2 ^ unitExpo c d) := by ring

/-- A multiple of a power of two with 53 significant bits is rounded to itself. -/
theorem roundMag_exact {m : Nat} (hm : m ≤ 2 ^ 53) (k : Nat) (hb : 0 < b) :
    roundMag (m * 2 ^ k * b) b = m * 2 ^ k := by
  -- The largest significand is a smaller one in the next binade.
  obtain ⟨n, j, hn, hnj⟩ : ∃ n j, n < 2 ^ 53 ∧ m * 2 ^ k = n * 2 ^ j := by
    rcases Nat.lt_or_eq_of_le hm with hlt | rfl
    · exact ⟨m, k, hlt, rfl⟩
    · exact ⟨2 ^ 52, k + 1, by decide, by ring⟩
  rw [hnj]
  have he : unitExpo (n * 2 ^ j * b) b ≤ j := by
    refine unitExpo_le_of_lt hb ?_
    calc n * 2 ^ j * b < 2 ^ 53 * 2 ^ j * b :=
          Nat.mul_lt_mul_of_pos_right (Nat.mul_lt_mul_of_pos_right hn (Nat.two_pow_pos _)) hb
      _ = b * 2 ^ (j + 53) := by ring
  obtain ⟨i, hi⟩ := Nat.exists_eq_add_of_le he
  unfold roundMag
  have hquot : n * 2 ^ j * b = n * 2 ^ i * (b * 2 ^ unitExpo (n * 2 ^ j * b) b) := by
    conv_lhs => rw [hi]
    ring
  generalize unitExpo (n * 2 ^ j * b) b = e at *
  rw [hquot, roundQuot_mul _ (Nat.mul_pos hb (Nat.two_pow_pos _)), hi]
  ring

theorem roundMag_mul_right (a b : Nat) (hc : 0 < c) : roundMag (a * c) (b * c) = roundMag a b := by
  have he : unitExpo (a * c) (b * c) = unitExpo a b := by
    unfold unitExpo
    rw [Nat.mul_div_mul_right _ _ hc]
  have hunit : b * c * 2 ^ unitExpo a b = b * 2 ^ unitExpo a b * c := by ring
  unfold roundMag
  rw [he, hunit, roundQuot_mul_right _ _ hc]

/-- Above the smallest normal number the significand does not depend on the binade. -/
theorem roundMag_mul_two_pow (k : Nat) (hb : 0 < b) (ha : b * 2 ^ 52 ≤ a) :
    roundMag (a * 2 ^ k) b = roundMag a b * 2 ^ k := by
  have he : unitExpo (a * 2 ^ k) b = unitExpo a b + k := by
    apply Nat.le_antisymm
    · refine unitExpo_le_of_lt hb ?_
      calc a * 2 ^ k < b * 2 ^ (unitExpo a b + 53) * 2 ^ k :=
            Nat.mul_lt_mul_of_pos_right (lt_unitExpo a hb) (Nat.two_pow_pos _)
        _ = b * 2 ^ (unitExpo a b + k + 53) := by ring
    · refine le_unitExpo hb ?_
      have hle : b * 2 ^ (unitExpo a b + 52) ≤ a := by
        rcases Nat.eq_zero_or_pos (unitExpo a b) with hzero | hpos
        · simpa [hzero] using ha
        · exact unitExpo_le hb hpos
      calc b * 2 ^ (unitExpo a b + k + 52) = b * 2 ^ (unitExpo a b + 52) * 2 ^ k := by ring
        _ ≤ a * 2 ^ k := Nat.mul_le_mul_right _ hle
  have hunit : b * 2 ^ (unitExpo a b + k) = b * 2 ^ unitExpo a b * 2 ^ k := by ring
  unfold roundMag
  rw [he, hunit, roundQuot_mul_right _ _ (Nat.two_pow_pos _)]
  ring

end Magnitudes

section Midpoints
variable {a b d m : Nat}

theorem le_roundQuot_iff (hd : 0 < d) (hm : 0 < m) :
    m ≤ roundQuot a d ↔
      (2 * m - 1) * d < 2 * a ∨ ((2 * m - 1) * d = 2 * a ∧ m % 2 = 0) := by
  have hdiv := Nat.div_add_mod a d
  have hrem := Nat.mod_lt a hd
  unfold roundQuot
  dsimp only
  generalize a / d = q at *
  generalize a % d = r at *
  have hodd : (2 * m - 1) * d + d = 2 * (m * d) := by
    obtain ⟨n, rfl⟩ := Nat.exists_eq_succ_of_ne_zero hm.ne'
    rw [Nat.succ_eq_add_one, show 2 * (n + 1) - 1 = 2 * n + 1 by omega]
    ring
  rcases Nat.lt_trichotomy m (q + 1) with hlt | rfl | hgt
  · have hle : m * d ≤ d * q := by
      rw [Nat.mul_comm d q]
      exact Nat.mul_le_mul_right _ (by omega)
    refine iff_of_true ?_ (.inl (by omega))
    split <;> omega
  · have hmul : (q + 1) * d = d * q + d := by ring
    split <;> omega
  · have hge : d * q + 2 * d ≤ m * d := by
      calc d * q + 2 * d = (q + 2) * d := by ring
        _ ≤ m * d := Nat.mul_le_mul_right _ (by omega)
    refine iff_of_false ?_ (by omega)
    split <;> omega

/-- `num / den` is not below the midpoint between the least magnitude of a double from `p` on
and the magnitude before it; a tie goes to the even significand. -/
def Reaches (num den p : Nat) : Prop :=
  let k := (p - 1).log2 - 52
  let m := (p + 2 ^ k - 1) / 2 ^ k
  (2 * m - 1) * 2 ^ k * den < 2 * num ∨ ((2 * m - 1) * 2 ^ k * den = 2 * num ∧ m % 2 = 0)

instance (num den p : Nat) : Decidable (Reaches num den p) :=
  inferInstanceAs (Decidable (_ ∨ _))

/-- The binade of the least significand from `p` on. -/
theorem significand_bounds {p : Nat} (hp : 0 < p) :
    p ≤ 2 ^ 53 * 2 ^ ((p - 1).log2 - 52) ∧
      (0 < (p - 1).log2 - 52 → 2 ^ 52 * 2 ^ ((p - 1).log2 - 52) < p) := by
  have hlt : p - 1 < 2 ^ ((p - 1).log2 + 1) := Nat.lt_log2_self
  constructor
  · rw [← Nat.pow_add]
    have hpow : 2 ^ ((p - 1).log2 + 1) ≤ 2 ^ (53 + ((p - 1).log2 - 52)) :=
      Nat.pow_le_pow_right (by decide) (by omega)
    omega
  · intro hk
    have hne : p - 1 ≠ 0 := by
      intro hzero
      rw [hzero, Nat.log2_zero] at hk
      omega
    have hle := Nat.log2_self_le hne
    have hexp : (p - 1).log2 = 52 + ((p - 1).log2 - 52) := by omega
    rw [hexp, Nat.pow_add] at hle
    omega

theorem le_mul_iff_ceil {p c x : Nat} (hc : 0 < c) : p ≤ x * c ↔ (p + c - 1) / c ≤ x := by
  rw [Nat.div_le_iff_le_mul_add_pred hc]
  constructor <;> intro h
  · rw [Nat.mul_comm]
    omega
  · rw [Nat.mul_comm] at h
    omega

/-- Rounding to nearest, by the midpoints. -/
theorem le_roundMag_iff (hb : 0 < b) (p : Nat) : p ≤ roundMag a b ↔ Reaches a b p := by
  rcases Nat.eq_zero_or_pos p with rfl | hp
  · refine iff_of_true (Nat.zero_le _) ?_
    have hlog : (0 - 1).log2 - 52 = 0 := by simp
    simp only [Reaches, hlog]
    omega
  obtain ⟨hhi, hlo⟩ := significand_bounds hp
  have hbelow := significand_le a hb
  have hnormal := le_significand (a := a) hb
  have hunder := lt_unitExpo a hb
  have hover := unitExpo_le (a := a) hb
  have hquot : ∀ m, 0 < m → (m ≤ roundQuot a (b * 2 ^ unitExpo a b) ↔ _) := fun m hm =>
    le_roundQuot_iff (a := a) (Nat.mul_pos hb (Nat.two_pow_pos (unitExpo a b))) hm
  unfold Reaches roundMag
  dsimp only
  generalize (p - 1).log2 - 52 = k at *
  generalize unitExpo a b = e at *
  have hk : 0 < 2 ^ k := Nat.two_pow_pos k
  have hpos : 0 < (p + 2 ^ k - 1) / 2 ^ k := Nat.div_pos (by omega) hk
  have hceil : ∀ x, p ≤ x * 2 ^ k ↔ (p + 2 ^ k - 1) / 2 ^ k ≤ x := fun x => le_mul_iff_ceil hk
  generalize (p + 2 ^ k - 1) / 2 ^ k = m at *
  generalize roundQuot a (b * 2 ^ e) = n at *
  have hle : m ≤ 2 ^ 53 := (hceil _).mp hhi
  have hlt : 0 < k → 2 ^ 52 < m := fun h0 =>
    Nat.lt_of_not_le fun h => Nat.not_le_of_lt (hlo h0) ((hceil _).mpr h)
  rcases Nat.lt_trichotomy e k with hek | rfl | hgt
  · -- A quotient in a lower binade stays below it.
    have hpow : 2 ^ (e + 1) ≤ 2 ^ k := Nat.pow_le_pow_right (by decide) hek
    have hk0 : 0 < k := by omega
    refine iff_of_false ?_ ?_
    · have : n * 2 ^ e ≤ 2 ^ 53 * 2 ^ e := Nat.mul_le_mul_right _ hbelow
      have := hlo hk0
      rw [Nat.pow_succ] at hpow
      omega
    · have hmid : 2 ^ 53 + 1 ≤ 2 * m - 1 := by
        have := hlt hk0
        omega
      have hmul : 2 * a < (2 * m - 1) * 2 ^ k * b := by
        calc 2 * a < 2 * (b * 2 ^ (e + 53)) := by omega
          _ = 2 ^ 53 * 2 ^ (e + 1) * b := by ring
          _ ≤ (2 * m - 1) * 2 ^ k * b :=
              Nat.mul_le_mul_right _ (Nat.mul_le_mul (by omega) hpow)
      omega
  · rw [hceil, hquot m hpos]
    have hassoc : (2 * m - 1) * (b * 2 ^ e) = (2 * m - 1) * 2 ^ e * b := by ring
    rw [hassoc]
  · -- A quotient in a higher binade is past it.
    have hpow : 2 ^ (k + 1) ≤ 2 ^ e := Nat.pow_le_pow_right (by decide) hgt
    refine iff_of_true ?_ (.inl ?_)
    · calc p ≤ m * 2 ^ k := (hceil m).mpr (Nat.le_refl m)
        _ ≤ 2 ^ 53 * 2 ^ k := Nat.mul_le_mul_right _ hle
        _ = 2 ^ 52 * 2 ^ (k + 1) := by ring
        _ ≤ n * 2 ^ e := Nat.mul_le_mul (hnormal (by omega)) hpow
    · calc (2 * m - 1) * 2 ^ k * b < 2 ^ 54 * 2 ^ k * b := by
            refine Nat.mul_lt_mul_of_pos_right (Nat.mul_lt_mul_of_pos_right ?_ hk) hb
            omega
        _ = 2 * (b * (2 ^ 52 * 2 ^ (k + 1))) := by ring
        _ ≤ 2 * (b * (2 ^ 52 * 2 ^ e)) :=
            Nat.mul_le_mul_left _ (Nat.mul_le_mul_left _ (Nat.mul_le_mul_left _ hpow))
        _ = 2 * (b * 2 ^ (e + 52)) := by ring
        _ ≤ 2 * a := Nat.mul_le_mul_left _ (hover (by omega))

end Midpoints

/-! The words that `round` gives. -/

theorem toNat_ofFields (neg : Bool) {w : Nat} (hw : w < 2 ^ 63) :
    (ofFields neg 0 w).word.toNat = (if neg then 2 ^ 63 else 0) + w := by
  unfold ofFields
  rw [BitVec.toNat_ofNat, Nat.mod_eq_of_lt] <;> cases neg <;> simp <;> omega

theorem isNeg_ofFields (neg : Bool) {w : Nat} (hw : w < 2 ^ 63) : (ofFields neg 0 w).isNeg = neg := by
  have hmsb : (ofFields neg 0 w).isNeg = decide (2 ^ 63 ≤ (ofFields neg 0 w).word.toNat) :=
    BitVec.msb_eq_decide _
  rw [hmsb, toNat_ofFields neg hw]
  cases neg <;> simp <;> omega

theorem expo_ofFields (neg : Bool) {w : Nat} (hw : w < 2 ^ 63) :
    (ofFields neg 0 w).expo = w / 2 ^ 52 := by
  unfold expo
  rw [toNat_ofFields neg hw]
  cases neg <;> simp <;> omega

theorem frac_ofFields (neg : Bool) {w : Nat} (hw : w < 2 ^ 63) :
    (ofFields neg 0 w).frac = w % 2 ^ 52 := by
  unfold frac
  rw [toNat_ofFields neg hw]
  cases neg <;> simp <;> omega

section Round
variable {num den : Nat}

/-- The biased exponent and the fraction of a rounded magnitude, as one number. -/
def roundFields (num den : Nat) : Nat :=
  let m := roundQuot num (den * 2 ^ unitExpo num den)
  if m < 2 ^ 52 then m else (unitExpo num den + 1) * 2 ^ 52 + (m - 2 ^ 52)

theorem round_of_lt (neg : Bool) (h : roundFields num den < 2047 * 2 ^ 52) :
    round neg num den = ofFields neg 0 (roundFields num den) :=
  if_pos h

theorem isNeg_round (neg : Bool) (h : roundFields num den < 2047 * 2 ^ 52) :
    (round neg num den).isNeg = neg := by
  rw [round_of_lt neg h, isNeg_ofFields neg (by omega)]

theorem expo_round_lt (neg : Bool) (h : roundFields num den < 2047 * 2 ^ 52) :
    (round neg num den).expo < 2047 := by
  rw [round_of_lt neg h, expo_ofFields neg (by omega)]
  omega

theorem magnitude_round (neg : Bool) (hd : 0 < den) (h : roundFields num den < 2047 * 2 ^ 52) :
    (round neg num den).magnitude = roundMag num den := by
  have hle := significand_le num hd
  have hge := le_significand (a := num) hd
  rw [round_of_lt neg h]
  unfold magnitude roundMag
  rw [expo_ofFields neg (by omega), frac_ofFields neg (by omega)]
  unfold roundFields at h ⊢
  dsimp only at h ⊢
  generalize roundQuot num (den * 2 ^ unitExpo num den) = m at *
  generalize unitExpo num den = e at *
  split
  · next hm =>
    have he : e = 0 := by
      by_contra hne
      have := hge (Nat.pos_of_ne_zero hne)
      omega
    rw [if_pos (by omega), he, Nat.mod_eq_of_lt hm]
    simp
  · next hm =>
    rcases Nat.lt_or_eq_of_le hle with hlt | rfl
    · have hexpo : ((e + 1) * 2 ^ 52 + (m - 2 ^ 52)) / 2 ^ 52 = e + 1 := by omega
      have hfrac : ((e + 1) * 2 ^ 52 + (m - 2 ^ 52)) % 2 ^ 52 = m - 2 ^ 52 := by omega
      rw [hexpo, hfrac, if_neg (by omega), Nat.add_sub_cancel, Nat.add_sub_cancel' (by omega)]
    · have hexpo : ((e + 1) * 2 ^ 52 + (2 ^ 53 - 2 ^ 52)) / 2 ^ 52 = e + 2 := by omega
      have hfrac : ((e + 1) * 2 ^ 52 + (2 ^ 53 - 2 ^ 52)) % 2 ^ 52 = 0 := by omega
      have hprev : e + 2 - 1 = e + 1 := by omega
      rw [hexpo, hfrac, if_neg (by omega), hprev]
      ring

theorem roundFields_lt (hd : 0 < den) (h : num < den * 2 ^ 2000) :
    roundFields num den < 2047 * 2 ^ 52 := by
  have he : unitExpo num den ≤ 1947 := unitExpo_le_of_lt hd h
  have hle := significand_le num hd
  have hexpo : (unitExpo num den + 1) * 2 ^ 52 ≤ 1948 * 2 ^ 52 :=
    Nat.mul_le_mul_right _ (by omega)
  unfold roundFields
  dsimp only
  split <;> omega

end Round

end Aer.Data.Double
