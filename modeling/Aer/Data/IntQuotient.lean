import Aer.Data.Rounding

set_option linter.all false

/-! Integers as doubles: their conversion, and the floor of the quotient of two. -/
namespace Aer.Data.Double

/-- A natural number to 53 significant bits. -/
def near (n : Nat) : Nat := roundMag n 1

theorem near_of_le {n : Nat} (h : n ≤ 2 ^ 53) : near n = n := by
  simpa [near] using roundMag_exact h 0 Nat.one_pos

theorem near_mono {m n : Nat} (h : m ≤ n) : near m ≤ near n :=
  roundMag_mono Nat.one_pos Nat.one_pos (by omega)

theorem near_mul_unit (n : Nat) : roundMag (n * unit) 1 = near n * unit := by
  rcases Nat.lt_or_ge n (2 ^ 53) with hlt | hge
  · rw [near_of_le hlt.le]
    have hexact := roundMag_exact hlt.le 1074 Nat.one_pos
    rwa [Nat.mul_one] at hexact
  · exact roundMag_mul_two_pow 1074 Nat.one_pos (by omega)

theorem near_pos {n : Nat} (h : 0 < n) : 0 < near n := by
  have hone : near 1 = 1 := near_of_le (by decide)
  have := near_mono (m := 1) h
  omega

theorem near_le {n : Nat} (h : n ≤ 2 ^ 63) : near n ≤ 2 ^ 63 := by
  have hpow : near (2 ^ 63) = 2 ^ 63 := by decide +kernel
  exact hpow ▸ near_mono h

section OfInt
variable {n : Int}

theorem roundFields_ofInt (h : n.natAbs ≤ 2 ^ 63) :
    roundFields (n.natAbs * unit) 1 < 2047 * 2 ^ 52 := by
  refine roundFields_lt Nat.one_pos (Nat.lt_of_le_of_lt (Nat.mul_le_mul_right _ h) ?_)
  unfold unit
  rw [Nat.one_mul, ← Nat.pow_add]
  exact Nat.pow_lt_pow_right (by decide) (by decide)

theorem isNeg_ofInt (h : n.natAbs ≤ 2 ^ 63) : (ofInt n).isNeg = decide (n < 0) :=
  isNeg_round _ (roundFields_ofInt h)

theorem expo_ofInt_lt (h : n.natAbs ≤ 2 ^ 63) : (ofInt n).expo < 2047 :=
  expo_round_lt _ (roundFields_ofInt h)

theorem magnitude_ofInt (h : n.natAbs ≤ 2 ^ 63) : (ofInt n).magnitude = near n.natAbs * unit :=
  (magnitude_round _ Nat.one_pos (roundFields_ofInt h)).trans (near_mul_unit _)

end OfInt

theorem isNaN_of_expo {x : Double} (h : x.expo < 2047) : x.isNaN = false := by
  have hne : (x.expo == 2047) = false := beq_eq_false_iff_ne.mpr h.ne
  simp [isNaN, hne]

theorem isInf_of_expo {x : Double} (h : x.expo < 2047) : x.isInf = false := by
  have hne : (x.expo == 2047) = false := beq_eq_false_iff_ne.mpr h.ne
  simp [isInf, hne]

/-- An integer to 53 significant bits. -/
def nearInt (n : Int) : Int :=
  if n < 0 then -(near n.natAbs : Int) else near n.natAbs

theorem nearInt_mono {m n : Int} (h : m ≤ n) : nearInt m ≤ nearInt n := by
  unfold nearInt
  split <;> split
  · have := near_mono (m := n.natAbs) (n := m.natAbs) (by omega)
    omega
  · omega
  · omega
  · have := near_mono (m := m.natAbs) (n := n.natAbs) (by omega)
    omega

section Compare
variable {m n : Int}

theorem scaled_ofInt (h : n.natAbs ≤ 2 ^ 63) : (ofInt n).scaled = nearInt n * unit := by
  unfold scaled nearInt
  rw [isNeg_ofInt h, magnitude_ofInt h]
  simp only [decide_eq_true_eq]
  split
  · rw [Int.natCast_mul, ← Int.neg_mul]
  · exact Int.natCast_mul _ _

theorem compare_ofInt (hm : m.natAbs ≤ 2 ^ 63) (hn : n.natAbs ≤ 2 ^ 63) :
    compare (ofInt m) (ofInt n) = some (Ord.compare (nearInt m * unit) (nearInt n * unit)) := by
  unfold compare compare.key
  rw [isNaN_of_expo (expo_ofInt_lt hm), isNaN_of_expo (expo_ofInt_lt hn),
    isInf_of_expo (expo_ofInt_lt hm), isInf_of_expo (expo_ofInt_lt hn), scaled_ofInt hm,
    scaled_ofInt hn]
  rfl

theorem blt_ofInt (hm : m.natAbs ≤ 2 ^ 63) (hn : n.natAbs ≤ 2 ^ 63) :
    (ofInt m).blt (ofInt n) = true ↔ nearInt m < nearInt n := by
  unfold blt
  rw [compare_ofInt hm hn, beq_iff_eq, Option.some_inj, Int.compare_eq_lt]
  exact Int.mul_lt_mul_right (Int.natCast_pos.mpr (Nat.two_pow_pos 1074))

theorem beq_ofInt (hm : m.natAbs ≤ 2 ^ 63) (hn : n.natAbs ≤ 2 ^ 63) :
    (ofInt m).beq (ofInt n) = true ↔ nearInt m = nearInt n := by
  unfold beq
  rw [compare_ofInt hm hn, beq_iff_eq, Option.some_inj, Int.compare_eq_eq]
  exact Int.mul_eq_mul_right_iff (Int.natCast_ne_zero.mpr (Nat.two_pow_pos 1074).ne')

end Compare

/-! The quotient of two integers as doubles, and its floor. -/

/-- The quotient of two naturals, in units. -/
def nearQuot (a b : Nat) : Nat := roundMag (near a * unit) (near b)

theorem unit_pos : 0 < unit := Nat.two_pow_pos 1074

theorem nearQuot_zero (b : Nat) : nearQuot 0 b = 0 := by
  have hzero : near 0 = 0 := near_of_le (Nat.zero_le _)
  unfold nearQuot roundMag roundQuot
  rw [hzero, Nat.zero_mul, Nat.zero_div, Nat.zero_mod]
  dsimp only
  rw [if_neg (by omega), Nat.zero_mul]

theorem nearQuot_fields {a b : Nat} (ha : a ≤ 2 ^ 63) (hb : 0 < b) :
    roundFields (near a * unit * unit) (near b * unit) < 2047 * 2 ^ 52 := by
  have hnear : 0 < near b := near_pos hb
  refine roundFields_lt (Nat.mul_pos hnear unit_pos) ?_
  have hscale : near a * unit < near b * 2 ^ 2000 := by
    calc near a * unit ≤ 2 ^ 63 * unit := Nat.mul_le_mul_right _ (near_le ha)
      _ < 1 * 2 ^ 2000 := by
          unfold unit
          rw [Nat.one_mul, ← Nat.pow_add]
          exact Nat.pow_lt_pow_right (by decide) (by decide)
      _ ≤ near b * 2 ^ 2000 := Nat.mul_le_mul_right _ hnear
  calc near a * unit * unit < near b * 2 ^ 2000 * unit :=
        Nat.mul_lt_mul_of_pos_right hscale unit_pos
    _ = near b * unit * 2 ^ 2000 := Nat.mul_right_comm _ _ _

section Div
variable {l r : Int}

theorem div_ofInt (hl : l.natAbs ≤ 2 ^ 63) (hr : r.natAbs ≤ 2 ^ 63) (hne : r ≠ 0) :
    (ofInt l).div (ofInt r) =
      if l = 0 then zero (decide (r < 0))
      else round (decide (l < 0) != decide (r < 0)) (near l.natAbs * unit * unit)
        (near r.natAbs * unit) := by
  have hpos : 0 < near r.natAbs * unit := Nat.mul_pos (near_pos (by omega)) unit_pos
  unfold div
  dsimp only
  rw [isNaN_of_expo (expo_ofInt_lt hl), isNaN_of_expo (expo_ofInt_lt hr),
    isInf_of_expo (expo_ofInt_lt hl), isInf_of_expo (expo_ofInt_lt hr), isNeg_ofInt hl,
    isNeg_ofInt hr, magnitude_ofInt hl, magnitude_ofInt hr, if_neg hpos.ne']
  simp only [Bool.or_self, Bool.false_eq_true, if_false]
  rcases eq_or_ne l 0 with rfl | hl0
  · have hzero : near (Int.natAbs 0) * unit = 0 := by
      rw [Int.natAbs_zero, near_of_le (Nat.zero_le _), Nat.zero_mul]
    rw [if_pos hzero, if_pos rfl]
    simp
  · have hl' : 0 < near l.natAbs * unit := Nat.mul_pos (near_pos (by omega)) unit_pos
    rw [if_neg hl'.ne', if_neg hl0]

theorem isNeg_div_ofInt (hl : l.natAbs ≤ 2 ^ 63) (hr : r.natAbs ≤ 2 ^ 63) (hne : r ≠ 0) :
    ((ofInt l).div (ofInt r)).isNeg = (decide (l < 0) != decide (r < 0)) := by
  rw [div_ofInt hl hr hne]
  split
  · next h =>
    subst h
    rw [zero, isNeg_ofFields _ (by decide)]
    simp
  · exact isNeg_round _ (nearQuot_fields hl (by omega))

theorem expo_div_ofInt (hl : l.natAbs ≤ 2 ^ 63) (hr : r.natAbs ≤ 2 ^ 63) (hne : r ≠ 0) :
    ((ofInt l).div (ofInt r)).expo < 2047 := by
  rw [div_ofInt hl hr hne]
  split
  · rw [zero, expo_ofFields _ (by decide)]
    decide
  · exact expo_round_lt _ (nearQuot_fields hl (by omega))

theorem magnitude_div_ofInt (hl : l.natAbs ≤ 2 ^ 63) (hr : r.natAbs ≤ 2 ^ 63) (hne : r ≠ 0) :
    ((ofInt l).div (ofInt r)).magnitude = nearQuot l.natAbs r.natAbs := by
  have hpos : 0 < near r.natAbs := near_pos (by omega)
  rw [div_ofInt hl hr hne]
  split
  · next h =>
    subst h
    rw [Int.natAbs_zero, nearQuot_zero, zero]
    unfold magnitude
    rw [expo_ofFields _ (by decide), frac_ofFields _ (by decide)]
    rfl
  · rw [magnitude_round _ (Nat.mul_pos hpos unit_pos) (nearQuot_fields hl (by omega)),
      roundMag_mul_right _ _ unit_pos]
    rfl

end Div

/-! The floor of a finite double. -/

theorem magnitude_eq (x : Double) : ∃ m k, m ≤ 2 ^ 53 ∧ x.magnitude = m * 2 ^ k := by
  have hfrac : x.frac < 2 ^ 52 := Nat.mod_lt _ (by decide)
  unfold magnitude
  split
  · exact ⟨x.frac, 0, by omega, by rw [Nat.pow_zero, Nat.mul_one]⟩
  · exact ⟨2 ^ 52 + x.frac, x.expo - 1, by omega, rfl⟩

theorem natAbs_scaled (x : Double) : x.scaled.natAbs = x.magnitude := by
  unfold scaled
  split <;> omega

/-- A floor needs no more significant bits than the double. -/
theorem near_natAbs_floor (x : Double) :
    near (x.scaled / unit).natAbs = (x.scaled / unit).natAbs := by
  obtain ⟨m, k, hm, hmag⟩ := magnitude_eq x
  rw [← natAbs_scaled] at hmag
  have hunit : (0 : Int) < unit := Int.natCast_pos.mpr unit_pos
  rcases Nat.lt_or_ge k 1074 with hlt | hge
  · -- A fraction leaves a floor below the exact integers' bound.
    apply near_of_le
    have hbound : x.scaled.natAbs ≤ 2 ^ 53 * unit := by
      rw [hmag]
      exact Nat.mul_le_mul hm (Nat.pow_le_pow_right (by decide) hlt.le)
    have hlo : (-(2 ^ 53 : Nat) : Int) ≤ x.scaled / unit := by
      rw [Int.le_ediv_iff_mul_le hunit, Int.neg_mul, ← Int.natCast_mul]
      omega
    have hhi : x.scaled / unit ≤ (2 ^ 53 : Nat) := by
      refine Int.ediv_le_of_le_mul hunit ?_
      rw [← Int.natCast_mul]
      omega
    omega
  · obtain ⟨j, rfl⟩ := Nat.exists_eq_add_of_le hge
    have hmul : x.scaled.natAbs = m * 2 ^ j * unit := by
      rw [hmag, Nat.pow_add, Nat.mul_comm (2 ^ 1074), ← Nat.mul_assoc]
      rfl
    have habs : (x.scaled / unit).natAbs = m * 2 ^ j := by
      rcases Int.natAbs_eq x.scaled with heq | heq
      · rw [heq, hmul, Int.natCast_mul, Int.mul_ediv_cancel _ hunit.ne', Int.natAbs_natCast]
      · rw [heq, hmul, Int.natCast_mul, ← Int.neg_mul, Int.mul_ediv_cancel _ hunit.ne',
          Int.natAbs_neg, Int.natAbs_natCast]
    rw [habs]
    have hexact := roundMag_exact hm j Nat.one_pos
    rwa [Nat.mul_one] at hexact

theorem toLong_ofInt {n : Int} (h : n.natAbs ≤ 2 ^ 63) (hn : near n.natAbs = n.natAbs) :
    (ofInt n).toLong = if -2 ^ 63 ≤ n ∧ n < 2 ^ 63 then some n else none := by
  have hunit : (unit : Int) ≠ 0 := Int.natCast_ne_zero.mpr unit_pos.ne'
  have hself : nearInt n = n := by
    unfold nearInt
    split <;> omega
  unfold toLong
  rw [isNaN_of_expo (expo_ofInt_lt h), isInf_of_expo (expo_ofInt_lt h), scaled_ofInt h, hself,
    Int.mul_tdiv_cancel _ hunit]
  rfl

theorem toLong_floor {x : Double} (hx : x.expo < 2047) (hmag : x.magnitude ≤ 2 ^ 63 * unit) :
    x.floor.toLong =
      let n := x.scaled / unit
      if -2 ^ 63 ≤ n ∧ n < 2 ^ 63 then some n else none := by
  have hunit : (0 : Int) < unit := Int.natCast_pos.mpr unit_pos
  have hnear := near_natAbs_floor x
  have hscaled := natAbs_scaled x
  have hbound : (x.scaled / unit).natAbs ≤ 2 ^ 63 := by
    rw [← hscaled] at hmag
    have hlo : (-(2 ^ 63 : Nat) : Int) ≤ x.scaled / unit := by
      rw [Int.le_ediv_iff_mul_le hunit, Int.neg_mul, ← Int.natCast_mul]
      omega
    have hhi : x.scaled / unit ≤ (2 ^ 63 : Nat) := by
      refine Int.ediv_le_of_le_mul hunit ?_
      rw [← Int.natCast_mul]
      omega
    omega
  rcases Nat.eq_zero_or_pos x.magnitude with hzero | hpos
  · have hs : x.scaled = 0 := by omega
    have hfloor : x.floor = x := by
      unfold floor
      rw [if_pos (by simp [hzero])]
    unfold toLong
    rw [hfloor, isNaN_of_expo hx, isInf_of_expo hx, hs, Int.zero_tdiv, Int.zero_ediv]
    rfl
  · have hfloor : x.floor = roundInt (x.scaled / unit * unit) 1 false := by
      unfold floor
      rw [isNaN_of_expo hx, isInf_of_expo hx, if_neg (by simpa using hpos.ne')]
    rw [hfloor]
    dsimp only
    generalize x.scaled / unit = n at *
    rw [← toLong_ofInt hbound hnear]
    unfold roundInt
    rcases eq_or_ne n 0 with rfl | hn
    · rw [if_pos (Int.zero_mul _)]
      decide +kernel
    · have hneg : decide (n * unit < 0) = decide (n < 0) := by
        simp only [mul_neg_iff, hunit, hunit.not_gt, and_true, and_false, false_or]
      rw [if_neg (mul_ne_zero hn hunit.ne'), hneg, Int.natAbs_mul, Int.natAbs_natCast]
      rfl

/-! The floor of the quotient of two integers. -/

theorem near_near (n : Nat) : near (near n) = near n := by
  have h := roundMag_exact (significand_le n Nat.one_pos) (unitExpo n 1) Nat.one_pos
  rw [Nat.mul_one] at h
  exact h

theorem nearQuot_one (a : Nat) : nearQuot a 1 = near a * unit := by
  have hone : near 1 = 1 := near_of_le (by decide)
  unfold nearQuot
  rw [hone, near_mul_unit, near_near]

theorem nearQuot_le {a b : Nat} (ha : a ≤ 2 ^ 63) (hb : 0 < b) : nearQuot a b ≤ 2 ^ 63 * unit := by
  have hone : near 1 = 1 := near_of_le (by decide)
  have hle : nearQuot a b ≤ nearQuot a 1 := by
    refine roundMag_mono (near_pos hb) (near_pos Nat.one_pos) ?_
    rw [hone, Nat.mul_one]
    exact Nat.le_mul_of_pos_right _ (near_pos hb)
  calc nearQuot a b ≤ nearQuot a 1 := hle
    _ = near a * unit := nearQuot_one a
    _ ≤ 2 ^ 63 * unit := Nat.mul_le_mul_right _ (near_le ha)

/-- The quotients that are rounded up to the first integer that is not a `long long`. -/
theorem le_nearQuot_iff {a b : Nat} (ha : a ≤ 2 ^ 63) (hb : 0 < b) :
    2 ^ 63 * unit ≤ nearQuot a b ↔ b = 1 ∧ 2 ^ 63 - 512 ≤ a := by
  rcases Nat.lt_or_eq_of_le (Nat.succ_le_of_lt hb) with htwo | rfl
  · refine iff_of_false (Nat.not_le_of_lt ?_) (by omega)
    have hnear : 2 ≤ near b := by
      have htwo' : near 2 = 2 := near_of_le (by decide)
      exact htwo' ▸ near_mono htwo
    have hhalf : near (2 ^ 62) = 2 ^ 62 := by decide +kernel
    calc nearQuot a b ≤ roundMag (2 ^ 62 * unit) 1 := by
          refine roundMag_mono (near_pos hb) Nat.one_pos ?_
          calc near a * unit * 1 ≤ 2 ^ 63 * unit * 1 :=
                Nat.mul_le_mul_right _ (Nat.mul_le_mul_right _ (near_le ha))
            _ = 2 ^ 62 * unit * 2 := by ring
            _ ≤ 2 ^ 62 * unit * near b := Nat.mul_le_mul_left _ hnear
      _ = 2 ^ 62 * unit := by rw [near_mul_unit, hhalf]
      _ < 2 ^ 63 * unit := Nat.mul_lt_mul_of_pos_right (by decide) unit_pos
  · rw [nearQuot_one, Nat.mul_le_mul_right_iff unit_pos]
    rcases Nat.lt_or_ge a (2 ^ 63 - 512) with hlt | hge
    · refine iff_of_false (Nat.not_le_of_lt ?_) (by omega)
      have hbelow : near (2 ^ 63 - 513) < 2 ^ 63 := by decide +kernel
      exact Nat.lt_of_le_of_lt (near_mono (by omega)) hbelow
    · refine iff_of_true ?_ ⟨rfl, hge⟩
      have hpow : near (2 ^ 63 - 512) = 2 ^ 63 := by decide +kernel
      exact hpow ▸ near_mono hge

/-- The floor of the quotient as a double, without bounds. -/
def floorQuot (l r : Int) : Int :=
  (if decide (l < 0) != decide (r < 0) then -(nearQuot l.natAbs r.natAbs : Int)
    else nearQuot l.natAbs r.natAbs) / unit

section Floor
variable {l r : Int} (hl : l.natAbs ≤ 2 ^ 63) (hr : r.natAbs ≤ 2 ^ 63) (hne : r ≠ 0)
include hl hr hne

theorem toLong_floor_div :
    ((ofInt l).div (ofInt r)).floor.toLong =
      if -2 ^ 63 ≤ floorQuot l r ∧ floorQuot l r < 2 ^ 63 then some (floorQuot l r) else none := by
  have hscaled : ((ofInt l).div (ofInt r)).scaled =
      if decide (l < 0) != decide (r < 0) then -(nearQuot l.natAbs r.natAbs : Int)
        else nearQuot l.natAbs r.natAbs := by
    unfold scaled
    rw [isNeg_div_ofInt hl hr hne, magnitude_div_ofInt hl hr hne]
  have hmag : ((ofInt l).div (ofInt r)).magnitude ≤ 2 ^ 63 * unit := by
    rw [magnitude_div_ofInt hl hr hne]
    exact nearQuot_le hl (Int.natAbs_pos.mpr hne)
  rw [toLong_floor (expo_div_ofInt hl hr hne) hmag, hscaled]
  rfl

theorem le_floorQuot : -2 ^ 63 ≤ floorQuot l r := by
  have hle := nearQuot_le hl (Int.natAbs_pos.mpr hne)
  unfold floorQuot
  rw [Int.le_ediv_iff_mul_le (Int.natCast_pos.mpr unit_pos), Int.neg_mul]
  have hcast : (2 ^ 63 * unit : Int) = (2 ^ 63 * unit : Nat) := by push_cast; rfl
  rw [hcast]
  split <;> omega

omit hr in
theorem floorQuot_lt_iff :
    floorQuot l r < 2 ^ 63 ↔
      ¬ ((r = 1 ∧ 2 ^ 63 - 512 ≤ l) ∨ (r = -1 ∧ l ≤ -(2 ^ 63 - 512))) := by
  have hiff := le_nearQuot_iff hl (Int.natAbs_pos.mpr hne)
  have hcast : (2 ^ 63 * unit : Int) = (2 ^ 63 * unit : Nat) := by push_cast; rfl
  have hpos : 0 < 2 ^ 63 * unit := Nat.mul_pos (by decide) unit_pos
  unfold floorQuot
  rw [Int.ediv_lt_iff_lt_mul (Int.natCast_pos.mpr unit_pos), hcast]
  generalize 2 ^ 63 * unit = c at *
  split
  · next hsign =>
    have : decide (l < 0) ≠ decide (r < 0) := bne_iff_ne.mp hsign
    simp only [ne_eq, decide_eq_decide] at this
    omega
  · next hsign =>
    have : decide (l < 0) = decide (r < 0) := by simpa using hsign
    simp only [decide_eq_decide] at this
    omega

end Floor

end Aer.Data.Double
