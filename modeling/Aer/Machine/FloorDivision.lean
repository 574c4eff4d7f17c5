import Aer.Data.IntQuotient
import Aer.Machine.RangeLoop
import Aer.Memory.Growth

set_option linter.all false

/-! Floor division of integers, which goes through doubles, and the remainder, which does not. -/
namespace Aer.Machine

open Aer.Data Aer.Data.Double Aer.Memory Aer.Lib Aer.Lib.Interaction

/-- The handler ends with a value that holds the integer. -/
def Yields (cfg : Config) (p : Handler AerVal) (s : State) (n : Int) : Prop :=
  ∃ v t, p.run (exec cfg) s = .done v t ∧ t.asInt v = some n

theorem Yields.unique {cfg : Config} {p : Handler AerVal} {s : State} {m n : Int}
    (hm : Yields cfg p s m) (hn : Yields cfg p s n) : m = n := by
  obtain ⟨v, t, hrun, hv⟩ := hm
  obtain ⟨w, u, hrun', hw⟩ := hn
  rw [hrun] at hrun'
  cases hrun'
  rw [hv] at hw
  exact Option.some.inj hw

section Operators
variable (cfg : Config) {s : State} {a b : AerVal} {l r : Int}

theorem run_asInt {v : AerVal} {n : Int} (hv : s.asInt v = some n) :
    (perform (.asInt v)).run (exec cfg) s = .done n s := by
  have hread : exec cfg (.asInt v) s = .done n s := by
    change orFault (s.asInt v) s = _
    rw [hv]
    rfl
  unfold perform
  rw [run_perform, hread]

theorem yields_newInt (hw : s.heap.longs.Wf) (n : Int) : Yields cfg (perform (.newInt n)) s n :=
  ⟨_, _, rfl, (asInt_aerInt hw).1⟩

/-- The operators that have a path for integers. -/
theorem run_vmBinary_int (ha : s.asInt a = some l) (hb : s.asInt b = some r) (op : Opcode)
    (hand : op ≠ .and) (hor : op ≠ .or) (hin : op ≠ .isIn) :
    (vmBinary a b op).run (exec cfg) s = (vmBinaryInt l r op).run (exec cfg) s := by
  unfold vmBinary
  simp only [hand, hor, hin, if_false, type_of_asInt ha, type_of_asInt hb, and_self, if_true]
  rw [run_bind, run_asInt cfg ha, Outcome.done_andThen, run_bind, run_asInt cfg hb,
    Outcome.done_andThen]

/-- Floor division by what its quotient is as a `long long`. The quotient of doubles is set aside
before anything looks into it. -/
theorem vmFloorDiv_eq (l r : Int) :
    vmFloorDiv l r =
      ((ofInt l).div (ofInt r)).floor.toLong.elim
        (do
          perform .fault
          return .null)
        fun n => perform (.newInt n) := by
  have hdef : vmFloorDiv = vmFloorDiv := rfl
  conv_rhs at hdef => delta vmFloorDiv
  rw [hdef]
  clear hdef
  beta_reduce
  generalize ((ofInt l).div (ofInt r)).floor.toLong = o
  cases o <;> rfl

section FloorDiv
variable (ha : s.asInt a = some l) (hb : s.asInt b = some r) (hl : l.natAbs ≤ 2 ^ 63)
  (hr : r.natAbs ≤ 2 ^ 63) (hne : r ≠ 0)
include ha hb hl hr hne

/-- Floor division gives the floor of the quotient as a double, unless that overflows. -/
theorem run_floorDiv :
    (vmBinary a b .floorDiv).run (exec cfg) s =
      (if floorQuot l r < 2 ^ 63 then perform (.newInt (floorQuot l r))
        else do
          perform .fault
          return .null : Handler AerVal).run (exec cfg) s := by
  rw [run_vmBinary_int cfg ha hb .floorDiv nofun nofun nofun]
  change (if r = 0 then _ else vmFloorDiv l r : Handler AerVal).run (exec cfg) s = _
  have hlong := toLong_floor_div hl hr hne
  simp only [le_floorQuot hl hr hne, true_and] at hlong
  rw [if_neg hne, vmFloorDiv_eq, hlong]
  by_cases hlt : floorQuot l r < 2 ^ 63
  · rw [if_pos hlt, if_pos hlt, Option.elim_some]
  · rw [if_neg hlt, if_neg hlt, Option.elim_none]

theorem floorDiv_isDone_iff :
    ((vmBinary a b .floorDiv).run (exec cfg) s).isDone = true ↔ floorQuot l r < 2 ^ 63 := by
  rw [run_floorDiv cfg ha hb hl hr hne]
  split
  · next h => exact iff_of_true rfl h
  · next h => exact iff_of_false nofun h

theorem yields_floorDiv_iff (hw : s.heap.longs.Wf) {n : Int} :
    Yields cfg (vmBinary a b .floorDiv) s n ↔ n = floorQuot l r ∧ n < 2 ^ 63 := by
  have hrun := run_floorDiv cfg ha hb hl hr hne
  by_cases hlt : floorQuot l r < 2 ^ 63
  · rw [if_pos hlt] at hrun
    have hnew : Yields cfg (vmBinary a b .floorDiv) s (floorQuot l r) := by
      unfold Yields
      rw [hrun]
      exact yields_newInt cfg hw _
    constructor
    · intro h
      have heq : n = floorQuot l r := h.unique hnew
      exact ⟨heq, heq ▸ hlt⟩
    · rintro ⟨rfl, -⟩
      exact hnew
  · rw [if_neg hlt] at hrun
    constructor
    · rintro ⟨v, t, h, -⟩
      rw [hrun] at h
      cases h
    · rintro ⟨rfl, h⟩
      exact absurd h hlt

end FloorDiv

theorem run_mod (ha : s.asInt a = some l) (hb : s.asInt b = some r) (hne : r ≠ 0) :
    (vmBinary a b .mod).run (exec cfg) s =
      (if l = -2 ^ 63 ∧ r = -1 then do
          perform .fault
          return .null
        else perform (.newInt (l.tmod r)) : Handler AerVal).run (exec cfg) s := by
  rw [run_vmBinary_int cfg ha hb .mod nofun nofun nofun]
  change (if r = 0 then _ else vmMod l r : Handler AerVal).run (exec cfg) s = _
  rw [if_neg hne]
  rfl

end Operators

/-- Operands of one sign, or a zero dividend. -/
def SameSign (l r : Int) : Prop := 0 ≤ l ∧ 0 < r ∨ l ≤ 0 ∧ r < 0

instance (l r : Int) : Decidable (SameSign l r) := inferInstanceAs (Decidable (_ ∨ _))

section Integers
variable {l r : Int}

theorem tdiv_of_sameSign (h : SameSign l r) : l.tdiv r = (l.natAbs / r.natAbs : Nat) := by
  rcases h with ⟨hl, hr⟩ | ⟨hl, hr⟩
  · obtain ⟨m, rfl⟩ := Int.eq_ofNat_of_zero_le hl
    obtain ⟨n, rfl⟩ := Int.eq_ofNat_of_zero_le hr.le
    rfl
  · obtain ⟨m, hm⟩ := Int.eq_ofNat_of_zero_le (Int.neg_nonneg.mpr hl)
    obtain ⟨n, hn⟩ := Int.eq_ofNat_of_zero_le (Int.neg_pos.mpr hr).le
    obtain rfl : l = -m := by omega
    obtain rfl : r = -n := by omega
    rw [Int.neg_tdiv_neg, Int.natAbs_neg, Int.natAbs_neg]
    rfl

theorem tdiv_of_not_sameSign (hne : r ≠ 0) (h : ¬ SameSign l r) :
    l.tdiv r = -(l.natAbs / r.natAbs : Nat) := by
  have hopp : SameSign (-l) r := by
    unfold SameSign at h ⊢
    omega
  rw [← Int.natAbs_neg l, ← tdiv_of_sameSign hopp, Int.neg_tdiv, Int.neg_neg]

/-- Floor division is division towards zero, less one where a part below zero is cut off. -/
theorem fdiv_eq_ite (hne : r ≠ 0) :
    l.fdiv r = if SameSign l r ∨ r ∣ l then l.tdiv r else l.tdiv r - 1 := by
  rw [Int.fdiv_eq_tdiv]
  by_cases hdvd : r ∣ l
  · rw [if_pos hdvd, if_pos (.inr hdvd), Int.sub_zero]
  · have hl : l ≠ 0 := fun hz => hdvd (hz ▸ Int.dvd_zero r)
    simp only [hdvd, if_false, or_false, SameSign]
    rcases lt_or_gt_of_ne hne with hr | hr
    · rw [Int.sign_eq_neg_one_of_neg hr]
      split <;> split <;> omega
    · rw [Int.sign_eq_one_of_pos hr]
      split <;> split <;> omega

/-- The quotient and C's remainder make up the dividend. -/
theorem consistent_iff (hl : IsLong l) (hr : IsLong r) (hne : r ≠ 0) :
    wrap64 (wrap64 (l.fdiv r * r) + l.tmod r) = l ↔ SameSign l r ∨ r ∣ l := by
  have hsplit := Int.tdiv_mul_add_tmod l r
  rw [fdiv_eq_ite hne]
  split
  · next h =>
    refine iff_of_true ?_ h
    unfold wrap64 IsLong at *
    omega
  · next h =>
    refine iff_of_false ?_ h
    rw [Int.sub_mul]
    unfold wrap64 IsLong at *
    omega

/-- The doubles nearest to the operands have a quotient that is rounded neither below the floor
nor up to the next integer, and nothing below zero is cut off. -/
def FloorExact (l r : Int) : Prop :=
  let num := near l.natAbs * unit
  let den := near r.natAbs
  let q := l.natAbs / r.natAbs
  if SameSign l r then Reaches num den (q * unit) ∧ ¬ Reaches num den ((q + 1) * unit)
  else r ∣ l ∧ Reaches num den ((q - 1) * unit + 1) ∧ ¬ Reaches num den (q * unit + 1)

instance (l r : Int) : Decidable (FloorExact l r) := by
  unfold FloorExact
  infer_instance

theorem floorQuot_of_sameSign (h : SameSign l r) :
    floorQuot l r = (nearQuot l.natAbs r.natAbs / unit : Nat) := by
  unfold floorQuot
  rcases eq_or_ne l 0 with rfl | hl
  · rw [Int.natAbs_zero, nearQuot_zero, Int.natCast_zero, Int.neg_zero, ite_self, Int.zero_ediv,
      Nat.zero_div, Int.natCast_zero]
  · have hsign : (decide (l < 0) != decide (r < 0)) = false := by
      unfold SameSign at h
      rw [bne_eq_false_iff_eq, decide_eq_decide]
      omega
    rw [hsign]
    rfl

theorem floorQuot_of_not_sameSign (hne : r ≠ 0) (h : ¬ SameSign l r) :
    floorQuot l r = -(nearQuot l.natAbs r.natAbs : Int) / unit := by
  have hsign : (decide (l < 0) != decide (r < 0)) = true := by
    unfold SameSign at h
    rw [bne_iff_ne, ne_eq, decide_eq_decide]
    omega
  unfold floorQuot
  rw [hsign, if_pos rfl]

theorem floorQuot_eq_iff_sameSign (hne : r ≠ 0) (h : SameSign l r) :
    floorQuot l r = l.tdiv r ↔
      Reaches (near l.natAbs * unit) (near r.natAbs) (l.natAbs / r.natAbs * unit) ∧
        ¬ Reaches (near l.natAbs * unit) (near r.natAbs) ((l.natAbs / r.natAbs + 1) * unit) := by
  have hden := near_pos (Int.natAbs_pos.mpr hne)
  rw [floorQuot_of_sameSign h, tdiv_of_sameSign h, ← le_roundMag_iff hden, ← le_roundMag_iff hden,
    Nat.not_le]
  change ((nearQuot l.natAbs r.natAbs / unit : Nat) : Int) = _ ↔
    _ ≤ nearQuot l.natAbs r.natAbs ∧ nearQuot l.natAbs r.natAbs < _
  rw [Int.natCast_inj, Nat.div_eq_iff unit_pos]
  have := unit_pos
  rw [Nat.add_mul, Nat.one_mul]
  omega

theorem floorQuot_eq_iff_not_sameSign (hne : r ≠ 0) (h : ¬ SameSign l r) (hdvd : r ∣ l) :
    floorQuot l r = l.tdiv r ↔
      Reaches (near l.natAbs * unit) (near r.natAbs) ((l.natAbs / r.natAbs - 1) * unit + 1) ∧
        ¬ Reaches (near l.natAbs * unit) (near r.natAbs) (l.natAbs / r.natAbs * unit + 1) := by
  have hden := near_pos (Int.natAbs_pos.mpr hne)
  have hquot : 0 < l.natAbs / r.natAbs := by
    have hl : l ≠ 0 := by
      rintro rfl
      unfold SameSign at h
      omega
    exact Nat.div_pos (Nat.le_of_dvd (Int.natAbs_pos.mpr hl) (Int.natAbs_dvd_natAbs.mpr hdvd))
      (Int.natAbs_pos.mpr hne)
  rw [floorQuot_of_not_sameSign hne h, tdiv_of_not_sameSign hne h, ← le_roundMag_iff hden,
    ← le_roundMag_iff hden]
  change _ ↔ _ ≤ nearQuot l.natAbs r.natAbs ∧ ¬ _ ≤ nearQuot l.natAbs r.natAbs
  have hunit : (0 : Int) < unit := Int.natCast_pos.mpr unit_pos
  rw [Int.ediv_eq_iff_of_pos hunit]
  obtain ⟨q, hq⟩ := Nat.exists_eq_add_of_le' hquot
  rw [hq, Nat.add_sub_cancel]
  have hmul : (q + 1) * unit = q * unit + unit := by ring
  have hcast : -((q + 1 : Nat) : Int) * unit = -((q * unit : Nat) + unit) := by
    push_cast
    ring
  rw [hcast, hmul]
  omega

/-- Where floor division is the floor and fits the remainder. -/
theorem floorExact_iff (hl : IsLong l) (hr : IsLong r) (hne : r ≠ 0) :
    (floorQuot l r = l.fdiv r ∧ wrap64 (wrap64 (l.fdiv r * r) + l.tmod r) = l) ↔
      FloorExact l r := by
  rw [consistent_iff hl hr hne, fdiv_eq_ite hne]
  unfold FloorExact
  dsimp only
  by_cases hsign : SameSign l r
  · rw [if_pos (.inl hsign), if_pos hsign, floorQuot_eq_iff_sameSign hne hsign]
    exact and_iff_left (.inl hsign)
  · rw [if_neg hsign]
    by_cases hdvd : r ∣ l
    · rw [if_pos (.inr hdvd), floorQuot_eq_iff_not_sameSign hne hsign hdvd,
        and_iff_left (.inr hdvd), and_iff_right hdvd]
    · exact iff_of_false (fun h => h.2.elim hsign hdvd) fun h => hdvd h.1

end Integers

section Exact
variable (cfg : Config) {s : State} {a b : AerVal} {l r : Int}

/-- Floor division and the remainder give integers, the first is the floor, and the two make up
the dividend. -/
def DividesExactly (s : State) (a b : AerVal) (l r : Int) : Prop :=
  Yields cfg (vmBinary a b .floorDiv) s (l.fdiv r) ∧
    ∃ q m, Yields cfg (vmBinary a b .floorDiv) s q ∧ Yields cfg (vmBinary a b .mod) s m ∧
      wrap64 (wrap64 (q * r) + m) = l

theorem dividesExactly_iff (hw : s.heap.longs.Wf) (ha : s.asInt a = some l)
    (hb : s.asInt b = some r) (hl : IsLong l) (hr : IsLong r) (hne : r ≠ 0)
    (hrep : IsLong (l.fdiv r)) : DividesExactly cfg s a b l r ↔ FloorExact l r := by
  have habs {n : Int} (hn : IsLong n) : n.natAbs ≤ 2 ^ 63 := by
    unfold IsLong at hn
    omega
  have hfloor (n : Int) := yields_floorDiv_iff cfg ha hb (habs hl) (habs hr) hne hw (n := n)
  have hmod : Yields cfg (vmBinary a b .mod) s (l.tmod r) := by
    have hover : ¬ (l = -2 ^ 63 ∧ r = -1) := by
      rintro ⟨rfl, rfl⟩
      revert hrep
      decide
    unfold Yields
    rw [run_mod cfg ha hb hne, if_neg hover]
    exact yields_newInt cfg hw _
  rw [← floorExact_iff hl hr hne]
  constructor
  · rintro ⟨hq, q, m, hq', hm, hsum⟩
    obtain rfl := hq'.unique hq
    obtain rfl := hm.unique hmod
    exact ⟨((hfloor _).mp hq).1.symm, hsum⟩
  · rintro ⟨hq, hsum⟩
    have hyields := (hfloor _).mpr ⟨hq.symm, hrep.2⟩
    exact ⟨hyields, _, _, hyields, hmod, hsum⟩

theorem dividesExactly_iff_sevens :
    DividesExactly {} .init (.integer ⟨-7, by decide⟩) (.integer ⟨7, by decide⟩) (-7) 7 ↔
      FloorExact (-7) 7 :=
  dividesExactly_iff {} Heap.poolsWf_init.longs rfl rfl (by decide) (by decide) (by decide)
    (by decide)

end Exact

/-- A machine that holds 2^53 + 1, the first integer that is not a double. -/
def holdingLong : State :=
  { State.init with heap := (Heap.init.aerInt (2 ^ 53 + 1)).2 }

/-- `9007199254740993 // 1` is 9007199254740992. -/
theorem floorDiv_rounds :
    ¬ DividesExactly {} holdingLong (.long 0) (.integer ⟨1, by decide⟩) (2 ^ 53 + 1) 1 := by
  have hw : holdingLong.heap.longs.Wf := (asInt_aerInt (s := .init) Heap.poolsWf_init.longs).2.1
  have ha : holdingLong.asInt (.long 0) = some (2 ^ 53 + 1) := by decide +kernel
  rintro ⟨h, -⟩
  have hquot := ((yields_floorDiv_iff {} ha rfl (by decide) (by decide) (by decide) hw).mp h).1
  revert hquot
  decide +kernel

end Aer.Machine
