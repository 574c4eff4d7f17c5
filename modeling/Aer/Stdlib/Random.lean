import Aer.Machine.FloorDivision
import Aer.Stdlib.Strings

set_option linter.all false

/-! `random.randint`, and the operators on integers whose C operations have no meaning on some
operands. -/
namespace Aer.Stdlib

open Aer.Data Aer.Data.Double Aer.Machine Aer.Lib.Interaction

/-- The `randint` of two integers; `rand` is the generator's next number. -/
def randintOf (rand : Nat) (lo hi : Int) : Call Int :=
  if hi < lo then fail "randint() requires min <= max"
  else
    let span := wrap64 (wrap64 (hi - lo) + 1)
    if span = 0 then undefined else return wrap64 (lo + (rand : Int).tmod span)

def randint (s : State) (rand : Nat) (lo hi : AerVal) : Call Int :=
  if lo.type ≠ .integer ∨ hi.type ≠ .integer then fail "randint() requires two integers"
  else do
    let lo ← orUndefined (s.asInt lo)
    let hi ← orUndefined (s.asInt hi)
    randintOf rand lo hi

section Randint
variable {lo hi : Int} (rand : Nat)

/-- The remainder by a span of the numbers from `lo` to `hi`, also by one that has wrapped. -/
theorem tmod_span (hlo : IsLong lo) (hhi : IsLong hi) (hle : lo ≤ hi)
    (hspan : wrap64 (wrap64 (hi - lo) + 1) ≠ 0) :
    0 ≤ (rand : Int).tmod (wrap64 (wrap64 (hi - lo) + 1)) ∧
      (rand : Int).tmod (wrap64 (wrap64 (hi - lo) + 1)) ≤ hi - lo := by
  have hnonneg := Int.tmod_nonneg (wrap64 (wrap64 (hi - lo) + 1)) (Int.natCast_nonneg rand)
  refine ⟨hnonneg, ?_⟩
  have hlt : (rand : Int).tmod (wrap64 (wrap64 (hi - lo) + 1)) <
      (wrap64 (wrap64 (hi - lo) + 1)).natAbs := by
    rcases lt_or_gt_of_ne hspan with hneg | hpos
    · have h := Int.tmod_lt_of_pos rand (Int.neg_pos.mpr hneg)
      rw [Int.tmod_neg] at h
      omega
    · have h := Int.tmod_lt_of_pos rand hpos
      omega
  generalize (rand : Int).tmod _ = m at *
  unfold wrap64 IsLong at *
  omega

theorem span_eq_zero_iff (hlo : IsLong lo) (hhi : IsLong hi) (hle : lo ≤ hi) :
    wrap64 (wrap64 (hi - lo) + 1) = 0 ↔ lo = -2 ^ 63 ∧ hi = 2 ^ 63 - 1 := by
  unfold wrap64 IsLong at *
  omega

theorem randintOf_inside (hlo : IsLong lo) (hhi : IsLong hi) (hle : lo ≤ hi)
    (hfull : ¬ (lo = -2 ^ 63 ∧ hi = 2 ^ 63 - 1)) :
    ∃ n, randintOf rand lo hi = .ok n ∧ lo ≤ n ∧ n ≤ hi := by
  have hspan := mt (span_eq_zero_iff hlo hhi hle).mp hfull
  obtain ⟨hnonneg, hbound⟩ := tmod_span rand hlo hhi hle hspan
  have hlong : IsLong (lo + (rand : Int).tmod (wrap64 (wrap64 (hi - lo) + 1))) := by
    unfold IsLong at *
    omega
  refine ⟨lo + (rand : Int).tmod (wrap64 (wrap64 (hi - lo) + 1)), ?_, by omega, by omega⟩
  unfold randintOf
  dsimp only
  rw [if_neg (Int.not_lt.mpr hle), if_neg hspan, wrap64_of_isLong hlong]
  rfl

theorem randintOf_full : randintOf rand (-2 ^ 63) (2 ^ 63 - 1) = undefined := by
  unfold randintOf
  rw [if_neg (by decide)]
  exact if_pos (by decide)

end Randint

/-- The calls and operators on two integers that C's arithmetic restricts. -/
inductive Guarded
  | floorDiv | mod | lshift | rshift | randint
  deriving DecidableEq

namespace Guarded

/-- An error is reported, or every C operation on the way to the result has a meaning; a random
number is inside its bounds. -/
def Safe (cfg : Config) (rand : Nat) (s : State) (a b : AerVal) (l r : Int) : Guarded → Prop
  | floorDiv => ((vmBinary a b .floorDiv).run (exec cfg) s).isDone = true
  | mod => ((vmBinary a b .mod).run (exec cfg) s).isDone = true
  | lshift => ((vmBinary a b .lshift).run (exec cfg) s).isDone = true
  | rshift => ((vmBinary a b .rshift).run (exec cfg) s).isDone = true
  | randint =>
      match Stdlib.randint s rand a b with
      | .ok n => l ≤ n ∧ n ≤ r
      | .error e => e ≠ .undefined

/-- The operands that the C operations allow. -/
def Allows (l r : Int) : Guarded → Prop
  | floorDiv => ¬ ((r = 1 ∧ 2 ^ 63 - 512 ≤ l) ∨ (r = -1 ∧ l ≤ -(2 ^ 63 - 512)))
  | mod => ¬ (l = -2 ^ 63 ∧ r = -1)
  | lshift | rshift => 0 ≤ r ∧ r < 64
  | randint => ¬ (l = -2 ^ 63 ∧ r = 2 ^ 63 - 1)

section
variable (cfg : Config) (rand : Nat) {s : State} {a b : AerVal} {l r : Int}
  (ha : s.asInt a = some l) (hb : s.asInt b = some r)
include ha hb

theorem isDone_shift_iff (op : Opcode) (f : BitVec 64 → Nat → BitVec 64)
    (hop : vmBinaryInt l r op = vmShift f l r) (hand : op ≠ .and) (hor : op ≠ .or)
    (hin : op ≠ .isIn) :
    ((vmBinary a b op).run (exec cfg) s).isDone = true ↔ 0 ≤ r ∧ r < 64 := by
  rw [run_vmBinary_int cfg ha hb op hand hor hin, hop]
  unfold vmShift
  split
  · next h => exact iff_of_true rfl h
  · next h => exact iff_of_false nofun h

theorem isDone_zero {op : Opcode} (msg : Bytes) (hand : op ≠ .and) (hor : op ≠ .or)
    (hin : op ≠ .isIn)
    (hop : vmBinaryInt l r op = do errorWith msg (← perform (.newInt 0))) :
    ((vmBinary a b op).run (exec cfg) s).isDone = true := by
  rw [run_vmBinary_int cfg ha hb op hand hor hin, hop]
  rfl

/-- Where the operators are guarded. -/
theorem safe_iff (hl : IsLong l) (hr : IsLong r) (op : Guarded) :
    op.Safe cfg rand s a b l r ↔ op.Allows l r := by
  have habs {n : Int} (hn : IsLong n) : n.natAbs ≤ 2 ^ 63 := by
    unfold IsLong at hn
    omega
  cases op with
  | floorDiv =>
    change ((vmBinary a b .floorDiv).run (exec cfg) s).isDone = true ↔ ¬ _
    rcases eq_or_ne r 0 with rfl | hne
    · refine iff_of_true (isDone_zero cfg ha hb _ nofun nofun nofun rfl) ?_
      omega
    · rw [floorDiv_isDone_iff cfg ha hb (habs hl) (habs hr) hne, floorQuot_lt_iff (habs hl) hne]
  | mod =>
    change ((vmBinary a b .mod).run (exec cfg) s).isDone = true ↔ ¬ _
    rcases eq_or_ne r 0 with rfl | hne
    · refine iff_of_true (isDone_zero cfg ha hb _ nofun nofun nofun rfl) ?_
      omega
    · rw [run_mod cfg ha hb hne]
      split
      · next h => exact iff_of_false nofun (not_not.mpr h)
      · next h => exact iff_of_true rfl h
  | lshift => exact isDone_shift_iff cfg ha hb .lshift _ rfl nofun nofun nofun
  | rshift => exact isDone_shift_iff cfg ha hb .rshift _ rfl nofun nofun nofun
  | randint =>
    have hrun : Stdlib.randint s rand a b = randintOf rand l r := by
      unfold Stdlib.randint
      rw [type_of_asInt ha, type_of_asInt hb, ha, hb]
      rfl
    unfold Safe Allows
    rw [hrun]
    by_cases hfull : l = -2 ^ 63 ∧ r = 2 ^ 63 - 1
    · refine iff_of_false ?_ (not_not.mpr hfull)
      rw [hfull.1, hfull.2, randintOf_full]
      exact fun h => h rfl
    · refine iff_of_true ?_ hfull
      rcases lt_or_ge r l with hlt | hle
      · have herror : randintOf rand l r = fail "randint() requires min <= max" := if_pos hlt
        rw [herror]
        exact nofun
      · obtain ⟨n, hn, hbounds⟩ := randintOf_inside rand hl hr hle hfull
        rw [hn]
        exact hbounds

end

theorem safe_iff_shift :
    lshift.Safe {} 0 .init (.integer ⟨1, by decide⟩) (.integer ⟨63, by decide⟩) 1 63 ↔
      lshift.Allows 1 63 :=
  safe_iff {} 0 rfl rfl (by decide) (by decide) lshift

/-- `1 << 64` is not guarded. -/
theorem lshift_unguarded :
    ¬ lshift.Safe {} 0 .init (.integer ⟨1, by decide⟩) (.integer ⟨64, by decide⟩) 1 64 := by
  change ¬ ((vmBinary _ _ .lshift).run (exec {}) State.init).isDone = true
  decide

end Guarded

end Aer.Stdlib
