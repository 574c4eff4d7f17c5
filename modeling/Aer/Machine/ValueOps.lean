import Aer.Lib.Footprint
import Aer.Machine.Step

set_option linter.all false

/-! The parts of the handlers that compute with values: the operations they perform
read the heap, allocate strings and integers, and report errors. -/
namespace Aer.Machine

open Aer.Data Aer.Memory Aer.Lib.Interaction

@[grind] def Op.isValue : Op → Bool
  | .asInt _ | .string _ | .array _ | .dict _ | .function _ | .newInt _ | .newString _ | .error _
  | .fault => true
  | _ => false

def ValueOnly {α : Type} (p : Handler α) : Prop := p.Only fun o => o.isValue = true

namespace ValueOnly

variable {α β : Type}

@[grind ←] theorem pure (a : α) : ValueOnly (pure a) := trivial

@[grind ←] theorem perform {o : Op} (h : o.isValue = true) : ValueOnly (perform o) :=
  Only.perform h

@[grind ←] theorem bind {p : Handler α} {f : α → Handler β} (hp : ValueOnly p)
    (hf : ∀ a, ValueOnly (f a)) : ValueOnly (p >>= f) :=
  Only.bind hp hf

end ValueOnly

@[grind ←] theorem valueOnly_errorWith (m v) : ValueOnly (errorWith m v) := by
  unfold errorWith
  grind -ring -linarith

@[grind ←] theorem valueOnly_vmTruthy (v) : ValueOnly (vmTruthy v) := by
  unfold vmTruthy
  grind -ring -linarith

@[grind ←] theorem valueOnly_vmMod (m v) : ValueOnly (vmMod m v) := by
  unfold vmMod
  grind -ring -linarith

@[grind ←] theorem valueOnly_vmShift (f m v) : ValueOnly (vmShift f m v) := by
  unfold vmShift
  grind -ring -linarith

@[grind ←] theorem valueOnly_vmFloorDiv (l r : Int) : ValueOnly (vmFloorDiv l r) := by
  have h : vmFloorDiv = vmFloorDiv := rfl
  conv_rhs at h => delta vmFloorDiv
  rw [h]
  clear h
  beta_reduce
  generalize ((Double.ofInt l).div (.ofInt r)).floor.toLong = o
  cases o <;> dsimp only <;> grind -ring -linarith

@[grind ←] theorem valueOnly_vmBinaryInt (l r op) : ValueOnly (vmBinaryInt l r op) := by
  unfold vmBinaryInt
  grind -ring -linarith

@[grind ←] theorem valueOnly_vmBinaryReal (l r op) : ValueOnly (vmBinaryReal l r op) := by
  unfold vmBinaryReal
  grind -ring -linarith

@[grind ←] theorem valueOnly_vmEquality (b op m) : ValueOnly (vmEquality b op m) := by
  unfold vmEquality
  grind -ring -linarith

@[grind ←] theorem valueOnly_vmPromoteReal (v) : ValueOnly (vmPromoteReal v) := by
  unfold vmPromoteReal
  grind -ring -linarith

@[grind ←] theorem valueOnly_vmBinaryOther (a b op) : ValueOnly (vmBinaryOther a b op) := by
  unfold vmBinaryOther
  grind -ring -linarith

@[grind ←] theorem valueOnly_valuesEqual (a b) : ValueOnly (valuesEqual a b) := by
  unfold valuesEqual
  grind -ring -linarith

@[grind ←] theorem valueOnly_containsEqual (a vs) : ValueOnly (containsEqual a vs) := by
  induction vs with
  | nil => exact .pure _
  | cons v vs ih =>
    unfold containsEqual
    grind -ring -linarith

@[grind ←] theorem valueOnly_vmIn (a b) : ValueOnly (vmIn a b) := by
  unfold vmIn
  grind -ring -linarith

theorem valueOnly_vmBinary (a b op) : ValueOnly (vmBinary a b op) := by
  unfold vmBinary
  grind -ring -linarith

theorem valueOnly_vmIndexGetCompute (a b) : ValueOnly (vmIndexGetCompute a b) := by
  unfold vmIndexGetCompute
  grind -ring -linarith

end Aer.Machine
