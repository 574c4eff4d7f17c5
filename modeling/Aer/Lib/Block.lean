import Mathlib.Data.List.Basic

set_option linter.all false

/-! Blocks of a fixed size, written piece by piece; a write past the end has no result. -/
namespace Aer.Lib.Block

variable {α : Type}

/-- Copy a piece into a block. -/
def write (block : List α) (pos : Nat) (piece : List α) : Option (List α) :=
  if pos + piece.length ≤ block.length then
    some (block.take pos ++ piece ++ block.drop (pos + piece.length))
  else none

/-- Copy pieces one behind the other, with the position counted modulo `m`. -/
def writeAll (m : Nat) : List (List α) → Nat → List α → Option (List α)
  | [], _, block => some block
  | piece :: pieces, pos, block =>
      (write block pos piece).bind (writeAll m pieces ((pos + piece.length) % m))

theorem write_of_le {block piece : List α} {pos : Nat} (h : pos + piece.length ≤ block.length) :
    write block pos piece =
      some (block.take pos ++ piece ++ block.drop (pos + piece.length)) :=
  if_pos h

theorem write_of_lt {block piece : List α} {pos : Nat} (h : block.length < pos + piece.length) :
    write block pos piece = none :=
  if_neg (Nat.not_le.mpr h)

/-- In a block smaller than the modulus the position does not come round: the pieces are written
if there is room for all of them. -/
theorem writeAll_eq {m pos : Nat} {block : List α} (pieces : List (List α)) (hm : block.length < m)
    (hpos : pos ≤ block.length) :
    writeAll m pieces pos block = write block pos pieces.flatten := by
  induction pieces generalizing pos block with
  | nil =>
    rw [write_of_le (by simpa using hpos)]
    simp [writeAll]
  | cons piece pieces ih =>
    rw [writeAll, List.flatten_cons]
    by_cases hfits : pos + piece.length ≤ block.length
    · have hlen : (block.take pos ++ piece ++ block.drop (pos + piece.length)).length =
          block.length := by
        simp only [List.length_append, List.length_take, List.length_drop]
        omega
      rw [write_of_le hfits, Option.bind_some, Nat.mod_eq_of_lt (by omega), ih (by omega) (by omega)]
      unfold write
      rw [hlen, List.length_append, Nat.add_assoc]
      split
      · next hall =>
        have hhead : (block.take pos ++ piece).length = pos + piece.length := by
          rw [List.length_append, List.length_take]
          omega
        rw [← Nat.add_assoc, ← hhead, List.take_left' rfl, List.drop_length_add_append,
          List.drop_drop, List.append_assoc _ piece]
      · rfl
    · rw [write_of_lt (Nat.lt_of_not_le hfits), Option.bind_none, write_of_lt]
      rw [List.length_append]
      omega

end Aer.Lib.Block
