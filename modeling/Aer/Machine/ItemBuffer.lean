import Aer.Machine.Slices

set_option linter.all false

/-! The buffer that holds the items of an array: its cells as they have been allocated, of
which the first `count` are in use. An access outside the allocated cells, or to a cell that
was never written, has no result. -/
namespace Aer.Machine

open Aer.Data Aer.Memory

/-- A number of the C type `unsigned int`. -/
def unsigned (n : Nat) : Nat := n % 2 ^ 32

/-- A `long long` read as an `unsigned long long`. -/
def unsignedLong (n : Int) : Nat := (n % 2 ^ 64).toNat

structure ItemBuffer where
  cells : List (Option AerVal)
  count : Nat
  capacity : Nat
  shape : Option Nat

namespace ItemBuffer

def read (b : ItemBuffer) (i : Nat) : Option AerVal := (b.cells[i]?).join

def write (b : ItemBuffer) (i : Nat) (v : AerVal) : Option ItemBuffer :=
  if i < b.cells.length then some { b with cells := b.cells.set i (some v) } else none

/-- A new buffer, nothing written. -/
def alloc (count capacity : Nat) : ItemBuffer := ⟨List.replicate capacity none, count, capacity, none⟩

/-- `memmove` of `n` cells. -/
def memmove (b : ItemBuffer) (dst src n : Nat) : Option ItemBuffer :=
  if dst + n ≤ b.cells.length ∧ src + n ≤ b.cells.length then
    some { b with
      cells := b.cells.take dst ++ (b.cells.drop src).take n ++ b.cells.drop (dst + n) }
  else none

/-- A larger capacity, and the buffer reallocated to it. -/
def grow (b : ItemBuffer) : ItemBuffer :=
  let capacity := if b.capacity = 0 then 4 else unsigned (b.capacity * 2)
  { b with
    cells := b.cells.take capacity ++ List.replicate (capacity - b.cells.length) none
    capacity }

def append (b : ItemBuffer) (v : AerVal) : Option ItemBuffer := do
  let b := if b.capacity ≤ b.count then b.grow else b
  let b ← b.write b.count v
  return { b with count := unsigned (b.count + 1) }

/-- The index of an access: a negative one counts from the end; `none` out of bounds. -/
def index (b : ItemBuffer) (i : Int) : Option Nat :=
  let i := if i < 0 then wrap64 (i + b.count) else i
  if i < 0 ∨ b.count ≤ unsignedLong i then none else some i.toNat

/-- The removal of item `i`, after its check. -/
def delete (b : ItemBuffer) (i : Nat) : Option ItemBuffer := do
  let b ← b.memmove i (i + 1) (b.count - i - 1)
  return { b with count := b.count - 1 }

/-- The items of a literal come off the stack, the last one first. -/
def popInto (b : ItemBuffer) : List AerVal → Option ItemBuffer
  | [] => some b
  | v :: below => do popInto (← b.write below.length v) below

def literal (vs : List AerVal) : Option ItemBuffer :=
  popInto (alloc vs.length (if 0 < vs.length then vs.length else 4)) vs.reverse

/-- Copy the next `n` items of `a` from `start + i` on to `i`. -/
def copyItems (a : ItemBuffer) (start : Nat) : Nat → Nat → ItemBuffer → Option ItemBuffer
  | 0, _, r => some r
  | n + 1, i, r => do copyItems a start n (i + 1) (← r.write i (← a.read (start + i)))

def slice (a : ItemBuffer) (start stop : Option Int) : Option ItemBuffer :=
  let (lo, hi) := sliceBounds start stop a.count
  let n := unsigned (hi - lo).toNat
  copyItems a lo.toNat n 0 (alloc n (if 0 < n then n else 4))

/-- The buffer is as large as its capacity, and holds these items. -/
structure Holds (b : ItemBuffer) (l : List AerVal) : Prop where
  cells : ∃ free, b.cells = l.map some ++ free
  allocated : b.cells.length = b.capacity
  count : b.count = l.length
  capacity : b.capacity < 2 ^ 32

section Holds
variable {b : ItemBuffer} {l : List AerVal}

theorem Holds.count_le (h : b.Holds l) : b.count ≤ b.capacity := by
  obtain ⟨free, hfree⟩ := h.cells
  have hlen := congrArg List.length hfree
  rw [List.length_append, List.length_map, h.allocated, ← h.count] at hlen
  omega

/-! Accesses. -/

theorem Holds.read (h : b.Holds l) {i : Nat} (hi : i < l.length) : b.read i = l[i]? := by
  obtain ⟨free, hfree⟩ := h.cells
  have hin : i < (l.map some).length := by rwa [List.length_map]
  unfold ItemBuffer.read
  rw [hfree, List.getElem?_append_left hin, List.getElem?_map, List.getElem?_eq_getElem hi]
  rfl

/-- Item `i` is replaced. -/
theorem Holds.write (h : b.Holds l) {i : Nat} (hi : i < l.length) (v : AerVal) :
    ∃ b', b.write i v = some b' ∧ b'.Holds (l.set i v) ∧ b'.shape = b.shape ∧
      b'.capacity = b.capacity := by
  obtain ⟨free, hfree⟩ := h.cells
  have hin : i < b.cells.length := by
    have hle := h.count_le
    rw [h.count] at hle
    rw [h.allocated]
    omega
  refine ⟨_, if_pos hin, ⟨⟨free, ?_⟩, ?_, ?_, h.capacity⟩, rfl, rfl⟩
  · rw [hfree, List.set_append_left _ _ (by rwa [List.length_map]), List.map_set]
  · rw [← h.allocated]
    exact List.length_set
  · rw [List.length_set]
    exact h.count

/-- The buffer with more cells, its contents left as they are. -/
theorem Holds.grow (h : b.Holds l) (hlen : l.length < 2 ^ 31) (hfull : b.capacity ≤ b.count) :
    b.grow.Holds l ∧ b.count < b.grow.capacity ∧ b.grow.count = b.count ∧
      b.grow.capacity = if b.capacity = 0 then 4 else b.capacity * 2 := by
  have hle := h.count_le
  have hcount := h.count
  obtain ⟨free, hfree⟩ := h.cells
  have hcap : b.capacity < (if b.capacity = 0 then 4 else unsigned (b.capacity * 2)) ∧
      (if b.capacity = 0 then 4 else unsigned (b.capacity * 2)) < 2 ^ 32 := by
    unfold unsigned
    split
    · omega
    · omega
  have hall := h.allocated
  refine ⟨⟨⟨free ++ List.replicate (b.grow.capacity - b.cells.length) none, ?_⟩, ?_, hcount, hcap.2⟩,
    ?_, rfl, ?_⟩
  · have htake : b.cells.take b.grow.capacity = b.cells :=
      List.take_of_length_le (by rw [hall]; exact hcap.1.le)
    change b.cells.take b.grow.capacity ++
      List.replicate (b.grow.capacity - b.cells.length) none = _
    rw [htake, ← List.append_assoc, ← hfree]
  · change (b.cells.take b.grow.capacity ++
      List.replicate (b.grow.capacity - b.cells.length) none).length = b.grow.capacity
    have hgrow : b.capacity < b.grow.capacity := hcap.1
    rw [List.length_append, List.length_take, List.length_replicate, hall]
    omega
  · have hgrow : b.capacity < b.grow.capacity := hcap.1
    omega
  · unfold ItemBuffer.grow unsigned
    dsimp only
    split <;> omega

/-- Behind the items in use, an item is written and counted. -/
theorem Holds.push (h : b.Holds l) (hlen : l.length < 2 ^ 31) (hroom : b.count < b.capacity)
    (v : AerVal) : ∃ b', b.write b.count v = some b' ∧
      ({ b' with count := unsigned (b'.count + 1) } : ItemBuffer).Holds (l ++ [v]) ∧
      b'.shape = b.shape ∧ b'.capacity = b.capacity := by
  obtain ⟨free, hfree⟩ := h.cells
  have hcount := h.count
  have hin : b.count < b.cells.length := by rwa [h.allocated]
  refine ⟨_, if_pos hin, ⟨?_, ?_, ?_, h.capacity⟩, rfl, rfl⟩
  · cases free with
    | nil =>
      rw [hfree, List.append_nil, List.length_map, hcount] at hin
      exact absurd hin (Nat.lt_irrefl _)
    | cons x free =>
      refine ⟨free, ?_⟩
      have hat : b.count = (l.map some).length := by rw [List.length_map, hcount]
      change b.cells.set b.count (some v) = _
      rw [hfree, hat, List.set_append_right _ _ le_rfl, Nat.sub_self, List.set_cons_zero,
        List.map_append, List.append_assoc]
      rfl
  · rw [← h.allocated]
    exact List.length_set
  · rw [List.length_append, List.length_singleton, ← hcount]
    unfold unsigned
    dsimp only
    omega

theorem Holds.append (h : b.Holds l) (hlen : l.length < 2 ^ 31) (v : AerVal) :
    ∃ b', b.append v = some b' ∧ b'.Holds (l ++ [v]) ∧ b'.shape = b.shape ∧
      b'.capacity = if b.capacity ≤ l.length then (if b.capacity = 0 then 4 else b.capacity * 2)
        else b.capacity := by
  rw [← h.count]
  unfold ItemBuffer.append
  split
  · next hfull =>
    obtain ⟨hgrown, hroom, hcount, hcapacity⟩ := h.grow hlen hfull
    obtain ⟨b', hb, hholds, hshape, hsame⟩ := hgrown.push hlen (hcount ▸ hroom) v
    refine ⟨_, ?_, hholds, hshape, hsame.trans hcapacity⟩
    dsimp only
    rw [hb]
    rfl
  · next hroom =>
    obtain ⟨b', hb, hholds, hshape, hsame⟩ := h.push hlen (Nat.lt_of_not_le hroom) v
    refine ⟨_, ?_, hholds, hshape, hsame⟩
    dsimp only
    rw [hb]
    rfl

/-- The items behind the removed one move up. -/
theorem Holds.delete (h : b.Holds l) {i : Nat} (hi : i < l.length) :
    ∃ b', b.delete i = some b' ∧ b'.Holds (l.eraseIdx i) ∧ b'.shape = b.shape ∧
      b'.capacity = b.capacity := by
  obtain ⟨free, hfree⟩ := h.cells
  have hcount := h.count
  have hle := h.count_le
  have hall := h.allocated
  have hinside : i + (b.count - i - 1) ≤ b.cells.length ∧
      i + 1 + (b.count - i - 1) ≤ b.cells.length := by omega
  have hmove : b.cells.take i ++ (b.cells.drop (i + 1)).take (b.count - i - 1) =
      (l.eraseIdx i).map some := by
    have hlast : b.count - i - 1 = ((l.map some).drop (i + 1)).length := by
      rw [List.length_drop, List.length_map]
      omega
    rw [hlast, hfree, List.take_append_of_le_length (by rw [List.length_map]; omega),
      List.drop_append_of_le_length (by rw [List.length_map]; omega), List.take_left,
      List.eraseIdx_eq_take_drop_succ, List.map_append, List.map_take, List.map_drop]
  refine ⟨⟨_, b.count - 1, b.capacity, b.shape⟩, ?_,
    ⟨⟨b.cells.drop (i + (b.count - i - 1)), congrArg (· ++ _) hmove⟩, ?_, ?_, h.capacity⟩, rfl, rfl⟩
  · unfold ItemBuffer.delete memmove
    rw [if_pos hinside]
    rfl
  · rw [← hall]
    simp only [List.length_append, List.length_take, List.length_drop]
    omega
  · rw [List.length_eraseIdx_of_lt hi]
    exact congrArg (· - 1) hcount

/-! Literals and slices. -/

theorem popInto_eq {ws : List AerVal} {rest : List (Option AerVal)}
    (hcells : b.cells = List.replicate ws.length none ++ rest) :
    popInto b ws = some { b with cells := ws.reverse.map some ++ rest } := by
  induction ws generalizing b rest with
  | nil =>
    rw [List.reverse_nil, List.map_nil, ← show b.cells = [] ++ rest from hcells]
    rfl
  | cons v below ih =>
    have hin : below.length < b.cells.length := by
      rw [hcells, List.length_append, List.length_replicate, List.length_cons]
      omega
    have hset : b.cells.set below.length (some v) =
        List.replicate below.length none ++ some v :: rest := by
      rw [hcells, List.length_cons, List.replicate_succ', List.append_assoc,
        List.set_append_right _ _ (by rw [List.length_replicate]), List.length_replicate,
        Nat.sub_self]
      rfl
    unfold popInto write
    rw [if_pos hin]
    refine (ih (b := { b with cells := b.cells.set below.length (some v) }) hset).trans ?_
    rw [List.reverse_cons, List.map_append, List.append_assoc]
    rfl

/-- A buffer of which the first `n` cells have been written. -/
theorem holds_filled {n : Nat} {cells : List (Option AerVal)} (hn : l.length = n) (hlt : n < 2 ^ 32)
    (hcells : cells = l.map some ++ List.replicate ((if 0 < n then n else 4) - n) none) :
    (⟨cells, n, if 0 < n then n else 4, none⟩ : ItemBuffer).Holds l := by
  refine ⟨⟨_, hcells⟩, ?_, hn.symm, ?_⟩
  · change cells.length = if 0 < n then n else 4
    rw [hcells, List.length_append, List.length_map, List.length_replicate, hn]
    split <;> omega
  · change (if 0 < n then n else 4) < 2 ^ 32
    split <;> omega

theorem replicate_split {n m : Nat} (h : n ≤ m) :
    List.replicate m (none : Option AerVal) = List.replicate n none ++ List.replicate (m - n) none := by
  rw [List.replicate_append_replicate, Nat.add_sub_cancel' h]

theorem le_capacity (n : Nat) : n ≤ if 0 < n then n else 4 := by
  split <;> omega

theorem holds_literal {vs : List AerVal} (hlen : vs.length < 2 ^ 32) :
    ∃ b, literal vs = some b ∧ b.Holds vs ∧ b.shape = none := by
  have hcells : (alloc vs.length (if 0 < vs.length then vs.length else 4)).cells =
      List.replicate vs.reverse.length none ++
        List.replicate ((if 0 < vs.length then vs.length else 4) - vs.length) none := by
    rw [List.length_reverse]
    exact replicate_split (le_capacity _)
  refine ⟨_, popInto_eq hcells, holds_filled (n := vs.length) rfl hlen ?_, rfl⟩
  rw [List.reverse_reverse]

theorem Holds.copyItems (h : b.Holds l) (start n : Nat) (pre : List AerVal) {r : ItemBuffer}
    {rest : List (Option AerVal)} (hr : r.cells = pre.map some ++ rest) (hrest : n ≤ rest.length)
    (hin : start + pre.length + n ≤ l.length) :
    copyItems b start n pre.length r = some { r with
      cells := (pre ++ (l.drop (start + pre.length)).take n).map some ++ rest.drop n } := by
  induction n generalizing pre r rest with
  | zero =>
    rw [List.take_zero, List.append_nil, List.drop_zero, ← hr]
    rfl
  | succ n ih =>
    have hlt : start + pre.length < l.length := by omega
    cases rest with
    | nil => exact absurd hrest (Nat.not_succ_le_zero n)
    | cons x rest =>
      have hroom : pre.length < r.cells.length := by
        rw [hr, List.length_append, List.length_map, List.length_cons]
        omega
      have hset : r.cells.set pre.length (some l[start + pre.length]) =
          (pre ++ [l[start + pre.length]]).map some ++ rest := by
        rw [hr, List.set_append_right _ _ (by rw [List.length_map]), List.length_map, Nat.sub_self,
          List.set_cons_zero, List.map_append, List.append_assoc]
        rfl
      have hnext := ih (pre ++ [l[start + pre.length]])
        (r := { r with cells := r.cells.set pre.length (some l[start + pre.length]) })
        hset (Nat.le_of_succ_le_succ hrest) (by
          rw [List.length_append, List.length_singleton]
          omega)
      rw [List.length_append, List.length_singleton] at hnext
      have hwrite : r.write pre.length l[start + pre.length] =
          some { r with cells := r.cells.set pre.length (some l[start + pre.length]) } := if_pos hroom
      unfold ItemBuffer.copyItems
      rw [h.read hlt, List.getElem?_eq_getElem hlt, Option.bind_eq_bind, Option.bind_some, hwrite,
        Option.bind_eq_bind, Option.bind_some]
      refine hnext.trans ?_
      rw [← Nat.add_assoc, List.drop_eq_getElem_cons hlt, List.take_succ_cons, List.append_assoc]
      rfl

theorem Holds.slice (h : b.Holds l) (hlen : l.length < 2 ^ 32) {start stop : Option Int}
    (hstart : IsLong (start.getD 0)) (hstop : IsLong (stop.getD l.length)) :
    ∃ r, b.slice start stop = some r ∧ r.Holds (Machine.slice l start stop) ∧ r.shape = none := by
  have hlength := length_slice hstart hstop hlen
  have hcopied := slice_eq hstart hstop hlen
  have hupper := sliceUpper_le stop l.length
  have hlower := sliceLower_nonneg start l.length
  unfold ItemBuffer.slice
  rw [h.count]
  rw [sliceBounds_eq hstart hstop hlen] at hlength hcopied ⊢
  dsimp only at hlength hcopied ⊢
  generalize sliceLower start l.length = lo at *
  generalize sliceUpper stop l.length = hi at *
  have hn : unsigned (max lo hi - lo).toNat = (max lo hi).toNat - lo.toNat := by
    unfold unsigned
    omega
  rw [hn]
  rw [Nat.mod_eq_of_lt (by omega)] at hcopied
  generalize hm : (max lo hi).toNat - lo.toNat = n at *
  have hlt : n < 2 ^ 32 := by omega
  by_cases hzero : n = 0
  · subst hzero
    refine ⟨_, rfl, holds_filled (n := 0) hlength hlt ?_, rfl⟩
    rw [List.length_eq_zero_iff.mp hlength]
    rfl
  · have hcopy := h.copyItems lo.toNat n []
      (r := alloc n (if 0 < n then n else 4))
      (show (alloc n _).cells = _ ++ List.replicate (if 0 < n then n else 4) none from rfl)
      (by rw [List.length_replicate]; exact le_capacity n) (by rw [List.length_nil]; omega)
    refine ⟨_, hcopy, holds_filled (n := n) hlength hlt ?_, rfl⟩
    rw [List.nil_append, List.length_nil, Nat.add_zero, hcopied, List.drop_replicate]

end Holds

end ItemBuffer

end Aer.Machine
