import Aer.Lib.Intrusive
import Aer.Memory.Pool
import Mathlib.Logic.Relation

set_option linter.all false

/-! The slab allocator over addresses: cells lie in blocks that `malloc` gives, their
state bytes in blocks of their own, and the free list runs through the cells. The pool
of numbered cells is what it stands for. -/
namespace Aer.Memory

namespace Pool
variable {α : Type}

def promote (p : Pool α) (c : Nat) : Pool α :=
  p.setState c { p.cellState c with old := true }

/-- The free list is right, and what was never handed out has an unused state. -/
structure Sound (p : Pool α) : Prop where
  wf : p.Wf
  uncarved : ∀ c, p.carved ≤ c → p.isFreed c = false
  blank : ∀ c, p.slabCount * p.elemsPerSlab ≤ c → p.cellState c = {}

theorem carved_le_slabs {p : Pool α} (h : p.Wf) : p.carved ≤ p.slabCount * p.elemsPerSlab := by
  unfold carved
  have hnext := h.next
  split
  · rename_i h0
    simp [h0]
  · rename_i h0
    obtain ⟨n, hn⟩ := Nat.exists_eq_succ_of_ne_zero h0
    rw [hn, Nat.succ_mul, Nat.succ_sub_one]
    omega

end Pool

namespace Slabs

open Aer.Lib.Intrusive

def poolMarked : UInt8 := 1
def poolOld : UInt8 := 2
def poolFree : UInt8 := 4
def poolRemembered : UInt8 := 8

/-- What `pool_init` is called with: cells that hold a pointer, in slabs whose size is a
`size_t`. -/
structure Layout where
  elemSize : Nat
  elemsPerSlab : Nat
  pointer_le : 8 ≤ elemSize
  elems_pos : 0 < elemsPerSlab
  bytes_lt : elemSize * elemsPerSlab < 2 ^ 64

def Layout.slabBytes (L : Layout) : Nat := L.elemSize * L.elemsPerSlab

/-- A pool with the memory its cells lie in. -/
structure Store (L : Layout) where
  /-- The addresses of the slabs; `slab_count` is their number. -/
  slabs : List Nat
  cellState : Nat → Nat → UInt8
  slabCap : Nat
  nextIndex : Nat
  freeList : Nat
  mem : Mem
  totalAllocCount : Nat

namespace Store

variable {L : Layout}

def init (L : Layout) (mem : Mem) : Store L where
  slabs := []
  cellState := fun _ _ => 0
  slabCap := 0
  nextIndex := L.elemsPerSlab
  freeList := 0
  mem := mem
  totalAllocCount := 0

def setState (s : Store L) (i j : Nat) (b : UInt8) : Store L :=
  { s with cellState := Function.update s.cellState i (Function.update (s.cellState i) j b) }

/-- The address of cell `j` of slab `i`. -/
def cellAddr (s : Store L) (i j : Nat) : Nat := s.slabs.getD i 0 + j * L.elemSize

/-- `slab_cap` once there is room for one more slab. -/
def grownCap (s : Store L) : Nat :=
  if s.slabCap ≤ s.slabs.length then if s.slabCap = 0 then 4 else s.slabCap * 2 % 2 ^ 32
  else s.slabCap

/-- Growing by the block `malloc` gives. No bytes cannot be had: when the capacity has
wrapped to zero, the program ends. -/
def poolGrow (s : Store L) (block : Nat) : Option (Store L) :=
  if s.grownCap = 0 then none
  else
    some { s with
      slabCap := s.grownCap
      slabs := s.slabs ++ [block]
      cellState := Function.update s.cellState s.slabs.length fun _ => 0
      nextIndex := 0 }

def stateInSlabs (L : Layout) (cell : Nat) : Nat → List Nat → Option (Nat × Nat)
  | _, [] => none
  | i, slab :: rest =>
      if slab ≤ cell ∧ cell < slab + L.slabBytes then some (i, (cell - slab) / L.elemSize)
      else stateInSlabs L cell (i + 1) rest

/-- The place of a cell's state byte. -/
def cellStateOrNull (s : Store L) (cell : Nat) : Option (Nat × Nat) :=
  stateInSlabs L cell 0 s.slabs

/-- `none` is the fatal end of the program, here and below. -/
def poolCellState (s : Store L) (cell : Nat) : Option (Nat × Nat) := s.cellStateOrNull cell

/-- One more allocation of the pools together. -/
def counted (s : Store L) : Store L :=
  { s with totalAllocCount := (s.totalAllocCount + 1) % 2 ^ 32 }

/-- The head of the free list. -/
def reuse (s : Store L) : Option (Nat × Store L) :=
  let cell := s.freeList
  let rest := loadPtr s.mem cell
  (s.poolCellState cell).map fun (i, j) => (cell, { s.setState i j 0 with freeList := rest })

/-- The next cell of the last slab. -/
def carve (s : Store L) : Nat × Store L :=
  let i := s.slabs.length - 1
  (s.cellAddr i s.nextIndex, { s.setState i s.nextIndex 0 with nextIndex := s.nextIndex + 1 })

def poolAlloc (s : Store L) (block : Nat) : Option (Nat × Store L) :=
  if s.freeList ≠ 0 then s.counted.reuse
  else if L.elemsPerSlab ≤ s.nextIndex then (s.counted.poolGrow block).map carve
  else some s.counted.carve

/-- The cell becomes the head of the free list. -/
def push (s : Store L) (cell : Nat) : Store L :=
  { s with mem := storePtr s.mem cell s.freeList, freeList := cell }

def poolFree (s : Store L) (cell : Nat) : Option (Store L) :=
  (s.poolCellState cell).map fun (i, j) => (s.setState i j Slabs.poolFree).push cell

/-- Whether the cell was marked already, and the pool with its mark. -/
def poolMark (s : Store L) (cell : Nat) : Option (Bool × Store L) :=
  (s.poolCellState cell).map fun (i, j) =>
    if s.cellState i j &&& poolMarked ≠ 0 then (true, s)
    else (false, s.setState i j (s.cellState i j ||| poolMarked))

def poolPromote (s : Store L) (cell : Nat) : Option (Store L) :=
  (s.poolCellState cell).map fun (i, j) => s.setState i j (s.cellState i j ||| poolOld)

def poolMarkRemembered (s : Store L) (cell : Nat) : Option (Store L) :=
  (s.poolCellState cell).map fun (i, j) =>
    s.setState i j (s.cellState i j ||| Slabs.poolRemembered)

/-- The number of cells handed out of slab `i`. -/
def slabCells (s : Store L) (i : Nat) : Nat :=
  if i = s.slabs.length - 1 then s.nextIndex else L.elemsPerSlab

def sweepCell (youngOnly : Bool) (onFree : Nat → Mem → Mem) (i : Nat) (s : Store L) (j : Nat) :
    Option (Store L) :=
  let state := s.cellState i j
  if state &&& Slabs.poolFree ≠ 0 then some s
  else if youngOnly && state &&& poolOld ≠ 0 then some s
  else
    let cell := s.cellAddr i j
    if state &&& poolMarked ≠ 0 then
      some (s.setState i j ((state &&& ~~~poolMarked) ||| poolOld))
    else { s with mem := onFree cell s.mem }.poolFree cell

def poolSweep (s : Store L) (youngOnly : Bool) (onFree : Nat → Mem → Mem) : Option (Store L) :=
  (List.range s.slabs.length).foldlM (fun s i =>
    (List.range (s.slabCells i)).foldlM (sweepCell youngOnly onFree i) s) s

def poolClearMarks (s : Store L) : Store L :=
  (List.range s.slabs.length).foldl (fun s i =>
    (List.range (s.slabCells i)).foldl (fun s j =>
      s.setState i j (s.cellState i j &&& ~~~poolMarked)) s) s

/-! Runs of the pool, with its clients writing to their cells in between. -/

/-- Cell `j` of slab `i` has been handed out. -/
def Carved (s : Store L) (i j : Nat) : Prop := i < s.slabs.length ∧ j < s.slabCells i

def isFree (s : Store L) (i j : Nat) : Prop := s.cellState i j &&& Slabs.poolFree ≠ 0

instance (s : Store L) (i j : Nat) : Decidable (s.isFree i j) := inferInstanceAs (Decidable (_ ≠ _))

/-- The address of a cell that has been handed out and is not on the free list. -/
def Live (s : Store L) (cell : Nat) : Prop :=
  ∃ i j, s.Carved i j ∧ cell = s.cellAddr i j ∧ ¬ s.isFree i j

/-- What `malloc` promises of a new block: no null pointer, inside the address space and
apart from the blocks in use. -/
structure Unused (s : Store L) (block : Nat) : Prop where
  pos : 0 < block
  fits : block + L.slabBytes < 2 ^ 64
  apart : ∀ slab ∈ s.slabs, slab + L.slabBytes ≤ block ∨ block + L.slabBytes ≤ slab

/-- The next allocation needs a new slab. -/
def Grows (s : Store L) : Prop := s.freeList = 0 ∧ L.elemsPerSlab ≤ s.nextIndex

/-- The byte belongs to a slab. -/
def InSlabs (s : Store L) (b : Nat) : Prop := ∃ slab ∈ s.slabs, slab ≤ b ∧ b < slab + L.slabBytes

/-- The byte belongs to a live cell. -/
def InLive (s : Store L) (b : Nat) : Prop := ∃ cell, s.Live cell ∧ cell ≤ b ∧ b < cell + L.elemSize

/-- What is done with a cell that is swept reaches no other byte of the slabs. -/
def Contained (s : Store L) (onFree : Nat → Mem → Mem) : Prop :=
  ∀ cell m b, s.InSlabs b → (b < cell ∨ cell + L.elemSize ≤ b) → onFree cell m b = m b

inductive Step (s : Store L) : Store L → Prop
  | alloc {block cell : Nat} {t : Store L} (hm : s.Grows → s.Unused block)
      (h : s.poolAlloc block = some (cell, t)) : Step s t
  | free {cell : Nat} {t : Store L} (hl : s.Live cell) (h : s.poolFree cell = some t) : Step s t
  | mark {cell : Nat} {b : Bool} {t : Store L} (h : s.poolMark cell = some (b, t)) : Step s t
  | promote {cell : Nat} {t : Store L} (h : s.poolPromote cell = some t) : Step s t
  | markRemembered {cell : Nat} {t : Store L} (h : s.poolMarkRemembered cell = some t) : Step s t
  | sweep {youngOnly : Bool} {onFree : Nat → Mem → Mem} {t : Store L} (hf : s.Contained onFree)
      (h : s.poolSweep youngOnly onFree = some t) : Step s t
  | clearMarks : Step s s.poolClearMarks
  | write {m : Mem} (hm : ∀ b, s.InSlabs b → ¬ s.InLive b → m b = s.mem b) :
      Step s { s with mem := m }

/-- The states a pool can be in after `pool_init`. -/
def Reachable (s : Store L) : Prop := ∃ m, Relation.ReflTransGen Step (init L m) s

end Store

end Slabs

end Aer.Memory
