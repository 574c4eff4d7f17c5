import Aer.Memory.Heap
import Aer.Lib.Tracing

set_option linter.all false

/-! The collector: marking from the roots, and the sweep of the six pools. -/
namespace Aer.Memory

open Aer.Data Aer.Lib

/-- The cells that carry a mark bit and are marked by the trace. -/
inductive Cell
  | string (cell : Nat)
  | array (cell : Nat)
  | dict (cell : Nat)
  | function (cell : Nat)
  | long (cell : Nat)
  deriving DecidableEq, Inhabited

namespace Cell

def ofVal : AerVal → Option Cell
  | .string c => some (.string c)
  | .array c => some (.array c)
  | .dict c => some (.dict c)
  | .function c => some (.function c)
  | .long c => some (.long c)
  | .null | .boolean _ | .integer _ | .real _ => none

end Cell

/-- A root: a value to push, or the function of a call frame to mark at once. -/
inductive Root
  | value (v : AerVal)
  | function (cell : Nat)
  deriving DecidableEq, Inhabited

def Root.toVal : Root → AerVal
  | value v => v
  | function c => .function c

def Root.seed : Root → Tracing.Seed AerVal
  | value v => .later v
  | function c => .now (.function c)

namespace Heap

def isCarved (h : Heap) : Cell → Bool
  | .string c => c < h.strings.carved
  | .array c => c < h.arrays.carved
  | .dict c => c < h.dicts.carved
  | .function c => c < h.functions.carved
  | .long c => c < h.longs.carved

def markBit (h : Heap) : Cell → Bool
  | .string c => h.strings.isMarked c
  | .array c => h.arrays.isMarked c
  | .dict c => h.dicts.isMarked c
  | .function c => h.functions.isMarked c
  | .long c => h.longs.isMarked c

def isMarked (h : Heap) (n : Cell) : Bool :=
  h.isCarved n && h.markBit n

def mark (h : Heap) : Cell → Heap
  | .string c => { h with strings := h.strings.mark c }
  | .array c => { h with arrays := h.arrays.mark c }
  | .dict c => { h with dicts := h.dicts.mark c }
  | .function c => { h with functions := h.functions.mark c }
  | .long c => { h with longs := h.longs.mark c }

def cellOf (h : Heap) (v : AerVal) : Option Cell :=
  (Cell.ofVal v).filter h.isCarved

/-- The values a container cell holds; a function holds those in its boxes. -/
def edges (h : Heap) : Cell → List AerVal
  | .array c => (h.arrays.data c).items
  | .dict c => (h.dicts.data c).values
  | .function c => (h.functions.data c).upvalues.filterMap h.readBox
  | .string _ | .long _ => []

theorem isCarved_mark (h : Heap) (n m : Cell) : (h.mark n).isCarved m = h.isCarved m := by
  cases n <;> cases m <;> rfl

theorem isCarved_of_cellOf {h : Heap} {v : AerVal} {n : Cell} (hv : h.cellOf v = some n) :
    h.isCarved n = true :=
  (Option.filter_eq_some_iff.mp hv).2

theorem isMarked_mark (h : Heap) (v : AerVal) (n : Cell) (hv : h.cellOf v = some n) (m : Cell) :
    (h.mark n).isMarked m = true ↔ m = n ∨ h.isMarked m = true := by
  have hbit : (h.mark n).markBit m = true ↔ m = n ∨ h.markBit m = true := by
    cases n <;> cases m <;> simp [mark, markBit, Pool.isMarked_mark]
  simp only [isMarked, isCarved_mark, Bool.and_eq_true, hbit]
  refine ⟨fun ⟨hc, hm⟩ => hm.imp id fun hm => ⟨hc, hm⟩, ?_⟩
  rintro (rfl | ⟨hc, hm⟩)
  · exact ⟨isCarved_of_cellOf hv, .inl rfl⟩
  · exact ⟨hc, .inr hm⟩

theorem cellOf_mark (h : Heap) (n : Cell) (v : AerVal) : (h.mark n).cellOf v = h.cellOf v := by
  rw [cellOf, cellOf, funext (isCarved_mark h n)]

theorem edges_mark (h : Heap) (n m : Cell) : (h.mark n).edges m = h.edges m := by
  have hbox : (h.mark n).readBox = h.readBox := by
    funext b
    cases n <;> rfl
  cases m with
  | function c =>
    have hdata : (h.mark n).functions.data = h.functions.data := by cases n <;> rfl
    simp only [edges, hbox, hdata]
  | string c | long c => rfl
  | array c | dict c => cases n <;> rfl

def tracer : Tracing.Tracer Heap AerVal Cell where
  node := cellOf
  children := edges
  isMarked := isMarked
  mark := mark
  isMarked_mark := isMarked_mark
  node_mark := cellOf_mark
  children_mark := edges_mark

def clearMarks (h : Heap) : Heap :=
  { h with
    strings := h.strings.clearMarks
    arrays := h.arrays.clearMarks
    dicts := h.dicts.clearMarks
    functions := h.functions.clearMarks
    boxes := h.boxes.clearMarks
    longs := h.longs.clearMarks }

/-- Push the root values, and mark the functions of the frames as they are met. -/
def markRoots (h : Heap) (roots : List Root) : Heap × List AerVal :=
  (roots.map Root.seed).foldl (Tracing.plant tracer) (h, [])

/-- Whether an entry of the remembered set still names a cell in use. -/
def rememberedAlive (h : Heap) : Remembered → Bool
  | .array c => !h.arrays.isFreed c
  | .dict c => !h.dicts.isFreed c
  | .box (.pooled c) => !h.boxes.isFreed c
  | .box (.spilled _) => true

def rememberedItems (h : Heap) : Remembered → List AerVal
  | .array c => (h.arrays.data c).items
  | .dict c => (h.dicts.data c).values
  | .box b => (h.readBox b).toList

/-- The entries of cells in use; a minor collection drops the others. -/
def rememberedKept (h : Heap) : List Remembered :=
  h.remembered.filter h.rememberedAlive

/-- Push what the remembered containers hold. -/
def traceRemembered (s : Heap × List AerVal) : Heap × List AerVal :=
  (s.1, (s.1.rememberedKept.flatMap s.1.rememberedItems).reverse ++ s.2)

/-- Every cell that a value can denote. -/
def cells (h : Heap) : List Cell :=
  (List.range h.strings.carved).map .string ++ (List.range h.arrays.carved).map .array ++
    (List.range h.dicts.carved).map .dict ++ (List.range h.functions.carved).map .function ++
    (List.range h.longs.carved).map .long

/-- Empty the worklist; the bound on the visits makes the loop structural. -/
def markDrain (s : Heap × List AerVal) : Heap :=
  (Tracing.drain tracer (Tracing.bound tracer s.1 s.1.cells s.2) s.1 s.2).1

def sweep (h : Heap) (minor : Bool) : Heap :=
  { h with
    strings := h.strings.sweep minor
    arrays := h.arrays.sweep minor
    dicts := h.dicts.sweep minor
    functions := h.functions.sweep minor
    boxes := h.boxes.sweep minor
    longs := h.longs.sweep minor }

/-- The mark phase. The remembered set is compacted in the loop that pushes its
items; nothing of the trace reads it, so it is replaced at the end here. -/
def markPhase (h : Heap) (roots : List Root) (minor : Bool) : Heap :=
  let s := h.clearMarks.markRoots roots
  if minor then { markDrain (traceRemembered s) with remembered := s.1.rememberedKept }
  else markDrain s

def gcCollect (h : Heap) (roots : List Root) (minor : Bool) : Heap :=
  (h.markPhase roots minor).sweep minor

end Heap

end Aer.Memory
