import Aer.Memory.MarkPhase

set_option linter.all false

/-! A collection seen at the level of single cells: which cells it frees, which
survive, and what it keeps of them. -/
namespace Aer.Memory

open Aer.Data Aer.Lib

namespace Heap

/-- A cell in use: carved and not on the free list. -/
def Live (h : Heap) : Cell → Prop
  | .string c => h.strings.Live c
  | .array c => h.arrays.Live c
  | .dict c => h.dicts.Live c
  | .function c => h.functions.Live c
  | .long c => h.longs.Live c

def isYoung (h : Heap) : Cell → Bool
  | .string c => h.strings.isYoung c
  | .array c => h.arrays.isYoung c
  | .dict c => h.dicts.isYoung c
  | .function c => h.functions.isYoung c
  | .long c => h.longs.isYoung c

/-- The cells the sweep of a collection considers. -/
def Sweepable (h : Heap) (minor : Bool) (n : Cell) : Prop :=
  h.Live n ∧ (minor = true → h.isYoung n = true)

theorem isCarved_of_live {h : Heap} {n : Cell} (hn : h.Live n) : h.isCarved n = true := by
  cases n <;> exact decide_eq_true hn.1

theorem cellOf_of_live {h : Heap} {v : AerVal} {n : Cell} (hv : Cell.ofVal v = some n)
    (hn : h.Live n) : h.cellOf v = some n :=
  Option.filter_eq_some_iff.mpr ⟨hv, isCarved_of_live hn⟩

theorem ofVal_of_cellOf {h : Heap} {v : AerVal} {n : Cell} (hv : h.cellOf v = some n) :
    Cell.ofVal v = some n :=
  (Option.filter_eq_some_iff.mp hv).1

theorem MarksOnly.live {h k : Heap} (hm : h.MarksOnly k) (n : Cell) : k.Live n ↔ h.Live n := by
  cases n with
  | string c => exact hm.strings.live c
  | array c => exact hm.arrays.live c
  | dict c => exact hm.dicts.live c
  | function c => exact hm.functions.live c
  | long c => exact hm.longs.live c

theorem MarksOnly.isYoung {h k : Heap} (hm : h.MarksOnly k) (n : Cell) :
    k.isYoung n = h.isYoung n := by
  cases n with
  | string c => exact hm.strings.isYoung c
  | array c => exact hm.arrays.isYoung c
  | dict c => exact hm.dicts.isYoung c
  | function c => exact hm.functions.isYoung c
  | long c => exact hm.longs.isYoung c

theorem isMarked_of_live {h : Heap} {n : Cell} (hn : h.Live n) : h.isMarked n = h.markBit n := by
  rw [isMarked, isCarved_of_live hn, Bool.true_and]

theorem live_sweep (h : Heap) (minor : Bool) (n : Cell) :
    (h.sweep minor).Live n ↔
      h.Live n ∧ (h.markBit n = true ∨ (minor = true ∧ h.isYoung n = false)) := by
  cases n <;> exact Pool.live_sweep _ _

/-- What survives a collection: the reachable cells, and in a minor one the old. -/
theorem live_gcCollect (h : Heap) (roots : List Root) (minor : Bool) (n : Cell) :
    (h.gcCollect roots minor).Live n ↔
      h.Live n ∧ (Tracing.Reach tracer h (h.gcRoots roots minor) n ∨
        (minor = true ∧ h.isYoung n = false)) := by
  have hm := h.marksOnly_markPhase roots minor
  rw [gcCollect, live_sweep, hm.live, hm.isYoung, ← markPhase_marks]
  refine and_congr_right fun hn => ?_
  rw [isMarked_of_live ((hm.live n).mpr hn)]

/-- A collection frees exactly the cells it considers and its roots do not reach. -/
theorem freed_by_gcCollect (h : Heap) (roots : List Root) (minor : Bool) (n : Cell) :
    (h.Live n ∧ ¬ (h.gcCollect roots minor).Live n) ↔
      h.Sweepable minor n ∧ ¬ Tracing.Reach tracer h (h.gcRoots roots minor) n := by
  rw [live_gcCollect, Sweepable]
  cases h.isYoung n <;> cases minor <;> simp +contextual

/-- Boxes carry no mark when the sweep comes to them, so it frees every one it considers. -/
theorem box_freed_by_gcCollect (h : Heap) (roots : List Root) (minor : Bool) (c : Nat) :
    (h.boxes.Live c ∧ ¬ (h.gcCollect roots minor).boxes.Live c) ↔ h.boxes.Sweepable minor c := by
  have hm := h.marksOnly_markPhase roots minor
  change (h.boxes.Live c ∧ ¬ ((h.markPhase roots minor).boxes.sweep minor).Live c) ↔ _
  rw [hm.boxes]
  have hclear := Pool.marksOnly_clearMarks h.boxes
  rw [← hclear.live, Pool.freed_by_sweep, hclear.sweepable]
  exact and_iff_left_of_imp fun hs => Pool.isMarked_clearMarks hs.1.1

section Kept
variable (h : Heap) (roots : List Root) (minor : Bool)

theorem sweep_data (k : Heap) : (k.sweep minor).arrays.data = k.arrays.data ∧
    (k.sweep minor).dicts.data = k.dicts.data ∧
    (k.sweep minor).functions.data = k.functions.data :=
  ⟨Pool.sweep_data _, Pool.sweep_data _, Pool.sweep_data _⟩

theorem isCarved_sweep (k : Heap) (n : Cell) : (k.sweep minor).isCarved n = k.isCarved n := by
  cases n <;> simp [isCarved, sweep]

theorem cellOf_gcCollect (v : AerVal) : (h.gcCollect roots minor).cellOf v = h.cellOf v := by
  rw [cellOf, cellOf, gcCollect, funext (isCarved_sweep minor _),
    (h.marksOnly_markPhase roots minor).isCarved]

theorem gcCollect_data :
    (h.gcCollect roots minor).arrays.data = h.arrays.data ∧
      (h.gcCollect roots minor).dicts.data = h.dicts.data ∧
      (h.gcCollect roots minor).functions.data = h.functions.data := by
  have hm := h.marksOnly_markPhase roots minor
  obtain ⟨ha, hd, hf⟩ := sweep_data minor (h.markPhase roots minor)
  exact ⟨ha.trans hm.arrays.data, hd.trans hm.dicts.data, hf.trans hm.functions.data⟩

/-- Every survivor of a collection is old. -/
theorem isYoung_gcCollect {n : Cell} (hn : (h.gcCollect roots minor).Live n) :
    (h.gcCollect roots minor).isYoung n = false := by
  cases n <;> exact (Pool.survivor_sweep hn).1

theorem remembered_mark (k : Heap) (n : Cell) : (k.mark n).remembered = k.remembered := by
  cases n <;> rfl

theorem remembered_markDrain (s : Heap × List AerVal) :
    (markDrain s).remembered = s.1.remembered := by
  have hmark : ∀ k n, k.remembered = s.1.remembered →
      (tracer.mark k n).remembered = s.1.remembered :=
    fun k n hk => (remembered_mark k n).trans hk
  unfold markDrain
  exact Tracing.drain_preserves tracer (P := fun k => k.remembered = s.1.remembered) hmark _ s.2 rfl

theorem remembered_gcCollect :
    (h.gcCollect roots minor).remembered = if minor then h.rememberedKept else h.remembered := by
  obtain ⟨hm, hr⟩ := h.marksOnly_markRoots roots
  cases minor with
  | true =>
    simp only [gcCollect, sweep, markPhase, ↓reduceIte]
    exact hm.rememberedKept hr
  | false =>
    simp only [gcCollect, sweep, markPhase, Bool.false_eq_true, ↓reduceIte, remembered_markDrain]
    exact hr

end Kept

end Heap

end Aer.Memory
