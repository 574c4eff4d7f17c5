import Aer.Memory.Collector

set_option linter.all false

/-! What the mark phase marks, and what it leaves alone. -/
namespace Aer.Memory

open Aer.Data Aer.Lib

namespace Pool

variable {α : Type}

/-- Two pools that differ in mark bits only. -/
structure MarksOnly (p q : Pool α) : Prop where
  carved : q.carved = p.carved
  data : q.data = p.data
  isFreed : ∀ c, q.isFreed c = p.isFreed c
  isYoung : ∀ c, q.isYoung c = p.isYoung c
  isRemembered : ∀ c, q.isRemembered c = p.isRemembered c
  wf : p.Wf → q.Wf

theorem MarksOnly.refl (p : Pool α) : p.MarksOnly p :=
  ⟨rfl, rfl, fun _ => rfl, fun _ => rfl, fun _ => rfl, id⟩

theorem MarksOnly.mark {p q : Pool α} (h : p.MarksOnly q) (c : Nat) : p.MarksOnly (q.mark c) where
  carved := h.carved
  data := h.data
  isFreed d := by rw [isFreed_mark, h.isFreed]
  isYoung d := by rw [isYoung_mark, h.isYoung]
  isRemembered d := by rw [isRemembered_mark, h.isRemembered]
  wf hp := (h.wf hp).mark c

theorem marksOnly_clearMarks (p : Pool α) : p.MarksOnly p.clearMarks where
  carved := rfl
  data := rfl
  isFreed := isFreed_clearMarks p
  isYoung := isYoung_clearMarks p
  isRemembered := isRemembered_clearMarks p
  wf := Wf.clearMarks

theorem MarksOnly.live {p q : Pool α} (h : p.MarksOnly q) (c : Nat) : q.Live c ↔ p.Live c := by
  rw [Live, Live, h.carved, h.isFreed]

theorem MarksOnly.sweepable {p q : Pool α} (h : p.MarksOnly q) (youngOnly : Bool) (c : Nat) :
    q.Sweepable youngOnly c ↔ p.Sweepable youngOnly c := by
  rw [Sweepable, Sweepable, h.live, h.isYoung]

end Pool

namespace Heap

structure MarksOnly (h k : Heap) : Prop where
  strings : h.strings.MarksOnly k.strings
  arrays : h.arrays.MarksOnly k.arrays
  dicts : h.dicts.MarksOnly k.dicts
  functions : h.functions.MarksOnly k.functions
  boxes : k.boxes = h.boxes.clearMarks
  longs : h.longs.MarksOnly k.longs
  entries : k.entries = h.entries
  shapes : k.shapes = h.shapes

theorem MarksOnly.mark {h k : Heap} (hm : h.MarksOnly k) (n : Cell) : h.MarksOnly (k.mark n) := by
  cases n with
  | string c => exact { hm with strings := hm.strings.mark c }
  | array c => exact { hm with arrays := hm.arrays.mark c }
  | dict c => exact { hm with dicts := hm.dicts.mark c }
  | function c => exact { hm with functions := hm.functions.mark c }
  | long c => exact { hm with longs := hm.longs.mark c }

theorem marksOnly_clearMarks (h : Heap) : h.MarksOnly h.clearMarks where
  strings := Pool.marksOnly_clearMarks _
  arrays := Pool.marksOnly_clearMarks _
  dicts := Pool.marksOnly_clearMarks _
  functions := Pool.marksOnly_clearMarks _
  boxes := rfl
  longs := Pool.marksOnly_clearMarks _
  entries := rfl
  shapes := rfl

theorem MarksOnly.readBox {h k : Heap} (hm : h.MarksOnly k) : k.readBox = h.readBox := by
  funext b
  cases b with
  | pooled c =>
    have hlive := (Pool.marksOnly_clearMarks h.boxes).live c
    simp only [Heap.readBox, hm.boxes, Pool.clearMarks_data, hlive]
  | spilled e => simp only [Heap.readBox, hm.entries]

theorem MarksOnly.isCarved {h k : Heap} (hm : h.MarksOnly k) : k.isCarved = h.isCarved := by
  funext n
  cases n with
  | string c => simp only [Heap.isCarved, hm.strings.carved]
  | array c => simp only [Heap.isCarved, hm.arrays.carved]
  | dict c => simp only [Heap.isCarved, hm.dicts.carved]
  | function c => simp only [Heap.isCarved, hm.functions.carved]
  | long c => simp only [Heap.isCarved, hm.longs.carved]

theorem MarksOnly.sameGraph {h k : Heap} (hm : h.MarksOnly k) : Tracing.SameGraph tracer h k := by
  refine ⟨fun v => ?_, fun n => ?_⟩
  · change k.cellOf v = h.cellOf v
    rw [cellOf, cellOf, hm.isCarved]
  · change k.edges n = h.edges n
    cases n with
    | array c => simp only [edges, hm.arrays.data]
    | dict c => simp only [edges, hm.dicts.data]
    | function c => simp only [edges, hm.functions.data, hm.readBox]
    | string c | long c => rfl

theorem isMarked_clearMarks (h : Heap) (n : Cell) : h.clearMarks.isMarked n = false := by
  rw [isMarked, Bool.and_eq_false_imp]
  intro hc
  cases n <;> exact Pool.isMarked_clearMarks (of_decide_eq_true hc)

/-- The values a collection marks from: the roots, and in a minor collection the
contents of the remembered containers. -/
def gcRoots (h : Heap) (roots : List Root) (minor : Bool) : List AerVal :=
  roots.map Root.toVal ++
    if minor then h.rememberedKept.flatMap h.rememberedItems else []

theorem seed_ref (r : Root) : r.seed.ref = r.toVal := by
  cases r <;> rfl

section Remembered
variable {h k : Heap}

theorem MarksOnly.rememberedAlive (hm : h.MarksOnly k) : k.rememberedAlive = h.rememberedAlive := by
  funext r
  cases r with
  | array c => simp only [Heap.rememberedAlive, hm.arrays.isFreed]
  | dict c => simp only [Heap.rememberedAlive, hm.dicts.isFreed]
  | box b =>
    cases b with
    | pooled c => simp only [Heap.rememberedAlive, hm.boxes, Pool.isFreed_clearMarks]
    | spilled e => rfl

theorem MarksOnly.rememberedKept (hm : h.MarksOnly k) (hr : k.remembered = h.remembered) :
    k.rememberedKept = h.rememberedKept := by
  simp only [Heap.rememberedKept, hr, hm.rememberedAlive]

theorem MarksOnly.rememberedItems (hm : h.MarksOnly k) : k.rememberedItems = h.rememberedItems := by
  funext r
  cases r with
  | array c => simp only [Heap.rememberedItems, hm.arrays.data]
  | dict c => simp only [Heap.rememberedItems, hm.dicts.data]
  | box b => simp only [Heap.rememberedItems, hm.readBox]

end Remembered

/-- Seeds that wait on the worklist only add to it. -/
theorem plant_later (s : Heap) (work vs : List AerVal) :
    (vs.map Tracing.Seed.later).foldl (Tracing.plant tracer) (s, work) = (s, vs.reverse ++ work) := by
  induction vs generalizing work with
  | nil => rfl
  | cons v vs ih =>
    rw [List.map_cons, List.foldl_cons, Tracing.plant, ih]
    simp

/-- The seeds of a mark phase: the roots, then the remembered contents. -/
def gcSeeds (h : Heap) (roots : List Root) (minor : Bool) : List (Tracing.Seed AerVal) :=
  roots.map Root.seed ++
    if minor then (h.rememberedKept.flatMap h.rememberedItems).map .later else []

theorem gcSeeds_ref (h : Heap) (roots : List Root) (minor : Bool) :
    (h.gcSeeds roots minor).map Tracing.Seed.ref = h.gcRoots roots minor := by
  have hseed : Tracing.Seed.ref ∘ Root.seed = Root.toVal := funext seed_ref
  have hlater : Tracing.Seed.ref ∘ (Tracing.Seed.later : AerVal → _) = id := rfl
  unfold gcSeeds gcRoots
  rw [List.map_append, List.map_map, hseed]
  cases minor with
  | false => rfl
  | true => simp only [↓reduceIte, List.map_map, hlater, List.map_id]

theorem marksOnly_markRoots (h : Heap) (roots : List Root) :
    h.MarksOnly (h.clearMarks.markRoots roots).1 ∧
      (h.clearMarks.markRoots roots).1.remembered = h.remembered := by
  refine Tracing.seeds_preserves tracer (P := fun k => h.MarksOnly k ∧ k.remembered = h.remembered)
    ?_ _ ⟨h.marksOnly_clearMarks, rfl⟩
  rintro k n ⟨hm, hr⟩
  exact ⟨hm.mark n, by cases n <;> exact hr⟩

/-- The worklist a mark phase drains is the one its seeds leave. -/
theorem markPhase_work (h : Heap) (roots : List Root) (minor : Bool) :
    (if minor then traceRemembered (h.clearMarks.markRoots roots)
      else h.clearMarks.markRoots roots) =
      (h.gcSeeds roots minor).foldl (Tracing.plant tracer) (h.clearMarks, []) := by
  obtain ⟨hm, hr⟩ := h.marksOnly_markRoots roots
  unfold gcSeeds
  rw [List.foldl_append]
  cases minor with
  | false => rfl
  | true =>
    simp only [↓reduceIte]
    change _ = List.foldl _ (h.clearMarks.markRoots roots) _
    rw [traceRemembered, hm.rememberedKept hr, hm.rememberedItems, ← plant_later]

theorem mem_cells {h : Heap} {n : Cell} (hn : h.isCarved n = true) : n ∈ h.cells := by
  cases n <;> simpa [cells, isCarved] using hn

theorem markDrain_done (s : Heap × List AerVal) :
    (Tracing.drain tracer (Tracing.bound tracer s.1 s.1.cells s.2) s.1 s.2).2 = [] :=
  Tracing.drain_done tracer (fun _ _ hv => mem_cells (isCarved_of_cellOf hv)) (Nat.le_refl _)

theorem marksOnly_markDrain {h : Heap} {s : Heap × List AerVal} (hm : h.MarksOnly s.1) :
    h.MarksOnly (markDrain s) :=
  Tracing.drain_preserves tracer (fun _ n hm => hm.mark n) _ _ hm

theorem MarksOnly.setRemembered {h k : Heap} (hm : h.MarksOnly k) (rs : List Remembered) :
    h.MarksOnly { k with remembered := rs } :=
  ⟨hm.strings, hm.arrays, hm.dicts, hm.functions, hm.boxes, hm.longs, hm.entries, hm.shapes⟩

theorem marksOnly_markPhase (h : Heap) (roots : List Root) (minor : Bool) :
    h.MarksOnly (h.markPhase roots minor) := by
  have hroots := (h.marksOnly_markRoots roots).1
  cases minor with
  | false =>
    simp only [markPhase, Bool.false_eq_true, ↓reduceIte]
    exact marksOnly_markDrain hroots
  | true =>
    have hdrain : h.MarksOnly (markDrain (traceRemembered (h.clearMarks.markRoots roots))) :=
      marksOnly_markDrain hroots
    simp only [markPhase, ↓reduceIte]
    exact hdrain.setRemembered _

theorem isMarked_setRemembered (h : Heap) (rs : List Remembered) (n : Cell) :
    ({ h with remembered := rs } : Heap).isMarked n = h.isMarked n := by
  cases n <;> rfl

theorem isMarked_markPhase (h : Heap) (roots : List Root) (minor : Bool) (n : Cell) :
    (h.markPhase roots minor).isMarked n =
      (markDrain ((h.gcSeeds roots minor).foldl (Tracing.plant tracer) (h.clearMarks, []))).isMarked n := by
  rw [← markPhase_work, markPhase]
  cases minor with
  | false => rfl
  | true => simp only [↓reduceIte, isMarked_setRemembered]

/-- The mark phase marks exactly the cells its roots reach. -/
theorem markPhase_marks (h : Heap) (roots : List Root) (minor : Bool) (n : Cell) :
    (h.markPhase roots minor).isMarked n = true ↔
      Tracing.Reach tracer h (h.gcRoots roots minor) n := by
  have hsame := h.marksOnly_clearMarks.sameGraph
  have htrace := Tracing.trace_reach tracer h.isMarked_clearMarks
    (markDrain_done ((h.gcSeeds roots minor).foldl (Tracing.plant tracer) (h.clearMarks, []))) n
  rw [gcSeeds_ref] at htrace
  rw [isMarked_markPhase]
  exact htrace.trans ⟨.congr _ hsame.symm, .congr _ hsame⟩

end Heap

end Aer.Memory
