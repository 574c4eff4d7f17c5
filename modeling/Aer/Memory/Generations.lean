import Aer.Memory.Sweep

set_option linter.all false

/-! Generational collection on heaps without captures: the invariant that couples
ages, remembered bits and the remembered set, and its preservation by every
mutator step and by both kinds of collection. -/
namespace Aer.Memory

open Aer.Data Aer.Lib

namespace Heap

/-- A value that names no cell, or a cell in use. -/
def Valid (h : Heap) (v : AerVal) : Prop :=
  ∀ n, Cell.ofVal v = some n → h.Live n

/-- The containers the remembered set can hold. -/
def entryOf : Cell → Option Remembered
  | .array c => some (.array c)
  | .dict c => some (.dict c)
  | .string _ | .function _ | .long _ => none

def rememberedBit (h : Heap) : Cell → Bool
  | .array c => h.arrays.isRemembered c
  | .dict c => h.dicts.isRemembered c
  | .string _ | .function _ | .long _ => false

def InRemembered (h : Heap) (n : Cell) : Prop :=
  ∃ r, entryOf n = some r ∧ r ∈ h.remembered

structure PoolsWf (h : Heap) : Prop where
  strings : h.strings.Wf
  arrays : h.arrays.Wf
  dicts : h.dicts.Wf
  functions : h.functions.Wf
  longs : h.longs.Wf

structure CaptureFree (h : Heap) : Prop where
  boxes : ∀ c, ¬ h.boxes.Live c
  upvalues : ∀ c, (h.functions.data c).upvalues = []

structure Generational (h : Heap) : Prop where
  wf : h.PoolsWf
  captureFree : h.CaptureFree
  valid : ∀ n, h.Live n → ∀ v ∈ h.edges n, h.Valid v
  barrier : ∀ n, h.Live n → h.isYoung n = false →
    ∀ v ∈ h.edges n, h.valueIsYoung v = true → h.InRemembered n
  bit : ∀ n, h.Live n → h.rememberedBit n = true → h.InRemembered n

theorem valueIsYoung_iff (h : Heap) (v : AerVal) :
    h.valueIsYoung v = true ↔ ∃ n, Cell.ofVal v = some n ∧ h.isYoung n = true := by
  cases v <;> simp [valueIsYoung, Cell.ofVal, isYoung]

theorem edges_function {h : Heap} (hf : h.CaptureFree) (c : Nat) : h.edges (.function c) = [] := by
  simp [edges, hf.upvalues]

theorem edges_eq_nil {h : Heap} (hf : h.CaptureFree) {n : Cell} (hn : entryOf n = none) :
    h.edges n = [] := by
  cases n with
  | function c => exact edges_function hf c
  | string c | long c => rfl
  | array c | dict c => cases hn

/-- The cells reachable from a list of values. -/
abbrev Reaches (h : Heap) (vs : List AerVal) (n : Cell) : Prop :=
  Tracing.Reach tracer h vs n

/-- What the roots reach is in use. -/
theorem Generational.live_of_reach {h : Heap} (hg : h.Generational) {vs : List AerVal}
    (hvs : ∀ v ∈ vs, h.Valid v) {n : Cell} (hn : h.Reaches vs n) : h.Live n := by
  induction hn with
  | root hv hnode => exact hvs _ hv _ (ofVal_of_cellOf hnode)
  | step _ hv hnode ih => exact hg.valid _ ih _ hv _ (ofVal_of_cellOf hnode)

/-! Allocation. -/

/-- The heap gains one young cell that was not in use, and nothing else changes. -/
structure Allocated (h h' : Heap) (n : Cell) : Prop where
  fresh : ¬ h.Live n
  live : ∀ m, h'.Live m ↔ m = n ∨ h.Live m
  young : h'.isYoung n = true
  bit : h'.rememberedBit n = false
  isYoung : ∀ m, m ≠ n → h'.isYoung m = h.isYoung m
  rememberedBit : ∀ m, m ≠ n → h'.rememberedBit m = h.rememberedBit m
  edges : ∀ m, m ≠ n → h'.edges m = h.edges m
  remembered : h'.remembered = h.remembered
  wf : h.PoolsWf → h'.PoolsWf
  captureFree : h.CaptureFree → h'.CaptureFree

theorem Allocated.valid {h h' : Heap} {n : Cell} (ha : Allocated h h' n) {v : AerVal}
    (hv : h.Valid v) : h'.Valid v :=
  fun m hm => (ha.live m).mpr (.inr (hv m hm))

theorem Allocated.valueIsYoung {h h' : Heap} {n : Cell} (ha : Allocated h h' n) {v : AerVal}
    (hv : h.Valid v) : h'.valueIsYoung v = h.valueIsYoung v := by
  rw [Bool.eq_iff_iff, valueIsYoung_iff, valueIsYoung_iff]
  refine exists_congr fun m => and_congr_right fun hm => ?_
  rw [ha.isYoung m (by rintro rfl; exact ha.fresh (hv _ hm))]

theorem Generational.allocated {h h' : Heap} {n : Cell} (hg : h.Generational)
    (ha : Allocated h h' n) (hn : ∀ v ∈ h'.edges n, h.Valid v) : h'.Generational where
  wf := ha.wf hg.wf
  captureFree := ha.captureFree hg.captureFree
  valid m hm v hv := by
    rcases (ha.live m).mp hm with rfl | hm
    · exact ha.valid (hn v hv)
    · have hne : m ≠ n := by rintro rfl; exact ha.fresh hm
      rw [ha.edges m hne] at hv
      exact ha.valid (hg.valid m hm v hv)
  barrier m hm hold v hv hyoung := by
    rcases (ha.live m).mp hm with rfl | hm
    · rw [ha.young] at hold
      cases hold
    · have hne : m ≠ n := by rintro rfl; exact ha.fresh hm
      rw [ha.edges m hne] at hv
      rw [ha.isYoung m hne] at hold
      rw [ha.valueIsYoung (hg.valid m hm v hv)] at hyoung
      rw [InRemembered, ha.remembered]
      exact hg.barrier m hm hold v hv hyoung
  bit m hm hbit := by
    rcases (ha.live m).mp hm with rfl | hm
    · rw [ha.bit] at hbit
      cases hbit
    · have hne : m ≠ n := by rintro rfl; exact ha.fresh hm
      rw [ha.rememberedBit m hne] at hbit
      rw [InRemembered, ha.remembered]
      exact hg.bit m hm hbit

/-! Stores into a container. -/

/-- The container `n` now holds `vs`; any new reference went through the barrier. -/
structure Stored (h h' : Heap) (n : Cell) (vs : List AerVal) : Prop where
  live : ∀ m, h'.Live m ↔ h.Live m
  isYoung : ∀ m, h'.isYoung m = h.isYoung m
  edges : ∀ m, m ≠ n → h'.edges m = h.edges m
  stored : h'.edges n = vs
  remembered : ∀ r ∈ h.remembered, r ∈ h'.remembered
  bit : ∀ m, h'.rememberedBit m = true → h.rememberedBit m = true ∨ h'.InRemembered m
  barrier : h.isYoung n = false → (h.rememberedBit n = true → h.InRemembered n) →
    ∀ v ∈ vs, v ∉ h.edges n → h.valueIsYoung v = true → h'.InRemembered n
  wf : h.PoolsWf → h'.PoolsWf
  captureFree : h.CaptureFree → h'.CaptureFree

theorem Stored.inRemembered {h h' : Heap} {n : Cell} {vs : List AerVal} (hs : Stored h h' n vs)
    {m : Cell} (hm : h.InRemembered m) : h'.InRemembered m :=
  hm.imp fun r hr => ⟨hr.1, hs.remembered r hr.2⟩

theorem Stored.valueIsYoung {h h' : Heap} {n : Cell} {vs : List AerVal} (hs : Stored h h' n vs)
    (v : AerVal) : h'.valueIsYoung v = h.valueIsYoung v := by
  rw [Bool.eq_iff_iff, valueIsYoung_iff, valueIsYoung_iff]
  simp only [hs.isYoung]

theorem Generational.stored {h h' : Heap} {n : Cell} {vs : List AerVal} (hg : h.Generational)
    (hs : Stored h h' n vs) (hvs : ∀ v ∈ vs, h.Valid v) : h'.Generational where
  wf := hs.wf hg.wf
  captureFree := hs.captureFree hg.captureFree
  valid m hm v hv := by
    have hvalid : h.Valid v := by
      by_cases hmn : m = n
      · subst hmn
        exact hvs v (hs.stored ▸ hv)
      · rw [hs.edges m hmn] at hv
        exact hg.valid m ((hs.live m).mp hm) v hv
    exact fun k hk => (hs.live k).mpr (hvalid k hk)
  barrier m hm hold v hv hyoung := by
    rw [hs.live] at hm
    rw [hs.isYoung] at hold
    rw [hs.valueIsYoung] at hyoung
    by_cases hmn : m = n
    · subst hmn
      rw [hs.stored] at hv
      by_cases hheld : v ∈ h.edges m
      · exact hs.inRemembered (hg.barrier m hm hold v hheld hyoung)
      · exact hs.barrier hold (hg.bit m hm) v hv hheld hyoung
    · rw [hs.edges m hmn] at hv
      exact hs.inRemembered (hg.barrier m hm hold v hv hyoung)
  bit m hm hbit := by
    rw [hs.live] at hm
    rcases hs.bit m hbit with hbit | hr
    · exact hs.inRemembered (hg.bit m hm hbit)
    · exact hr

/-! Collections. -/

section Collection
variable {h : Heap} {roots : List Root}

theorem edges_gcCollect (hf : h.CaptureFree) (minor : Bool) (n : Cell) :
    (h.gcCollect roots minor).edges n = h.edges n := by
  obtain ⟨ha, hd, hfn⟩ := h.gcCollect_data roots minor
  cases n with
  | array c => simp only [edges, ha]
  | dict c => simp only [edges, hd]
  | function c => simp only [edges, hfn, hf.upvalues, List.filterMap_nil]
  | string c | long c => rfl

theorem reaches_gcCollect (hf : h.CaptureFree) (minor : Bool) (vs : List AerVal) (n : Cell) :
    (h.gcCollect roots minor).Reaches vs n ↔ h.Reaches vs n := by
  have hsame : Tracing.SameGraph tracer h (h.gcCollect roots minor) :=
    ⟨h.cellOf_gcCollect roots minor, edges_gcCollect hf minor⟩
  exact ⟨.congr _ hsame.symm, .congr _ hsame⟩

/-- A reachable cell in use survives every collection. -/
theorem live_gcCollect_of_reach (minor : Bool) {n : Cell} (hn : h.Live n)
    (hr : h.Reaches (roots.map Root.toVal) n) : (h.gcCollect roots minor).Live n :=
  (live_gcCollect h roots minor n).mpr
    ⟨hn, .inl (hr.mono _ (List.subset_append_left _ _))⟩

/-- The items of a remembered container in use are roots of a minor collection. -/
theorem mem_gcRoots_of_remembered {n : Cell} (hn : h.Live n) (hr : h.InRemembered n)
    {v : AerVal} (hv : v ∈ h.edges n) : v ∈ h.gcRoots roots true := by
  obtain ⟨r, hentry, hmem⟩ := hr
  have hkept : r ∈ h.rememberedKept ∧ h.rememberedItems r = h.edges n := by
    cases n <;> cases hentry <;>
      exact ⟨List.mem_filter.mpr ⟨hmem, by simp [rememberedAlive, hn.2]⟩, rfl⟩
  refine List.mem_append_right _ (List.mem_flatMap.mpr ⟨r, hkept.1, ?_⟩)
  rw [hkept.2]
  exact hv

theorem gcCollect_valid (hg : h.Generational) (minor : Bool) {n : Cell}
    (hn : (h.gcCollect roots minor).Live n) {v : AerVal} (hv : v ∈ h.edges n) :
    (h.gcCollect roots minor).Valid v := by
  intro m hm
  rw [live_gcCollect] at hn ⊢
  obtain ⟨hlive, hkept⟩ := hn
  have hmlive : h.Live m := hg.valid n hlive v hv m hm
  refine ⟨hmlive, ?_⟩
  have hnode := cellOf_of_live hm hmlive
  rcases hkept with hreach | ⟨rfl, hold⟩
  · exact .inl (hreach.step hv hnode)
  · -- An old container that nothing reaches: its young items are kept by the barrier.
    cases hyoung : h.isYoung m with
    | false => exact .inr ⟨rfl, rfl⟩
    | true =>
      have hr := hg.barrier n hlive hold v hv ((h.valueIsYoung_iff v).mpr ⟨m, hm, hyoung⟩)
      exact .inl (.root (mem_gcRoots_of_remembered hlive hr hv) hnode)

theorem inRemembered_gcCollect (minor : Bool) {n : Cell} (hn : h.Live n)
    (hr : h.InRemembered n) : (h.gcCollect roots minor).InRemembered n := by
  obtain ⟨r, hentry, hmem⟩ := hr
  refine ⟨r, hentry, ?_⟩
  rw [remembered_gcCollect]
  cases minor with
  | false => exact hmem
  | true =>
    cases n <;> cases hentry <;>
      exact List.mem_filter.mpr ⟨hmem, by simp [rememberedAlive, hn.2]⟩

theorem rememberedBit_gcCollect (minor : Bool) {n : Cell} (hn : (h.gcCollect roots minor).Live n) :
    (h.gcCollect roots minor).rememberedBit n = h.rememberedBit n := by
  have hm := h.marksOnly_markPhase roots minor
  cases n with
  | array c => exact (Pool.survivor_sweep hn).2.trans (hm.arrays.isRemembered c)
  | dict c => exact (Pool.survivor_sweep hn).2.trans (hm.dicts.isRemembered c)
  | string c | function c | long c => rfl

theorem PoolsWf.gcCollect (hw : h.PoolsWf) (minor : Bool) : (h.gcCollect roots minor).PoolsWf := by
  have hm := h.marksOnly_markPhase roots minor
  exact ⟨(hm.strings.wf hw.strings).sweep, (hm.arrays.wf hw.arrays).sweep,
    (hm.dicts.wf hw.dicts).sweep, (hm.functions.wf hw.functions).sweep,
    (hm.longs.wf hw.longs).sweep⟩

theorem CaptureFree.gcCollect (hf : h.CaptureFree) (minor : Bool) :
    (h.gcCollect roots minor).CaptureFree := by
  refine ⟨fun c hc => ?_, fun c => ?_⟩
  · have hm := h.marksOnly_markPhase roots minor
    have hlive := ((Pool.live_sweep (h.markPhase roots minor).boxes c).mp hc).1
    rw [hm.boxes] at hlive
    exact hf.boxes c (((Pool.marksOnly_clearMarks _).live c).mp hlive)
  · rw [(h.gcCollect_data roots minor).2.2]
    exact hf.upvalues c

theorem Generational.gcCollect (hg : h.Generational) (minor : Bool) :
    (h.gcCollect roots minor).Generational where
  wf := hg.wf.gcCollect minor
  captureFree := hg.captureFree.gcCollect minor
  valid n hn v hv := by
    rw [edges_gcCollect hg.captureFree] at hv
    exact gcCollect_valid hg minor hn hv
  barrier n hn _ v hv hyoung := by
    -- Every survivor is old, so no container holds a young value.
    rw [edges_gcCollect hg.captureFree] at hv
    obtain ⟨m, hm, hyoung⟩ := (valueIsYoung_iff _ v).mp hyoung
    rw [isYoung_gcCollect h roots minor (gcCollect_valid hg minor hn hv m hm)] at hyoung
    cases hyoung
  bit n hn hbit := by
    rw [rememberedBit_gcCollect minor hn] at hbit
    have hlive := ((live_gcCollect h roots minor n).mp hn).1
    exact inRemembered_gcCollect minor hlive (hg.bit n hlive hbit)

/-- After a major collection the cells in use are exactly the reachable ones. -/
theorem live_major_iff (hg : h.Generational) (hroots : ∀ r ∈ roots, h.Valid r.toVal) (n : Cell) :
    (h.gcCollect roots false).Live n ↔
      (h.gcCollect roots false).Reaches (roots.map Root.toVal) n := by
  have hvalid : ∀ v ∈ roots.map Root.toVal, h.Valid v := by
    intro v hv
    obtain ⟨r, hr, rfl⟩ := List.mem_map.mp hv
    exact hroots r hr
  have hmajor : h.gcRoots roots false = roots.map Root.toVal := List.append_nil _
  rw [reaches_gcCollect hg.captureFree, live_gcCollect, hmajor]
  simp only [Bool.false_eq_true, false_and, or_false]
  exact ⟨fun hn => hn.2, fun hr => ⟨hg.live_of_reach hvalid hr, hr⟩⟩

end Collection

end Heap

end Aer.Memory
