import Mathlib.Data.List.Nodup
import Mathlib.Data.List.Range

set_option linter.all false

/-! The slab allocator. Cells are numbered in the order they are carved: cell
`idx` of slab `slab` is number `slab * elemsPerSlab + idx`. -/
namespace Aer.Memory

/-- The state byte of a cell. -/
structure CellState where
  marked : Bool := false
  old : Bool := false
  free : Bool := false
  remembered : Bool := false
  deriving DecidableEq, Inhabited

structure Pool (α : Type) where
  elemsPerSlab : Nat
  slabCount : Nat
  /-- The next free cell within the last slab. -/
  nextIndex : Nat
  cellState : Nat → CellState
  data : Nat → α
  freeList : List Nat

namespace Pool

variable {α : Type}

def init [Inhabited α] (elemsPerSlab : Nat) : Pool α where
  elemsPerSlab := elemsPerSlab
  slabCount := 0
  nextIndex := elemsPerSlab
  cellState := fun _ => {}
  data := fun _ => default
  freeList := []

/-- The number of cells carved out of the slabs. -/
def carved (p : Pool α) : Nat :=
  (p.slabCount - 1) * p.elemsPerSlab + if p.slabCount = 0 then 0 else p.nextIndex

def setState (p : Pool α) (c : Nat) (s : CellState) : Pool α :=
  { p with cellState := Function.update p.cellState c s }

def setData (p : Pool α) (c : Nat) (a : α) : Pool α :=
  { p with data := Function.update p.data c a }

def grow (p : Pool α) : Pool α :=
  { p with slabCount := p.slabCount + 1, nextIndex := 0 }

/-- Allocate a young cell and fill it in. -/
def alloc (p : Pool α) (a : α) : Nat × Pool α :=
  match p.freeList with
  | c :: rest => (c, ({ p with freeList := rest }.setState c {}).setData c a)
  | [] =>
      let p := if p.elemsPerSlab ≤ p.nextIndex then p.grow else p
      let c := (p.slabCount - 1) * p.elemsPerSlab + p.nextIndex
      (c, ({ p with nextIndex := p.nextIndex + 1 }.setState c {}).setData c a)

def release (p : Pool α) (c : Nat) : Pool α :=
  { p.setState c { free := true } with freeList := c :: p.freeList }

def isMarked (p : Pool α) (c : Nat) : Bool := (p.cellState c).marked
def isYoung (p : Pool α) (c : Nat) : Bool := !(p.cellState c).old
def isFreed (p : Pool α) (c : Nat) : Bool := (p.cellState c).free
def isRemembered (p : Pool α) (c : Nat) : Bool := (p.cellState c).remembered

def mark (p : Pool α) (c : Nat) : Pool α :=
  p.setState c { p.cellState c with marked := true }

def markRemembered (p : Pool α) (c : Nat) : Pool α :=
  p.setState c { p.cellState c with remembered := true }

/-- A carved cell that is not on the free list. -/
def Live (p : Pool α) (c : Nat) : Prop :=
  c < p.carved ∧ p.isFreed c = false

instance (p : Pool α) (c : Nat) : Decidable (p.Live c) := by unfold Live; infer_instance

/-- The number of cells in use. -/
def liveCount (p : Pool α) : Nat :=
  (List.range p.carved).countP fun c => !p.isFreed c

def sweepCell (youngOnly : Bool) (p : Pool α) (c : Nat) : Pool α :=
  let s := p.cellState c
  if s.free then p
  else if youngOnly && s.old then p
  else if s.marked then p.setState c { s with marked := false, old := true }
  else p.release c

def sweep (p : Pool α) (youngOnly : Bool) : Pool α :=
  (List.range p.carved).foldl (sweepCell youngOnly) p

def clearMarks (p : Pool α) : Pool α :=
  { p with cellState := fun c =>
      if c < p.carved then { p.cellState c with marked := false } else p.cellState c }

/-! Invariant: the free list holds the carved free cells, each once. -/

structure Wf (p : Pool α) : Prop where
  elems : 0 < p.elemsPerSlab
  next : p.nextIndex ≤ p.elemsPerSlab
  fresh : p.slabCount = 0 → p.nextIndex = p.elemsPerSlab
  nodup : p.freeList.Nodup
  freeList : ∀ c, c ∈ p.freeList ↔ c < p.carved ∧ p.isFreed c = true

theorem wf_init [Inhabited α] {n : Nat} (h : 0 < n) : (init n : Pool α).Wf where
  elems := h
  next := Nat.le_refl _
  fresh _ := rfl
  nodup := List.nodup_nil
  freeList c := by simp [init, carved]

@[simp] theorem setState_carved (p : Pool α) (c : Nat) (s : CellState) :
    (p.setState c s).carved = p.carved := rfl

@[simp] theorem setState_data (p : Pool α) (c : Nat) (s : CellState) :
    (p.setState c s).data = p.data := rfl

@[simp] theorem setState_freeList (p : Pool α) (c : Nat) (s : CellState) :
    (p.setState c s).freeList = p.freeList := rfl

@[simp] theorem setData_carved (p : Pool α) (c : Nat) (a : α) :
    (p.setData c a).carved = p.carved := rfl

@[simp] theorem setData_cellState (p : Pool α) (c : Nat) (a : α) :
    (p.setData c a).cellState = p.cellState := rfl

@[simp] theorem setData_freeList (p : Pool α) (c : Nat) (a : α) :
    (p.setData c a).freeList = p.freeList := rfl

@[simp] theorem mark_carved (p : Pool α) (c : Nat) : (p.mark c).carved = p.carved := rfl

@[simp] theorem mark_data (p : Pool α) (c : Nat) : (p.mark c).data = p.data := rfl

@[simp] theorem mark_freeList (p : Pool α) (c : Nat) : (p.mark c).freeList = p.freeList := rfl

theorem isMarked_mark (p : Pool α) (c d : Nat) :
    (p.mark c).isMarked d = true ↔ d = c ∨ p.isMarked d = true := by
  unfold mark isMarked setState
  by_cases h : d = c
  · subst h
    simp
  · simp [h]

@[simp] theorem isFreed_mark (p : Pool α) (c d : Nat) : (p.mark c).isFreed d = p.isFreed d := by
  unfold mark isFreed setState
  by_cases h : d = c
  · subst h
    simp
  · simp [Function.update_of_ne h]

@[simp] theorem isYoung_mark (p : Pool α) (c d : Nat) : (p.mark c).isYoung d = p.isYoung d := by
  unfold mark isYoung setState
  by_cases h : d = c
  · subst h
    simp
  · simp [Function.update_of_ne h]

@[simp] theorem isRemembered_mark (p : Pool α) (c d : Nat) :
    (p.mark c).isRemembered d = p.isRemembered d := by
  unfold mark isRemembered setState
  by_cases h : d = c
  · subst h
    simp
  · simp [Function.update_of_ne h]

section Alloc

/-- The cell an allocation returns: the head of the free list, or the next one. -/
theorem alloc_fst {p : Pool α} (h : p.Wf) (a : α) :
    (p.alloc a).1 = p.freeList.headD p.carved := by
  unfold alloc
  cases hf : p.freeList with
  | cons c rest => simp
  | nil =>
    simp only [List.headD_nil, carved]
    by_cases hn : p.elemsPerSlab ≤ p.nextIndex
    · have hnext : p.nextIndex = p.elemsPerSlab := Nat.le_antisymm h.next hn
      simp only [hn, ↓reduceIte, grow, Nat.add_sub_cancel, Nat.add_zero]
      by_cases hs : p.slabCount = 0
      · simp [hs]
      · obtain ⟨k, hk⟩ := Nat.exists_eq_succ_of_ne_zero hs
        simp only [hk, Nat.succ_eq_add_one, Nat.add_sub_cancel, Nat.add_one_ne_zero, ↓reduceIte, hnext]
        exact Nat.succ_mul k p.elemsPerSlab
    · have hs : p.slabCount ≠ 0 := fun hs => hn (h.fresh hs).ge
      simp [hn, hs]

theorem alloc_carved {p : Pool α} (h : p.Wf) (a : α) :
    (p.alloc a).2.carved = if p.freeList = [] then p.carved + 1 else p.carved := by
  unfold alloc
  cases hf : p.freeList with
  | cons c rest =>
    simp only [reduceCtorEq, ↓reduceIte]
    rfl
  | nil =>
    simp only [↓reduceIte, setData_carved, setState_carved]
    by_cases hn : p.elemsPerSlab ≤ p.nextIndex
    · have hnext : p.nextIndex = p.elemsPerSlab := Nat.le_antisymm h.next hn
      simp only [hn, ↓reduceIte, grow, carved, Nat.add_sub_cancel, Nat.add_one_ne_zero]
      by_cases hs : p.slabCount = 0
      · simp [hs]
      · obtain ⟨k, hk⟩ := Nat.exists_eq_succ_of_ne_zero hs
        simp only [hk, Nat.succ_eq_add_one, Nat.add_sub_cancel, Nat.add_one_ne_zero, ↓reduceIte, hnext]
        rw [Nat.succ_mul]
    · have hs : p.slabCount ≠ 0 := fun hs => hn (h.fresh hs).ge
      simp only [hn, ↓reduceIte, carved, hs]
      omega

theorem alloc_cellState (p : Pool α) (a : α) :
    (p.alloc a).2.cellState = Function.update p.cellState (p.alloc a).1 {} := by
  unfold alloc
  cases p.freeList with
  | cons c rest => rfl
  | nil =>
    simp only [setData_cellState, setState]
    split <;> rfl

theorem alloc_data (p : Pool α) (a : α) :
    (p.alloc a).2.data = Function.update p.data (p.alloc a).1 a := by
  unfold alloc
  cases p.freeList with
  | cons c rest => rfl
  | nil =>
    simp only [setData, setState]
    split <;> rfl

theorem alloc_freeList (p : Pool α) (a : α) : (p.alloc a).2.freeList = p.freeList.tail := by
  unfold alloc
  cases hf : p.freeList with
  | cons c rest => rfl
  | nil =>
    simp only [setData_freeList, setState_freeList]
    split <;> simp [grow, hf]

/-- The cell is not in use before the allocation. -/
theorem alloc_not_live {p : Pool α} (h : p.Wf) (a : α) : ¬ p.Live (p.alloc a).1 := by
  rw [alloc_fst h]
  cases hf : p.freeList with
  | nil => simp [Live]
  | cons c rest =>
    have hc := (h.freeList c).mp (by simp [hf])
    simp [Live, hc.2]

theorem alloc_lt {p : Pool α} (h : p.Wf) (a : α) : (p.alloc a).1 < (p.alloc a).2.carved := by
  rw [alloc_fst h, alloc_carved h]
  cases hf : p.freeList with
  | nil => simp
  | cons c rest => simpa using ((h.freeList c).mp (by simp [hf])).1

theorem carved_le_alloc {p : Pool α} (h : p.Wf) (a : α) : p.carved ≤ (p.alloc a).2.carved := by
  rw [alloc_carved h]
  split <;> omega

/-- The live cells after an allocation are those before it and the new one. -/
theorem live_alloc {p : Pool α} (h : p.Wf) (a : α) (c : Nat) :
    (p.alloc a).2.Live c ↔ c = (p.alloc a).1 ∨ p.Live c := by
  have hlt := alloc_lt h a
  by_cases hc : c = (p.alloc a).1
  · subst hc
    simp [Live, isFreed, alloc_cellState, hlt]
  · simp only [hc, false_or, Live, isFreed, alloc_cellState, Function.update_of_ne hc]
    rw [alloc_fst h] at hc
    rw [alloc_carved h]
    cases hf : p.freeList with
    | nil =>
      simp only [hf, List.headD_nil] at hc
      simp only [↓reduceIte]
      refine and_congr_left fun _ => ?_
      omega
    | cons d rest => simp

theorem Wf.alloc {p : Pool α} (h : p.Wf) (a : α) : (p.alloc a).2.Wf := by
  have hshape : 0 < (p.alloc a).2.elemsPerSlab ∧
      (p.alloc a).2.nextIndex ≤ (p.alloc a).2.elemsPerSlab ∧
      ((p.alloc a).2.slabCount = 0 → (p.alloc a).2.nextIndex = (p.alloc a).2.elemsPerSlab) := by
    unfold Pool.alloc
    cases p.freeList with
    | cons c rest => exact ⟨h.elems, h.next, h.fresh⟩
    | nil =>
      simp only [setData, setState]
      have helems := h.elems
      by_cases hn : p.elemsPerSlab ≤ p.nextIndex
      · simp only [hn, ↓reduceIte, grow]
        exact ⟨helems, helems, by omega⟩
      · have hs : p.slabCount ≠ 0 := fun hs => hn (h.fresh hs).ge
        simp only [hn, ↓reduceIte]
        exact ⟨helems, by omega, fun h0 => absurd h0 hs⟩
  refine ⟨hshape.1, hshape.2.1, hshape.2.2, ?_, ?_⟩
  · rw [alloc_freeList]
    exact h.nodup.tail
  · intro c
    have hlive := live_alloc h a c
    rw [alloc_freeList]
    cases hf : p.freeList with
    | nil =>
      have hnone : ∀ d, ¬ (d < p.carved ∧ p.isFreed d = true) := by
        intro d hd
        have := (h.freeList d).mpr hd
        simp [hf] at this
      simp only [List.tail_nil, List.not_mem_nil, false_iff]
      rintro ⟨hlt, hfree⟩
      have hc : c ≠ (p.alloc a).1 := by
        rintro rfl
        simp [isFreed, alloc_cellState] at hfree
      have hfree' : p.isFreed c = true := by
        simpa [isFreed, alloc_cellState, Function.update_of_ne hc] using hfree
      rw [alloc_fst h, hf] at hc
      rw [alloc_carved h, hf] at hlt
      simp only [↓reduceIte, List.headD_nil] at hlt hc
      exact hnone c ⟨by omega, hfree'⟩
    | cons d rest =>
      have hd : (p.alloc a).1 = d := by rw [alloc_fst h, hf]; rfl
      have hnodup := h.nodup
      rw [hf, List.nodup_cons] at hnodup
      have hmem := h.freeList c
      rw [hf, List.mem_cons] at hmem
      simp only [List.tail_cons, isFreed, alloc_cellState, alloc_carved h, hf, hd,
        reduceCtorEq, ↓reduceIte]
      by_cases hc : c = d
      · subst hc
        simp [hnodup.1]
      · simp only [hc, false_or] at hmem
        simpa only [Function.update_of_ne hc, ne_eq, isFreed] using hmem

/-- `q` is `p` with the unused cell `c` put to use, young and holding `a`. -/
structure Fresh (p q : Pool α) (c : Nat) (a : α) : Prop where
  fresh : ¬ p.Live c
  live : ∀ d, q.Live d ↔ d = c ∨ p.Live d
  cellState : q.cellState = Function.update p.cellState c {}
  data : q.data = Function.update p.data c a
  wf : q.Wf

theorem Wf.alloc_fresh {p : Pool α} (h : p.Wf) (a : α) : p.Fresh (p.alloc a).2 (p.alloc a).1 a :=
  ⟨alloc_not_live h a, live_alloc h a, alloc_cellState p a, alloc_data p a, h.alloc a⟩

section Fresh
variable {p q : Pool α} {c : Nat} {a : α} (h : p.Fresh q c a)
include h

theorem Fresh.born : q.isYoung c = true ∧ q.isRemembered c = false := by
  simp [isYoung, isRemembered, h.cellState]

theorem Fresh.isYoung {d : Nat} (hd : d ≠ c) : q.isYoung d = p.isYoung d := by
  simp [Pool.isYoung, h.cellState, Function.update_of_ne hd]

theorem Fresh.isRemembered {d : Nat} (hd : d ≠ c) : q.isRemembered d = p.isRemembered d := by
  simp [Pool.isRemembered, h.cellState, Function.update_of_ne hd]

theorem Fresh.data_self : q.data c = a := by
  simp [h.data]

theorem Fresh.data_ne {d : Nat} (hd : d ≠ c) : q.data d = p.data d := by
  rw [h.data, Function.update_of_ne hd]

end Fresh

end Alloc

section Sweep
variable {youngOnly : Bool}

/-- What a sweep does to the state of a carved cell. -/
def sweepState (youngOnly : Bool) (s : CellState) : CellState :=
  if s.free then s
  else if youngOnly && s.old then s
  else if s.marked then { s with marked := false, old := true }
  else { free := true }

/-- The cells a sweep puts on the free list. -/
def isSwept (youngOnly : Bool) (s : CellState) : Bool :=
  !s.free && !(youngOnly && s.old) && !s.marked

theorem sweepState_free (s : CellState) :
    (sweepState youngOnly s).free = (s.free || isSwept youngOnly s) := by
  obtain ⟨marked, old, free, remembered⟩ := s
  cases marked <;> cases old <;> cases free <;> cases youngOnly <;> rfl

theorem sweepState_kept (s : CellState) (h : (sweepState youngOnly s).free = false) :
    (sweepState youngOnly s).old = true ∧ (sweepState youngOnly s).remembered = s.remembered := by
  obtain ⟨marked, old, free, remembered⟩ := s
  cases marked <;> cases old <;> cases free <;> cases youngOnly <;>
    first | exact ⟨rfl, rfl⟩ | cases h

/-- The cells a sweep considers. -/
def Sweepable (p : Pool α) (youngOnly : Bool) (c : Nat) : Prop :=
  p.Live c ∧ (youngOnly = true → p.isYoung c = true)

theorem sweepCell_cellState (p : Pool α) (c : Nat) :
    (sweepCell youngOnly p c).cellState =
      Function.update p.cellState c (sweepState youngOnly (p.cellState c)) := by
  unfold sweepCell sweepState
  simp only [release, setState]
  split
  · simp
  · split
    · simp
    · split <;> rfl

theorem sweepCell_freeList (p : Pool α) (c : Nat) :
    (sweepCell youngOnly p c).freeList =
      if isSwept youngOnly (p.cellState c) then c :: p.freeList else p.freeList := by
  unfold sweepCell isSwept
  rcases hs : p.cellState c with ⟨marked, old, free, remembered⟩
  cases free <;> cases youngOnly <;> cases old <;> cases marked <;> simp [release]

theorem sweepCell_shape (p : Pool α) (c : Nat) :
    sweepCell youngOnly p c =
      { p with cellState := (sweepCell youngOnly p c).cellState
               freeList := (sweepCell youngOnly p c).freeList } := by
  unfold sweepCell
  simp only
  split
  · rfl
  · split
    · rfl
    · split <;> rfl

/-- The sweep of the first `n` cells, in closed form. -/
theorem sweep_range (p : Pool α) (n : Nat) :
    (List.range n).foldl (sweepCell youngOnly) p =
      { p with
        cellState := fun c =>
          if c < n then sweepState youngOnly (p.cellState c) else p.cellState c
        freeList :=
          ((List.range n).filter fun c => isSwept youngOnly (p.cellState c)).reverse ++ p.freeList } := by
  induction n with
  | zero => simp
  | succ n ih =>
    rw [List.range_succ, List.foldl_append, ih, List.foldl_cons, List.foldl_nil, sweepCell_shape,
      sweepCell_cellState, sweepCell_freeList]
    simp only [Nat.lt_irrefl, ↓reduceIte, Pool.mk.injEq, true_and]
    refine ⟨?_, ?_⟩
    · funext c
      by_cases hc : c = n
      · subst hc
        simp
      · have hlt : c < n + 1 ↔ c < n := by omega
        simp [Function.update_of_ne hc, hlt]
    · rw [List.filter_append]
      cases hs : isSwept youngOnly (p.cellState n) <;> simp [hs]

@[simp] theorem sweep_carved (p : Pool α) : (p.sweep youngOnly).carved = p.carved := by
  rw [sweep, sweep_range]
  rfl

@[simp] theorem sweep_data (p : Pool α) : (p.sweep youngOnly).data = p.data := by
  rw [sweep, sweep_range]

theorem sweep_cellState (p : Pool α) (c : Nat) :
    (p.sweep youngOnly).cellState c =
      if c < p.carved then sweepState youngOnly (p.cellState c) else p.cellState c := by
  rw [sweep, sweep_range]

theorem mem_freeList_sweep (p : Pool α) (c : Nat) :
    c ∈ (p.sweep youngOnly).freeList ↔
      (c < p.carved ∧ isSwept youngOnly (p.cellState c) = true) ∨ c ∈ p.freeList := by
  rw [sweep, sweep_range]
  simp

theorem isSwept_iff (p : Pool α) {c : Nat} (hc : c < p.carved) :
    isSwept youngOnly (p.cellState c) = true ↔
      p.Sweepable youngOnly c ∧ p.isMarked c = false := by
  simp only [isSwept, Sweepable, Live, isFreed, isYoung, isMarked, hc, true_and, Bool.and_eq_true,
    Bool.not_eq_true', Bool.and_eq_false_imp]

theorem isFreed_sweep (p : Pool α) {c : Nat} (hc : c < p.carved) :
    (p.sweep youngOnly).isFreed c = (p.isFreed c || isSwept youngOnly (p.cellState c)) := by
  simp only [isFreed, sweep_cellState, hc, ↓reduceIte, sweepState_free]

/-- A sweep frees exactly the unmarked cells it considers. -/
theorem freed_by_sweep (p : Pool α) (c : Nat) :
    (p.Live c ∧ ¬ (p.sweep youngOnly).Live c) ↔
      p.Sweepable youngOnly c ∧ p.isMarked c = false := by
  by_cases hc : c < p.carved
  · rw [← isSwept_iff p hc]
    simp only [Live, sweep_carved, hc, true_and, isFreed_sweep p hc]
    cases hs : isSwept youngOnly (p.cellState c)
    · simp
    · have := ((isSwept_iff p hc).mp hs).1.1.2
      simp [this]
  · simp [Live, Sweepable, hc]

/-- The cells a sweep keeps: the old ones of a young-only sweep, and the marked. -/
theorem live_sweep (p : Pool α) (c : Nat) :
    (p.sweep youngOnly).Live c ↔
      p.Live c ∧ (p.isMarked c = true ∨ (youngOnly = true ∧ p.isYoung c = false)) := by
  have hfreed : (p.Live c ∧ ¬ (p.sweep youngOnly).Live c) ↔ _ := freed_by_sweep p c
  have hmono : (p.sweep youngOnly).Live c → p.Live c := by
    rintro ⟨hc, hfree⟩
    rw [sweep_carved] at hc
    rw [isFreed_sweep p hc, Bool.or_eq_false_iff] at hfree
    exact ⟨hc, hfree.1⟩
  by_cases hlive : p.Live c
  · simp only [Sweepable, hlive, true_and] at hfreed ⊢
    rw [← not_iff_not, hfreed]
    cases p.isMarked c <;> cases p.isYoung c <;> cases youngOnly <;> simp
  · exact ⟨fun h => absurd (hmono h) hlive, fun h => absurd h.1 hlive⟩

/-- Every survivor of a sweep is old, and keeps its remembered bit. -/
theorem survivor_sweep {p : Pool α} {c : Nat} (h : (p.sweep youngOnly).Live c) :
    (p.sweep youngOnly).isYoung c = false ∧
      (p.sweep youngOnly).isRemembered c = p.isRemembered c := by
  have hc : c < p.carved := by simpa using h.1
  have hlive := h.2
  simp only [isFreed, isYoung, isRemembered, sweep_cellState, hc, ↓reduceIte] at hlive ⊢
  simp [sweepState_kept _ hlive]

theorem Wf.sweep {p : Pool α} (h : p.Wf) : (p.sweep youngOnly).Wf := by
  have hshape : (p.sweep youngOnly).elemsPerSlab = p.elemsPerSlab ∧
      (p.sweep youngOnly).nextIndex = p.nextIndex ∧
      (p.sweep youngOnly).slabCount = p.slabCount := by
    rw [Pool.sweep, sweep_range]
    exact ⟨rfl, rfl, rfl⟩
  refine ⟨by rw [hshape.1]; exact h.elems, by rw [hshape.1, hshape.2.1]; exact h.next,
    by rw [hshape.1, hshape.2.1, hshape.2.2]; exact h.fresh, ?_, ?_⟩
  · rw [Pool.sweep, sweep_range]
    refine List.nodup_append'.mpr ⟨List.nodup_reverse.mpr (List.nodup_range.filter _), h.nodup, ?_⟩
    intro c hc hfree
    have hswept := (List.mem_filter.mp (List.mem_reverse.mp hc)).2
    have := ((h.freeList c).mp hfree).2
    simp only [isSwept, Bool.and_eq_true, Bool.not_eq_true'] at hswept
    simp [isFreed, hswept.1.1] at this
  · intro c
    rw [mem_freeList_sweep, h.freeList, sweep_carved]
    by_cases hc : c < p.carved
    · simp [hc, isFreed_sweep p hc, or_comm]
    · simp [hc]

end Sweep

section Marks

@[simp] theorem clearMarks_carved (p : Pool α) : p.clearMarks.carved = p.carved := rfl

@[simp] theorem clearMarks_data (p : Pool α) : p.clearMarks.data = p.data := rfl

@[simp] theorem clearMarks_freeList (p : Pool α) : p.clearMarks.freeList = p.freeList := rfl

theorem isMarked_clearMarks {p : Pool α} {c : Nat} (hc : c < p.carved) :
    p.clearMarks.isMarked c = false := by
  simp [isMarked, clearMarks, hc]

@[simp] theorem isFreed_clearMarks (p : Pool α) (c : Nat) :
    p.clearMarks.isFreed c = p.isFreed c := by
  unfold isFreed clearMarks
  simp only
  split <;> rfl

@[simp] theorem isYoung_clearMarks (p : Pool α) (c : Nat) :
    p.clearMarks.isYoung c = p.isYoung c := by
  unfold isYoung clearMarks
  simp only
  split <;> rfl

@[simp] theorem isRemembered_clearMarks (p : Pool α) (c : Nat) :
    p.clearMarks.isRemembered c = p.isRemembered c := by
  unfold isRemembered clearMarks
  simp only
  split <;> rfl

theorem Wf.clearMarks {p : Pool α} (h : p.Wf) : p.clearMarks.Wf :=
  ⟨h.elems, h.next, h.fresh, h.nodup, fun c => by simpa using h.freeList c⟩

theorem Wf.mark {p : Pool α} (h : p.Wf) (c : Nat) : (p.mark c).Wf :=
  ⟨h.elems, h.next, h.fresh, h.nodup, fun d => by simpa using h.freeList d⟩

@[simp] theorem markRemembered_carved (p : Pool α) (c : Nat) :
    (p.markRemembered c).carved = p.carved := rfl

@[simp] theorem markRemembered_data (p : Pool α) (c : Nat) :
    (p.markRemembered c).data = p.data := rfl

@[simp] theorem markRemembered_freeList (p : Pool α) (c : Nat) :
    (p.markRemembered c).freeList = p.freeList := rfl

@[simp] theorem isFreed_markRemembered (p : Pool α) (c d : Nat) :
    (p.markRemembered c).isFreed d = p.isFreed d := by
  unfold markRemembered isFreed setState
  by_cases h : d = c
  · subst h
    simp
  · simp [Function.update_of_ne h]

@[simp] theorem isYoung_markRemembered (p : Pool α) (c d : Nat) :
    (p.markRemembered c).isYoung d = p.isYoung d := by
  unfold markRemembered isYoung setState
  by_cases h : d = c
  · subst h
    simp
  · simp [Function.update_of_ne h]

theorem isRemembered_markRemembered (p : Pool α) (c d : Nat) :
    (p.markRemembered c).isRemembered d = true ↔ d = c ∨ p.isRemembered d = true := by
  unfold markRemembered isRemembered setState
  by_cases h : d = c
  · subst h
    simp
  · simp [h]

theorem Wf.markRemembered {p : Pool α} (h : p.Wf) (c : Nat) : (p.markRemembered c).Wf :=
  ⟨h.elems, h.next, h.fresh, h.nodup, fun d => by simpa using h.freeList d⟩

theorem Wf.setData {p : Pool α} (h : p.Wf) (c : Nat) (a : α) : (p.setData c a).Wf :=
  ⟨h.elems, h.next, h.fresh, h.nodup, h.freeList⟩

end Marks

end Pool

end Aer.Memory
