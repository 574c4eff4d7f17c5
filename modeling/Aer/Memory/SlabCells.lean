import Aer.Memory.Slabs
import Mathlib.Data.List.GetD

set_option linter.all false

/-! The slabs stand for the pool of numbered cells: where a cell lies, what its state byte
says, and how the free list runs. -/
namespace Aer.Memory.Slabs

open Aer.Lib.Intrusive

/-- The flags a state byte holds. -/
def flags (b : UInt8) : CellState where
  marked := b &&& poolMarked ≠ 0
  old := b &&& poolOld ≠ 0
  free := b &&& poolFree ≠ 0
  remembered := b &&& poolRemembered ≠ 0

/-- The bits of a union are those of its parts. -/
theorem or_and (b m k : UInt8) : (b ||| m) &&& k = b &&& k ||| m &&& k :=
  UInt8.eq_of_toBitVec_eq BitVec.and_or_distrib_right

theorem flags_zero : flags 0 = {} := by decide

theorem flags_free : flags poolFree = { free := true } := by decide

theorem flags_mark (b : UInt8) : flags (b ||| poolMarked) = { flags b with marked := true } := by
  have hmarked : poolMarked ≠ 0 := by decide
  have hold : poolMarked &&& poolOld = 0 := by decide
  have hfree : poolMarked &&& poolFree = 0 := by decide
  have hremembered : poolMarked &&& poolRemembered = 0 := by decide
  simp [flags, or_and, hmarked, hold, hfree, hremembered]

theorem flags_promote (b : UInt8) : flags (b ||| poolOld) = { flags b with old := true } := by
  have hmarked : poolOld &&& poolMarked = 0 := by decide
  have hold : poolOld ≠ 0 := by decide
  have hfree : poolOld &&& poolFree = 0 := by decide
  have hremembered : poolOld &&& poolRemembered = 0 := by decide
  simp [flags, or_and, hmarked, hold, hfree, hremembered]

theorem flags_remember (b : UInt8) :
    flags (b ||| poolRemembered) = { flags b with remembered := true } := by
  have hmarked : poolRemembered &&& poolMarked = 0 := by decide
  have hold : poolRemembered &&& poolOld = 0 := by decide
  have hfree : poolRemembered &&& poolFree = 0 := by decide
  have hremembered : poolRemembered ≠ 0 := by decide
  simp [flags, or_and, hmarked, hold, hfree, hremembered]

theorem flags_unmark (b : UInt8) :
    flags (b &&& ~~~poolMarked) = { flags b with marked := false } := by
  have hmarked : ~~~poolMarked &&& poolMarked = 0 := by decide
  have hold : ~~~poolMarked &&& poolOld = poolOld := by decide
  have hfree : ~~~poolMarked &&& poolFree = poolFree := by decide
  have hremembered : ~~~poolMarked &&& poolRemembered = poolRemembered := by decide
  simp [flags, UInt8.and_assoc, hmarked, hold, hfree, hremembered]

theorem flags_marked {b : UInt8} (h : b &&& poolMarked ≠ 0) :
    { flags b with marked := true } = flags b := by
  have hm : (flags b).marked = true := by simpa [flags] using h
  rw [← hm]

namespace Store

variable {L : Layout} {s : Store L}

/-- The address of cell number `c`. -/
def numbered (s : Store L) (c : Nat) : Nat := s.cellAddr (c / L.elemsPerSlab) (c % L.elemsPerSlab)

/-- The slabs lie apart in the address space, and their number fits its type. -/
structure Placed (s : Store L) : Prop where
  blocks : ∀ slab ∈ s.slabs, 0 < slab ∧ slab + L.slabBytes < 2 ^ 64
  apart : s.slabs.Pairwise fun a b => a + L.slabBytes ≤ b ∨ b + L.slabBytes ≤ a
  capacity : s.slabs.length ≤ s.slabCap
  width : s.slabCap = 0 ∨ ∃ k, k < 30 ∧ s.slabCap = 2 ^ (k + 2)

theorem Placed.same {t : Store L} (hp : s.Placed) (hslabs : t.slabs = s.slabs)
    (hcap : t.slabCap = s.slabCap) : t.Placed := by
  obtain ⟨hblocks, hapart, hcapacity, hwidth⟩ := hp
  rw [← hslabs] at hblocks hapart hcapacity
  rw [← hcap] at hcapacity hwidth
  exact ⟨hblocks, hapart, hcapacity, hwidth⟩

structure Represents (s : Store L) (p : Pool Unit) : Prop where
  placed : s.Placed
  elemsPerSlab : p.elemsPerSlab = L.elemsPerSlab
  slabCount : p.slabCount = s.slabs.length
  nextIndex : p.nextIndex = s.nextIndex
  state : ∀ i j, i < s.slabs.length → j < L.elemsPerSlab →
    flags (s.cellState i j) = p.cellState (i * L.elemsPerSlab + j)
  freeList : Chain s.mem s.freeList (p.freeList.map s.numbered)

section Addresses

theorem cell_in_slab {j : Nat} (hj : j < L.elemsPerSlab) :
    j * L.elemSize + L.elemSize ≤ L.slabBytes := by
  have h : (j + 1) * L.elemSize ≤ L.elemsPerSlab * L.elemSize := Nat.mul_le_mul_right _ hj
  rw [Nat.add_mul, Nat.one_mul, Nat.mul_comm L.elemsPerSlab] at h
  exact h

theorem div_number {i j : Nat} (hj : j < L.elemsPerSlab) :
    (i * L.elemsPerSlab + j) / L.elemsPerSlab = i := by
  rw [Nat.mul_comm, Nat.mul_add_div L.elems_pos, Nat.div_eq_of_lt hj, Nat.add_zero]

theorem mod_number {i j : Nat} (hj : j < L.elemsPerSlab) :
    (i * L.elemsPerSlab + j) % L.elemsPerSlab = j := by
  rw [Nat.mul_comm, Nat.mul_add_mod, Nat.mod_eq_of_lt hj]

theorem numbered_number {i j : Nat} (hj : j < L.elemsPerSlab) :
    s.numbered (i * L.elemsPerSlab + j) = s.cellAddr i j := by
  rw [numbered, div_number hj, mod_number hj]

theorem div_mod_number (L : Layout) (c : Nat) :
    c / L.elemsPerSlab * L.elemsPerSlab + c % L.elemsPerSlab = c := Nat.div_add_mod' c _

theorem mod_lt_elems (L : Layout) (c : Nat) : c % L.elemsPerSlab < L.elemsPerSlab :=
  Nat.mod_lt _ L.elems_pos

theorem div_lt_slabs {c : Nat} (hc : c < s.slabs.length * L.elemsPerSlab) :
    c / L.elemsPerSlab < s.slabs.length := Nat.div_lt_of_lt_mul (by rwa [Nat.mul_comm])

/-- A number in the slabs is below their count. -/
theorem number_lt {i j n : Nat} (hi : i < n) (hj : j < L.elemsPerSlab) :
    i * L.elemsPerSlab + j < n * L.elemsPerSlab := by
  have h : (i + 1) * L.elemsPerSlab ≤ n * L.elemsPerSlab := Nat.mul_le_mul_right _ hi
  rw [Nat.add_mul, Nat.one_mul] at h
  omega

theorem slab_mem {i : Nat} (hi : i < s.slabs.length) : s.slabs.getD i 0 ∈ s.slabs := by
  rw [List.getD_eq_getElem _ _ hi]
  exact List.getElem_mem hi

/-- The bytes of a cell lie in its slab. -/
theorem cellAddr_bounds {i j : Nat} (hj : j < L.elemsPerSlab) :
    s.slabs.getD i 0 ≤ s.cellAddr i j ∧
      s.cellAddr i j + L.elemSize ≤ s.slabs.getD i 0 + L.slabBytes := by
  have := cell_in_slab hj
  unfold cellAddr
  omega

variable (hp : s.Placed)
include hp

theorem Placed.slabs_apart {i k : Nat} (hi : i < s.slabs.length) (hk : k < s.slabs.length)
    (hne : i ≠ k) : s.slabs.getD i 0 + L.slabBytes ≤ s.slabs.getD k 0 ∨
      s.slabs.getD k 0 + L.slabBytes ≤ s.slabs.getD i 0 := by
  have hpair := List.pairwise_iff_getElem.mp hp.apart
  rw [List.getD_eq_getElem _ _ hi, List.getD_eq_getElem _ _ hk]
  rcases Nat.lt_or_gt_of_ne hne with h | h
  · exact hpair i k hi hk h
  · exact (hpair k i hk hi h).symm

/-- Two cells share no byte. -/
theorem Placed.cells_apart {i j k l : Nat} (hi : i < s.slabs.length) (hj : j < L.elemsPerSlab)
    (hk : k < s.slabs.length) (hl : l < L.elemsPerSlab) (hne : ¬ (i = k ∧ j = l)) :
    s.cellAddr i j + L.elemSize ≤ s.cellAddr k l ∨
      s.cellAddr k l + L.elemSize ≤ s.cellAddr i j := by
  by_cases hik : i = k
  · subst hik
    have hjl : j ≠ l := fun h => hne ⟨rfl, h⟩
    have hstep : ∀ m n, m < n → m * L.elemSize + L.elemSize ≤ n * L.elemSize := by
      intro m n hmn
      have h := Nat.mul_le_mul_right L.elemSize (Nat.succ_le_of_lt hmn)
      rw [Nat.succ_mul] at h
      exact h
    unfold cellAddr
    rcases Nat.lt_or_gt_of_ne hjl with h | h
    · have := hstep j l h
      omega
    · have := hstep l j h
      omega
  · have hslabs := hp.slabs_apart hi hk hik
    have hij := cellAddr_bounds (s := s) (i := i) hj
    have hkl := cellAddr_bounds (s := s) (i := k) hl
    omega

theorem Placed.numbered_apart {c d : Nat} (hc : c < s.slabs.length * L.elemsPerSlab)
    (hd : d < s.slabs.length * L.elemsPerSlab) (hne : c ≠ d) :
    s.numbered c + L.elemSize ≤ s.numbered d ∨ s.numbered d + L.elemSize ≤ s.numbered c := by
  apply hp.cells_apart (div_lt_slabs hc) (mod_lt_elems L c) (div_lt_slabs hd) (mod_lt_elems L d)
  rintro ⟨hdiv, hmod⟩
  apply hne
  rw [← div_mod_number L c, ← div_mod_number L d, hdiv, hmod]

theorem Placed.numbered_inj {c d : Nat} (hc : c < s.slabs.length * L.elemsPerSlab)
    (hd : d < s.slabs.length * L.elemsPerSlab) (h : s.numbered c = s.numbered d) : c = d := by
  by_contra hne
  have hapart := hp.numbered_apart hc hd hne
  have hsize := L.pointer_le
  omega

theorem Placed.numbered_bounds {c : Nat} (hc : c < s.slabs.length * L.elemsPerSlab) :
    0 < s.numbered c ∧ s.numbered c < 2 ^ 64 := by
  have hblock := hp.blocks _ (slab_mem (div_lt_slabs hc))
  have hcell := cellAddr_bounds (s := s) (i := c / L.elemsPerSlab) (mod_lt_elems L c)
  have hsize := L.pointer_le
  unfold numbered
  omega

omit hp

theorem stateInSlabs_getD {slabs : List Nat}
    (hp : slabs.Pairwise fun a b => a + L.slabBytes ≤ b ∨ b + L.slabBytes ≤ a)
    {i j : Nat} (n : Nat) (hi : i < slabs.length) (hj : j < L.elemsPerSlab) :
    stateInSlabs L (slabs.getD i 0 + j * L.elemSize) n slabs = some (n + i, j) := by
  have hsize := L.pointer_le
  have hcell := cell_in_slab hj
  induction slabs generalizing i n with
  | nil => exact absurd hi (Nat.not_lt_zero i)
  | cons slab rest ih =>
    rw [List.pairwise_cons] at hp
    cases i with
    | zero =>
      rw [stateInSlabs, List.getD_cons_zero, if_pos (by omega), Nat.add_sub_cancel_left,
        Nat.mul_div_cancel _ (by omega)]
      rfl
    | succ i =>
      have hi' : i < rest.length := by simpa using hi
      have hmem : rest.getD i 0 ∈ rest := by
        rw [List.getD_eq_getElem _ _ hi']
        exact List.getElem_mem hi'
      have hapart := hp.1 _ hmem
      rw [stateInSlabs, List.getD_cons_succ, if_neg (by omega), ih hp.2 (n + 1) hi']
      congr 2
      omega

theorem stateInSlabs_bounds {cell : Nat} {slabs : List Nat} {n i j : Nat}
    (h : stateInSlabs L cell n slabs = some (i, j)) :
    i < n + slabs.length ∧ j < L.elemsPerSlab := by
  induction slabs generalizing n with
  | nil => cases h
  | cons slab rest ih =>
    unfold stateInSlabs at h
    split at h
    · rename_i hin
      obtain ⟨rfl, rfl⟩ := Prod.mk.inj (Option.some.inj h)
      refine ⟨by simp, ?_⟩
      apply Nat.div_lt_of_lt_mul
      have : L.slabBytes = L.elemSize * L.elemsPerSlab := rfl
      omega
    · have := ih h
      simp only [List.length_cons]
      omega

/-- A cell is found at its own state byte. -/
theorem Placed.poolCellState_cellAddr (hp : s.Placed) {i j : Nat} (hi : i < s.slabs.length)
    (hj : j < L.elemsPerSlab) : s.poolCellState (s.cellAddr i j) = some (i, j) := by
  have h := stateInSlabs_getD hp.apart 0 hi hj
  rwa [Nat.zero_add] at h

theorem poolCellState_bounds {cell i j : Nat} (h : s.poolCellState cell = some (i, j)) :
    i < s.slabs.length ∧ j < L.elemsPerSlab := by
  have hb := stateInSlabs_bounds (n := 0) h
  rwa [Nat.zero_add] at hb

end Addresses

section Represents

variable {p : Pool Unit}

variable (hr : s.Represents p)
include hr

theorem Represents.lt_slabs (hw : p.Wf) {c : Nat} (hc : c < p.carved) :
    c < s.slabs.length * L.elemsPerSlab := by
  have := Pool.carved_le_slabs hw
  rw [hr.slabCount, hr.elemsPerSlab] at this
  omega

theorem Represents.carved_eq {n : Nat} (hn : s.slabs.length = n + 1) :
    p.carved = n * L.elemsPerSlab + s.nextIndex := by
  unfold Pool.carved
  rw [hr.slabCount, hn, hr.elemsPerSlab, hr.nextIndex]
  simp

/-- The cells handed out are the numbers below the carved ones. -/
theorem Represents.carved_iff (hw : p.Wf) {i j : Nat} (hj : j < L.elemsPerSlab) :
    s.Carved i j ↔ i * L.elemsPerSlab + j < p.carved := by
  unfold Carved slabCells
  rcases Nat.eq_zero_or_pos s.slabs.length with h0 | hpos
  · have hcarved : p.carved = 0 := by
      unfold Pool.carved
      rw [hr.slabCount, h0]
      simp
    simp [h0, hcarved]
  · obtain ⟨n, hn⟩ := Nat.exists_eq_succ_of_ne_zero (Nat.ne_of_gt hpos)
    have hnext : s.nextIndex ≤ L.elemsPerSlab := by
      rw [← hr.nextIndex, ← hr.elemsPerSlab]
      exact hw.next
    rw [hr.carved_eq hn, hn, Nat.succ_sub_one]
    rcases Nat.lt_trichotomy i n with h | h | h
    · have := number_lt (L := L) h hj
      simp only [Nat.ne_of_lt h, ↓reduceIte]
      omega
    · subst h
      simp
    · have hle := Nat.mul_le_mul_right L.elemsPerSlab (Nat.succ_le_of_lt h)
      rw [Nat.succ_mul] at hle
      omega

theorem Represents.slabCells_le (hw : p.Wf) (i : Nat) : s.slabCells i ≤ L.elemsPerSlab := by
  have hnext : s.nextIndex ≤ L.elemsPerSlab := by
    rw [← hr.nextIndex, ← hr.elemsPerSlab]
    exact hw.next
  unfold slabCells
  split
  · exact hnext
  · exact Nat.le_refl _

theorem Represents.isFree_iff {i j : Nat} (hi : i < s.slabs.length) (hj : j < L.elemsPerSlab) :
    s.isFree i j ↔ p.isFreed (i * L.elemsPerSlab + j) = true := by
  unfold isFree Pool.isFreed
  rw [← hr.state i j hi hj]
  simp [flags]

/-- The live cells are those of the pool, at their addresses. -/
theorem Represents.live_iff (hw : p.Wf) (cell : Nat) :
    s.Live cell ↔ ∃ c, p.Live c ∧ cell = s.numbered c := by
  constructor
  · rintro ⟨i, j, hc, rfl, hfree⟩
    have hj : j < L.elemsPerSlab := lt_of_lt_of_le hc.2 (hr.slabCells_le hw i)
    refine ⟨i * L.elemsPerSlab + j, ⟨(hr.carved_iff hw hj).mp hc, ?_⟩, (numbered_number hj).symm⟩
    rw [hr.isFree_iff hc.1 hj] at hfree
    simpa using hfree
  · rintro ⟨c, ⟨hc, hfree⟩, rfl⟩
    have hi := div_lt_slabs (hr.lt_slabs hw hc)
    have hj := mod_lt_elems L c
    refine ⟨c / L.elemsPerSlab, c % L.elemsPerSlab, ?_, rfl, ?_⟩
    · rwa [hr.carved_iff hw hj, div_mod_number]
    · rw [hr.isFree_iff hi hj, div_mod_number, hfree]
      exact Bool.false_ne_true

theorem Represents.poolCellState_numbered {c : Nat} (hc : c < s.slabs.length * L.elemsPerSlab) :
    s.poolCellState (s.numbered c) = some (c / L.elemsPerSlab, c % L.elemsPerSlab) :=
  hr.placed.poolCellState_cellAddr (div_lt_slabs hc) (mod_lt_elems L c)

/-- A new state byte is a new state of the numbered cell. -/
theorem Represents.setState {i j : Nat} (hj : j < L.elemsPerSlab)
    {b : UInt8} {c : Nat} {st : CellState} (hc : i * L.elemsPerSlab + j = c) (hb : flags b = st) :
    (s.setState i j b).Represents (p.setState c st) := by
  refine ⟨hr.placed.same rfl rfl, hr.elemsPerSlab, hr.slabCount,
    hr.nextIndex, ?_, hr.freeList⟩
  intro k l hk hl
  change flags (Function.update s.cellState i (Function.update (s.cellState i) j b) k l) =
    Function.update p.cellState c st (k * L.elemsPerSlab + l)
  by_cases hik : k = i
  · subst hik
    rw [Function.update_self]
    by_cases hjl : l = j
    · subst hjl
      rw [Function.update_self, hc, Function.update_self, hb]
    · have hne : k * L.elemsPerSlab + l ≠ c := by omega
      rw [Function.update_of_ne hjl, Function.update_of_ne hne, hr.state k l hk hl]
  · have hne : k * L.elemsPerSlab + l ≠ c := by
      intro h
      apply hik
      rw [← div_number (L := L) (i := k) hl, h, ← hc, div_number hj]
    rw [Function.update_of_ne hik, Function.update_of_ne hne, hr.state k l hk hl]

/-- What leaves the bytes of the free cells alone leaves the free list alone. -/
theorem Represents.setMem (hw : p.Wf) {m : Mem}
    (hm : ∀ c, c < p.carved → p.isFreed c = true →
      ∀ b, s.numbered c ≤ b → b < s.numbered c + L.elemSize → m b = s.mem b) :
    ({ s with mem := m } : Store L).Represents p := by
  refine ⟨hr.placed.same rfl rfl, hr.elemsPerSlab, hr.slabCount,
    hr.nextIndex, hr.state, ?_⟩
  apply hr.freeList.frame
  intro a ha b hlo hhi
  obtain ⟨c, hc, rfl⟩ := List.mem_map.mp ha
  have hfree := (hw.freeList c).mp hc
  have hsize := L.pointer_le
  exact hm c hfree.1 hfree.2 b hlo (by omega)

end Represents

end Store

end Aer.Memory.Slabs
