import Aer.Memory.SlabCells

set_option linter.all false

/-! Every operation on the slabs is the operation on the pool of numbered cells. -/
namespace Aer.Memory

namespace Pool
variable {α : Type} {p : Pool α}

/-- Clearing the mark of one cell. -/
def unmark (p : Pool α) (c : Nat) : Pool α :=
  p.setState c { p.cellState c with marked := false }

theorem foldl_unmark (p : Pool α) (n : Nat) :
    (List.range n).foldl unmark p =
      { p with cellState := fun c =>
          if c < n then { p.cellState c with marked := false } else p.cellState c } := by
  induction n with
  | zero => simp
  | succ n ih =>
    rw [List.range_succ, List.foldl_append, ih, List.foldl_cons, List.foldl_nil]
    simp only [unmark, setState, Nat.lt_irrefl, ↓reduceIte, Pool.mk.injEq, true_and, and_true]
    funext c
    by_cases hc : c = n
    · subst hc
      simp
    · have hlt : c < n + 1 ↔ c < n := by omega
      simp [Function.update_of_ne hc, hlt]

theorem clearMarks_eq (p : Pool α) : p.clearMarks = (List.range p.carved).foldl unmark p :=
  (foldl_unmark p p.carved).symm

theorem sound_init [Inhabited α] {n : Nat} (h : 0 < n) : (init n : Pool α).Sound where
  wf := wf_init h
  uncarved _ _ := rfl
  blank _ _ := rfl

/-- A state with the same free bit for a cell of the slabs. -/
theorem Sound.setState (h : p.Sound) {c : Nat} {st : CellState}
    (hc : c < p.slabCount * p.elemsPerSlab) (hst : st.free = p.isFreed c) :
    (p.setState c st).Sound := by
  have hfreed : ∀ d, (p.setState c st).isFreed d = p.isFreed d := by
    intro d
    unfold isFreed Pool.setState
    by_cases hd : d = c
    · subst hd
      simpa [isFreed] using hst
    · simp [Function.update_of_ne hd]
  refine ⟨⟨h.wf.elems, h.wf.next, h.wf.fresh, h.wf.nodup, ?_⟩, ?_, ?_⟩
  · intro d
    rw [hfreed]
    exact h.wf.freeList d
  · intro d hd
    rw [hfreed]
    exact h.uncarved d hd
  · intro d hd
    have hne : d ≠ c := by
      rintro rfl
      exact absurd hd (Nat.not_le_of_lt hc)
    exact (Function.update_of_ne hne _ _).trans (h.blank d hd)

theorem Sound.alloc (h : p.Sound) (a : α) : (p.alloc a).2.Sound := by
  have hlt := alloc_lt h.wf a
  have hle := carved_le_slabs (h.wf.alloc a)
  have hslabs : p.slabCount * p.elemsPerSlab ≤
      (p.alloc a).2.slabCount * (p.alloc a).2.elemsPerSlab := by
    unfold Pool.alloc
    cases p.freeList with
    | cons c rest => exact Nat.le_refl _
    | nil =>
      simp only [setData, Pool.setState]
      split
      · exact Nat.mul_le_mul_right _ (Nat.le_succ _)
      · exact Nat.le_refl _
  refine ⟨h.wf.alloc a, ?_, ?_⟩
  · intro c hc
    have hne : c ≠ (p.alloc a).1 := by omega
    have := carved_le_alloc h.wf a
    simpa [isFreed, alloc_cellState, Function.update_of_ne hne] using h.uncarved c (by omega)
  · intro c hc
    have hne : c ≠ (p.alloc a).1 := by omega
    rw [alloc_cellState, Function.update_of_ne hne]
    exact h.blank c (by omega)

theorem Sound.release (h : p.Sound) {c : Nat} (hc : p.Live c) : (p.release c).Sound := by
  have hfree := hc.2
  have hself : (p.release c).isFreed c = true := by simp [isFreed, Pool.release, Pool.setState]
  have hother : ∀ d, d ≠ c → (p.release c).isFreed d = p.isFreed d := by
    intro d hd
    simp [isFreed, Pool.release, Pool.setState, Function.update_of_ne hd]
  have hcarved : (p.release c).carved = p.carved := rfl
  have hle := carved_le_slabs h.wf
  refine ⟨⟨h.wf.elems, h.wf.next, h.wf.fresh, ?_, ?_⟩, ?_, ?_⟩
  · refine List.nodup_cons.mpr ⟨?_, h.wf.nodup⟩
    intro hmem
    have := ((h.wf.freeList c).mp hmem).2
    rw [hfree] at this
    exact Bool.false_ne_true this
  · intro d
    rw [hcarved]
    change d ∈ c :: p.freeList ↔ _
    rw [List.mem_cons, h.wf.freeList]
    by_cases hd : d = c
    · subst hd
      simp [hself, hc.1]
    · simp [hd, hother d hd]
  · intro d hd
    have hne : d ≠ c := by
      rintro rfl
      exact absurd hc.1 (Nat.not_lt_of_le hd)
    rw [hother d hne]
    exact h.uncarved d hd
  · intro d hd
    have hlt := hc.1
    have hne : d ≠ c := by
      rintro rfl
      change p.slabCount * p.elemsPerSlab ≤ d at hd
      omega
    exact (Function.update_of_ne hne _ _).trans (h.blank d hd)

end Pool

namespace Slabs

open Aer.Lib.Intrusive

section Fold
variable {m : Type → Type} [Monad m] [LawfulMonad m] {σ τ β : Type}

/-- A loop that is simulated step by step. -/
theorem foldlM_sim {R : σ → τ → Prop} {f : σ → β → m σ} {g : τ → β → τ} {l : List β}
    (hstep : ∀ a ∈ l, ∀ s t, R s t → ∃ s', f s a = pure s' ∧ R s' (g t a)) {s : σ} {t : τ}
    (h : R s t) : ∃ s', l.foldlM f s = pure s' ∧ R s' (l.foldl g t) := by
  induction l generalizing s t with
  | nil => exact ⟨s, rfl, h⟩
  | cons a l ih =>
    obtain ⟨s', hs', hr⟩ := hstep a List.mem_cons_self s t h
    obtain ⟨s'', hs'', hr'⟩ := ih (fun b hb => hstep b (List.mem_cons_of_mem _ hb)) hr
    refine ⟨s'', ?_, hr'⟩
    rw [List.foldlM_cons, hs', pure_bind, hs'']

/-- Rows of `E` numbers, one after the other, are the numbers. -/
theorem foldl_rows (g : τ → Nat → τ) (E n : Nat) (t : τ) :
    (List.range n).foldl (fun t i => (List.range' (i * E) E).foldl g t) t =
      (List.range (n * E)).foldl g t := by
  induction n with
  | zero => simp
  | succ n ih =>
    rw [List.range_succ, List.foldl_append, ih, List.foldl_cons, List.foldl_nil, Nat.succ_mul,
      List.range_eq_range', List.range_eq_range', ← List.range'_append_1, List.foldl_append,
      Nat.zero_add]

end Fold

namespace Store

variable {L : Layout} {s : Store L} {p : Pool Unit}

/-- The pool is represented and well formed. -/
structure Stands (s : Store L) (p : Pool Unit) : Prop where
  represents : s.Represents p
  sound : p.Sound

theorem stands_init (L : Layout) (m : Mem) : (init L m).Stands (Pool.init L.elemsPerSlab) where
  represents :=
    { placed :=
        { blocks := fun _ h => absurd h List.not_mem_nil
          apart := List.Pairwise.nil
          capacity := Nat.le_refl _
          width := Or.inl rfl }
      elemsPerSlab := rfl
      slabCount := rfl
      nextIndex := rfl
      state := fun i _ h => absurd h (Nat.not_lt_zero i)
      freeList := .nil }
  sound := Pool.sound_init L.elems_pos

section Operations

variable (hs : s.Stands p)
include hs

theorem Stands.setState {i j : Nat} (hi : i < s.slabs.length) (hj : j < L.elemsPerSlab)
    {b : UInt8} {st : CellState} (hb : flags b = st)
    (hfree : st.free = (flags (s.cellState i j)).free) :
    (s.setState i j b).Stands (p.setState (i * L.elemsPerSlab + j) st) := by
  refine ⟨hs.represents.setState hj rfl hb, hs.sound.setState ?_ ?_⟩
  · rw [hs.represents.slabCount, hs.represents.elemsPerSlab]
    exact number_lt hi hj
  · rw [hfree, hs.represents.state i j hi hj]
    rfl

theorem Stands.poolMark {cell : Nat} {b : Bool} {t : Store L}
    (h : s.poolMark cell = some (b, t)) : ∃ c, t.Stands (p.mark c) := by
  obtain ⟨⟨i, j⟩, hfound, heq⟩ := Option.map_eq_some_iff.mp h
  obtain ⟨hi, hj⟩ := poolCellState_bounds hfound
  have hstate := hs.represents.state i j hi hj
  refine ⟨i * L.elemsPerSlab + j, ?_⟩
  rw [Pool.mark, ← hstate]
  dsimp only at heq
  split at heq
  · rename_i hmarked
    obtain ⟨-, rfl⟩ := Prod.mk.inj heq
    rw [flags_marked hmarked, hstate, Pool.setState, Function.update_eq_self]
    exact hs
  · obtain ⟨-, rfl⟩ := Prod.mk.inj heq
    exact hs.setState hi hj (flags_mark _) rfl

theorem Stands.poolPromote {cell : Nat} {t : Store L} (h : s.poolPromote cell = some t) :
    ∃ c, t.Stands (p.promote c) := by
  obtain ⟨⟨i, j⟩, hfound, rfl⟩ := Option.map_eq_some_iff.mp h
  obtain ⟨hi, hj⟩ := poolCellState_bounds hfound
  refine ⟨i * L.elemsPerSlab + j, ?_⟩
  rw [Pool.promote, ← hs.represents.state i j hi hj]
  exact hs.setState hi hj (flags_promote _) rfl

theorem Stands.poolMarkRemembered {cell : Nat} {t : Store L}
    (h : s.poolMarkRemembered cell = some t) : ∃ c, t.Stands (p.markRemembered c) := by
  obtain ⟨⟨i, j⟩, hfound, rfl⟩ := Option.map_eq_some_iff.mp h
  obtain ⟨hi, hj⟩ := poolCellState_bounds hfound
  refine ⟨i * L.elemsPerSlab + j, ?_⟩
  rw [Pool.markRemembered, ← hs.represents.state i j hi hj]
  exact hs.setState hi hj (flags_remember _) rfl

/-- A live cell goes to the head of the free list. -/
theorem Stands.poolFree {c : Nat} (hc : p.Live c) :
    ∃ t, s.poolFree (s.numbered c) = some t ∧ t.Stands (p.release c) ∧ t.slabs = s.slabs ∧
      t.nextIndex = s.nextIndex := by
  have hr := hs.represents
  have hw := hs.sound.wf
  have hlt := hr.lt_slabs hw hc.1
  have hstate := hr.setState (mod_lt_elems L c) (div_mod_number L c) flags_free
  have hfree : s.poolFree (s.numbered c) =
      some ((s.setState (c / L.elemsPerSlab) (c % L.elemsPerSlab) Slabs.poolFree).push
        (s.numbered c)) := by
    rw [Store.poolFree, hr.poolCellState_numbered hlt]
    rfl
  refine ⟨_, hfree, ⟨?_, hs.sound.release hc⟩, rfl, rfl⟩
  refine ⟨hr.placed.same rfl rfl, hr.elemsPerSlab, hr.slabCount,
    hr.nextIndex, hstate.state, ?_⟩
  have hmem : ∀ a ∈ p.freeList.map s.numbered, ∃ d, d < s.slabs.length * L.elemsPerSlab ∧
      d ≠ c ∧ a = s.numbered d := by
    intro a ha
    obtain ⟨d, hd, rfl⟩ := List.mem_map.mp ha
    have hfreed := (hw.freeList d).mp hd
    refine ⟨d, hr.lt_slabs hw hfreed.1, ?_, rfl⟩
    rintro rfl
    rw [hc.2] at hfreed
    exact Bool.false_ne_true hfreed.2
  refine hr.freeList.push (hr.placed.numbered_bounds hlt).1 ?_ ?_
  · refine hr.freeList.lt (by decide) ?_
    intro a ha
    obtain ⟨d, hd, -, rfl⟩ := hmem a ha
    exact (hr.placed.numbered_bounds hd).2
  · intro a ha
    obtain ⟨d, hd, hne, rfl⟩ := hmem a ha
    have hapart := hr.placed.numbered_apart hd hlt hne
    have hsize := L.pointer_le
    omega

/-- The two nested loops over the cells run over the numbers of the carved cells. -/
theorem Stands.loop {m : Type → Type} [Monad m] [LawfulMonad m]
    {f : Nat → Store L → Nat → m (Store L)} {g : Pool Unit → Nat → Pool Unit}
    (hstep : ∀ i j, s.Carved i j → ∀ t q, t.Stands q → t.slabs = s.slabs →
      t.nextIndex = s.nextIndex → ∃ t', f i t j = pure t' ∧
        t'.Stands (g q (i * L.elemsPerSlab + j)) ∧ t'.slabs = s.slabs ∧
        t'.nextIndex = s.nextIndex) :
    ∃ t, (List.range s.slabs.length).foldlM
        (fun s i => (List.range (s.slabCells i)).foldlM (f i) s) s = pure t ∧
      t.Stands ((List.range p.carved).foldl g p) := by
  let R : Store L → Pool Unit → Prop := fun t q =>
    t.Stands q ∧ t.slabs = s.slabs ∧ t.nextIndex = s.nextIndex
  have hcells : ∀ t q, R t q → ∀ i, t.slabCells i = s.slabCells i := by
    rintro t q ⟨-, hslabs, hnext⟩ i
    simp only [slabCells, hslabs, hnext]
  have hrow : ∀ i ∈ List.range s.slabs.length, ∀ t q, R t q →
      ∃ t', (List.range (t.slabCells i)).foldlM (f i) t = pure t' ∧
        R t' ((List.range' (i * L.elemsPerSlab) (s.slabCells i)).foldl g q) := by
    intro i hi t q ht
    rw [hcells t q ht i, List.range'_eq_map_range, List.foldl_map]
    refine foldlM_sim (R := R) ?_ ht
    rintro j hj u v ⟨hu, hslabs, hnext⟩
    exact hstep i j ⟨List.mem_range.mp hi, List.mem_range.mp hj⟩ u v hu hslabs hnext
  obtain ⟨t, ht, hR⟩ := foldlM_sim (R := R) hrow ⟨hs, rfl, rfl⟩
  refine ⟨t, ht, ?_⟩
  rcases Nat.eq_zero_or_pos s.slabs.length with h0 | hpos
  · have hcarved : p.carved = 0 := by
      unfold Pool.carved
      rw [hs.represents.slabCount, h0]
      simp
    rw [hcarved]
    rw [h0] at hR
    exact hR.1
  · obtain ⟨n, hn⟩ := Nat.exists_eq_succ_of_ne_zero (Nat.ne_of_gt hpos)
    have hfull : ∀ i ∈ List.range n, s.slabCells i = L.elemsPerSlab := by
      intro i hi
      have := List.mem_range.mp hi
      unfold slabCells
      rw [if_neg (by omega)]
    have hlast : s.slabCells n = s.nextIndex := by
      unfold slabCells
      rw [if_pos (by omega)]
    have hsplit : (List.range (n + 1)).foldl
        (fun q i => (List.range' (i * L.elemsPerSlab) (s.slabCells i)).foldl g q) p =
        (List.range p.carved).foldl g p := by
      rw [hs.represents.carved_eq hn, List.range_succ, List.foldl_append, List.foldl_cons,
        List.foldl_nil, hlast, List.range_eq_range' (n := n * L.elemsPerSlab + s.nextIndex),
        ← List.range'_append_1, List.foldl_append, Nat.zero_add, ← List.range_eq_range',
        ← foldl_rows]
      congr 1
      apply List.foldl_ext
      intro q i hi
      rw [hfull i hi]
    rw [hn] at hR
    rw [← hsplit]
    exact hR.1

theorem Stands.poolClearMarks : s.poolClearMarks.Stands p.clearMarks := by
  rw [Pool.clearMarks_eq]
  have hstep : ∀ i j, s.Carved i j → ∀ (t : Store L) (q : Pool Unit), t.Stands q →
      t.slabs = s.slabs → t.nextIndex = s.nextIndex →
      ∃ t', t.setState i j (t.cellState i j &&& ~~~poolMarked) = t' ∧
        t'.Stands (q.unmark (i * L.elemsPerSlab + j)) ∧ t'.slabs = s.slabs ∧
        t'.nextIndex = s.nextIndex := by
    rintro i j ⟨hi, hj⟩ t q ht hslabs hnext
    have hj' := lt_of_lt_of_le hj (hs.represents.slabCells_le hs.sound.wf i)
    rw [← hslabs] at hi
    refine ⟨_, rfl, ?_, hslabs, hnext⟩
    rw [Pool.unmark, ← ht.represents.state i j hi hj']
    exact ht.setState hi hj' (flags_unmark _) rfl
  obtain ⟨t, ht, hstands⟩ := hs.loop (m := Id) hstep
  have hrun : s.poolClearMarks = t := by
    unfold Store.poolClearMarks
    simp only [List.foldl_eq_foldlM]
    exact ht
  rw [hrun]
  exact hstands

/-- Writes that miss the free cells. -/
theorem Stands.setMem {m : Mem}
    (hm : ∀ c, c < p.carved → p.isFreed c = true →
      ∀ b, s.numbered c ≤ b → b < s.numbered c + L.elemSize → m b = s.mem b) :
    ({ s with mem := m } : Store L).Stands p :=
  ⟨hs.represents.setMem hs.sound.wf hm, hs.sound⟩

theorem Stands.inSlabs {c b : Nat} (hc : c < p.carved) (hlo : s.numbered c ≤ b)
    (hhi : b < s.numbered c + L.elemSize) : s.InSlabs b := by
  have hi := div_lt_slabs (hs.represents.lt_slabs hs.sound.wf hc)
  have hcell := cellAddr_bounds (s := s) (i := c / L.elemsPerSlab) (mod_lt_elems L c)
  unfold numbered at hlo hhi
  exact ⟨_, slab_mem hi, by omega, by omega⟩

/-- A live cell and a free one share no byte. -/
theorem Stands.live_apart {c d : Nat} (hc : p.Live c) (hd : d < p.carved)
    (hfree : p.isFreed d = true) :
    s.numbered c + L.elemSize ≤ s.numbered d ∨ s.numbered d + L.elemSize ≤ s.numbered c := by
  have hw := hs.sound.wf
  refine hs.represents.placed.numbered_apart (hs.represents.lt_slabs hw hc.1)
    (hs.represents.lt_slabs hw hd) ?_
  rintro rfl
  rw [hc.2] at hfree
  exact Bool.false_ne_true hfree

theorem Stands.sweepCell {youngOnly : Bool} {onFree : Nat → Mem → Mem} (hf : s.Contained onFree)
    {i j : Nat} (hc : s.Carved i j) :
    ∃ t, sweepCell youngOnly onFree i s j = some t ∧
      t.Stands (Pool.sweepCell youngOnly p (i * L.elemsPerSlab + j)) ∧ t.slabs = s.slabs ∧
      t.nextIndex = s.nextIndex := by
  have hj : j < L.elemsPerSlab := lt_of_lt_of_le hc.2 (hs.represents.slabCells_le hs.sound.wf i)
  have hlt := (hs.represents.carved_iff hs.sound.wf hj).mp hc
  have hstate := hs.represents.state i j hc.1 hj
  have hfree : (p.cellState (i * L.elemsPerSlab + j)).free =
      decide (s.cellState i j &&& Slabs.poolFree ≠ 0) := by rw [← hstate]; rfl
  have hold : (p.cellState (i * L.elemsPerSlab + j)).old =
      decide (s.cellState i j &&& poolOld ≠ 0) := by rw [← hstate]; rfl
  have hmark : (p.cellState (i * L.elemsPerSlab + j)).marked =
      decide (s.cellState i j &&& poolMarked ≠ 0) := by rw [← hstate]; rfl
  unfold Store.sweepCell Pool.sweepCell
  simp only [hfree, hold, hmark, decide_eq_true_eq, Bool.and_eq_true]
  split
  · exact ⟨s, rfl, hs, rfl, rfl⟩
  · rename_i hlive
    split
    · exact ⟨s, rfl, hs, rfl, rfl⟩
    · split
      · refine ⟨_, rfl, ?_, rfl, rfl⟩
        rw [← hstate]
        refine hs.setState hc.1 hj ?_ rfl
        rw [flags_promote, flags_unmark]
        rfl
      · have hcell : p.Live (i * L.elemsPerSlab + j) := by
          refine ⟨hlt, ?_⟩
          rw [Pool.isFreed, hfree]
          exact decide_eq_false hlive
        have hrest : ({ s with mem := onFree (s.cellAddr i j) s.mem } : Store L).Stands p := by
          apply hs.setMem
          intro d hd hdfree b hlo hhi
          have hapart := hs.live_apart hcell hd hdfree
          rw [numbered_number hj] at hapart
          exact hf _ _ b (hs.inSlabs hd hlo hhi) (by omega)
        obtain ⟨t, ht, hrel⟩ := hrest.poolFree hcell
        rw [numbered_number hj] at ht
        exact ⟨t, ht, hrel⟩

theorem Stands.poolSweep {youngOnly : Bool} {onFree : Nat → Mem → Mem}
    (hf : s.Contained onFree) :
    ∃ t, s.poolSweep youngOnly onFree = some t ∧ t.Stands (p.sweep youngOnly) := by
  refine hs.loop (m := Option) ?_
  rintro i j ⟨hi, hj⟩ t q ht hslabs hnext
  have hcarved : t.Carved i j := by
    unfold Carved slabCells
    rw [hslabs, hnext]
    exact ⟨hi, hj⟩
  have hcontained : t.Contained onFree := by
    unfold Contained InSlabs
    rw [hslabs]
    exact hf
  obtain ⟨t', hrun, hstands, hslabs', hnext'⟩ := ht.sweepCell hcontained hcarved
  exact ⟨t', hrun, hstands, hslabs'.trans hslabs, hnext'.trans hnext⟩

/-- Clients that write to their cells write past the free list. -/
theorem Stands.write {m : Mem} (hm : ∀ b, s.InSlabs b → ¬ s.InLive b → m b = s.mem b) :
    ({ s with mem := m } : Store L).Stands p := by
  apply hs.setMem
  intro d hd hfree b hlo hhi
  apply hm b (hs.inSlabs hd hlo hhi)
  rintro ⟨cell, hcell, hle, hlt⟩
  obtain ⟨c, hc, rfl⟩ := (hs.represents.live_iff hs.sound.wf cell).mp hcell
  have hapart := hs.live_apart hc hd hfree
  omega

end Operations

section Alloc

/-- What the pool hands out in the slabs: its numbered cell, with a state byte of zero. -/
structure HandedOut (s t : Store L) (q : Pool Unit) (c cell : Nat) : Prop where
  stands : t.Represents q
  addr : cell = t.numbered c
  zero : t.cellState (c / L.elemsPerSlab) (c % L.elemsPerSlab) = 0
  slabs : s.slabs <+: t.slabs

theorem counted_represents (hr : s.Represents p) : s.counted.Represents p :=
  ⟨hr.placed.same rfl rfl, hr.elemsPerSlab, hr.slabCount,
    hr.nextIndex, hr.state, hr.freeList⟩

theorem setState_self (s : Store L) (i j : Nat) (b : UInt8) :
    (s.setState i j b).cellState i j = b := by
  simp [setState]

theorem Represents.setData (hr : s.Represents p) (c : Nat) :
    s.Represents (p.setData c ()) :=
  ⟨hr.placed, hr.elemsPerSlab, hr.slabCount, hr.nextIndex, hr.state, hr.freeList⟩

theorem Represents.reuse (hr : s.Represents p) (hw : p.Wf) {c : Nat} {rest : List Nat}
    (hf : p.freeList = c :: rest) {cell : Nat} {t : Store L} (h : s.reuse = some (cell, t)) :
    HandedOut s t (p.alloc ()).2 (p.alloc ()).1 cell := by
  have hlt := hr.lt_slabs hw ((hw.freeList c).mp (by simp [hf])).1
  have hchain := hr.freeList
  rw [hf, List.map_cons] at hchain
  obtain ⟨hhead, hrest⟩ := hchain.tail
  have hstate := hr.setState (mod_lt_elems L c) (div_mod_number L c) flags_zero
  unfold Store.reuse at h
  simp only [hhead, hr.poolCellState_numbered hlt, Option.map_some, Option.some.injEq,
    Prod.mk.injEq] at h
  obtain ⟨rfl, rfl⟩ := h
  simp only [Pool.alloc, hf]
  refine ⟨?_, rfl, ?_, List.prefix_rfl⟩
  · exact ⟨hr.placed.same rfl rfl, hr.elemsPerSlab, hr.slabCount,
      hr.nextIndex, hstate.state, hrest⟩
  · dsimp only
    exact setState_self s _ _ 0

/-- The grown capacity has room for one more slab, and is a power of two or has wrapped. -/
theorem Placed.room (hp : s.Placed) (h : s.grownCap ≠ 0) :
    s.slabs.length < s.grownCap ∧ ∃ k, k < 30 ∧ s.grownCap = 2 ^ (k + 2) := by
  have hcapacity := hp.capacity
  unfold grownCap at h ⊢
  split
  · rename_i hle
    rw [if_pos hle] at h
    rcases hp.width with h0 | ⟨k, hk, hcap⟩
    · rw [if_pos h0]
      exact ⟨by omega, 0, by decide, rfl⟩
    · have hpos : s.slabCap ≠ 0 := by
        rw [hcap]
        exact Nat.ne_of_gt (Nat.two_pow_pos _)
      rw [if_neg hpos] at h ⊢
      have hdouble : s.slabCap * 2 = 2 ^ (k + 1 + 2) := by rw [hcap, ← Nat.pow_succ]
      rcases Nat.lt_or_ge (k + 1) 30 with hk' | hk'
      · have hlt : s.slabCap * 2 < 2 ^ 32 := by
          rw [hdouble]
          exact Nat.pow_lt_pow_right (by decide) (by omega)
        rw [Nat.mod_eq_of_lt hlt]
        exact ⟨by omega, k + 1, hk', hdouble⟩
      · obtain rfl : k = 29 := by omega
        rw [hdouble] at h
        exact absurd rfl h
  · rename_i hlt
    refine ⟨Nat.lt_of_not_le hlt, ?_⟩
    rcases hp.width with h0 | hwidth
    · omega
    · exact hwidth

/-- A new slab is a row of unused cells. -/
theorem Represents.poolGrow (hr : s.Represents p) (hp : p.Sound) (hf : p.freeList = [])
    {block : Nat} (hm : s.Unused block) {t : Store L} (h : s.poolGrow block = some t) :
    t.Represents p.grow ∧ t.slabs = s.slabs ++ [block] := by
  unfold Store.poolGrow at h
  split at h
  · cases h
  · rename_i hne
    cases h
    refine ⟨⟨⟨?_, ?_, ?_, ?_⟩, hr.elemsPerSlab, ?_, rfl, ?_, ?_⟩, rfl⟩
    · intro slab hslab
      rcases List.mem_append.mp hslab with h | h
      · exact hr.placed.blocks slab h
      · rw [List.mem_singleton.mp h]
        exact ⟨hm.pos, hm.fits⟩
    · refine List.pairwise_append.mpr ⟨hr.placed.apart, List.pairwise_singleton _ _, ?_⟩
      intro a ha b hb
      rw [List.mem_singleton.mp hb]
      exact hm.apart a ha
    · rw [List.length_append, List.length_singleton]
      exact (hr.placed.room hne).1
    · exact Or.inr (hr.placed.room hne).2
    · change p.slabCount + 1 = (s.slabs ++ [block]).length
      rw [hr.slabCount, List.length_append, List.length_singleton]
    · intro i j hi hj
      rw [List.length_append, List.length_singleton] at hi
      change flags (Function.update s.cellState s.slabs.length (fun _ => 0) i j) = p.cellState _
      by_cases hlast : i = s.slabs.length
      · subst hlast
        rw [Function.update_self, flags_zero, hp.blank]
        rw [hr.slabCount, hr.elemsPerSlab]
        exact Nat.le_add_right _ _
      · rw [Function.update_of_ne hlast]
        exact hr.state i j (by omega) hj
    · have hchain := hr.freeList
      rw [hf] at hchain
      change Chain s.mem s.freeList (p.freeList.map _)
      rw [hf]
      exact hchain

/-- The next cell of the last slab. -/
theorem Represents.carve (hr : s.Represents p) (hf : p.freeList = []) {n : Nat}
    (hn : s.slabs.length = n + 1) (hnext : s.nextIndex < L.elemsPerSlab) :
    HandedOut s s.carve.2
      (({ p with nextIndex := p.nextIndex + 1 }.setState
        (n * L.elemsPerSlab + s.nextIndex) {}).setData (n * L.elemsPerSlab + s.nextIndex) ())
      (n * L.elemsPerSlab + s.nextIndex) s.carve.1 := by
  have hstate := hr.setState (i := n) hnext rfl flags_zero
  have hlast : s.slabs.length - 1 = n := by omega
  have hchain := hr.freeList
  rw [hf] at hchain
  have hrep : ({ s.setState n s.nextIndex 0 with nextIndex := s.nextIndex + 1 } : Store L).Represents
      ({ p with nextIndex := p.nextIndex + 1 }.setState (n * L.elemsPerSlab + s.nextIndex) {}) := by
    refine ⟨hr.placed.same rfl rfl, hr.elemsPerSlab,
      hr.slabCount, congrArg (· + 1) hr.nextIndex, hstate.state, ?_⟩
    change Chain s.mem s.freeList (p.freeList.map _)
    rw [hf]
    exact hchain
  unfold Store.carve
  rw [hlast]
  refine ⟨hrep.setData _, (numbered_number (s := s) hnext).symm, ?_, List.prefix_rfl⟩
  rw [div_number hnext, mod_number hnext]
  exact setState_self s n s.nextIndex 0

theorem Stands.poolAlloc (hs : s.Stands p) {block : Nat} (hm : s.Grows → s.Unused block)
    {cell : Nat} {t : Store L} (h : s.poolAlloc block = some (cell, t)) :
    HandedOut s t (p.alloc ()).2 (p.alloc ()).1 cell := by
  have hr := counted_represents hs.represents
  have hw := hs.sound.wf
  have hnull := hs.represents.freeList.eq_zero_iff
  rw [List.map_eq_nil_iff] at hnull
  unfold Store.poolAlloc at h
  cases hf : p.freeList with
  | cons c rest =>
    rw [if_pos (by simp [hnull, hf])] at h
    have hout := hr.reuse hw hf h
    exact ⟨hout.stands, hout.addr, hout.zero, hout.slabs⟩
  | nil =>
    have hzero := hnull.mpr hf
    rw [if_neg (by simp [hzero])] at h
    have hnext : p.nextIndex = s.nextIndex := hs.represents.nextIndex
    have helems := hs.represents.elemsPerSlab
    unfold Pool.alloc
    simp only [hf, hnext, helems]
    by_cases hfull : L.elemsPerSlab ≤ s.nextIndex
    · rw [if_pos hfull] at h
      obtain ⟨g, hg, hcarve⟩ := Option.map_eq_some_iff.mp h
      have hunused := hm ⟨hzero, hfull⟩
      have hunused' : s.counted.Unused block := ⟨hunused.pos, hunused.fits, hunused.apart⟩
      obtain ⟨hgrown, hslabs⟩ := hr.poolGrow hs.sound hf hunused' hg
      have hlen : g.slabs.length = s.slabs.length + 1 := by
        rw [hslabs, List.length_append]
        rfl
      have hzeroNext : g.nextIndex = 0 := hgrown.nextIndex.symm
      have hout := hgrown.carve hf hlen (by rw [hzeroNext]; exact L.elems_pos)
      rw [hcarve, hzeroNext, Nat.add_zero] at hout
      have hcount : p.slabCount = s.slabs.length := hs.represents.slabCount
      simp only [hfull, ↓reduceIte, Pool.grow, Nat.add_sub_cancel, Nat.add_zero, hcount, helems]
      refine ⟨?_, hout.addr, hout.zero, ?_⟩
      · have hstands := hout.stands
        simp only [Pool.grow, hcount, helems, Nat.add_zero] at hstands
        exact hstands
      · refine List.IsPrefix.trans ?_ hout.slabs
        rw [hslabs]
        exact List.prefix_append _ _
    · rw [if_neg hfull] at h
      have hcarve := Option.some.inj h
      have hpos : s.slabs.length ≠ 0 := by
        intro h0
        have := hw.fresh (hs.represents.slabCount.trans h0)
        omega
      obtain ⟨n, hn⟩ := Nat.exists_eq_succ_of_ne_zero hpos
      have hout := hr.carve hf (n := n) hn (Nat.lt_of_not_le hfull)
      rw [hcarve] at hout
      have hcount : p.slabCount - 1 = n := by rw [hs.represents.slabCount, hn]; rfl
      simp only [hfull, ↓reduceIte, hcount, hnext, helems]
      have hstands := hout.stands
      simp only [hnext, helems] at hstands
      exact ⟨hstands, hout.addr, hout.zero, hout.slabs⟩

end Alloc

section Runs

theorem Stands.step (hs : s.Stands p) {t : Store L} (h : s.Step t) : ∃ q : Pool Unit, t.Stands q := by
  cases h with
  | alloc hm h => exact ⟨_, (hs.poolAlloc hm h).stands, hs.sound.alloc ()⟩
  | free hl h =>
    obtain ⟨c, hc, rfl⟩ := (hs.represents.live_iff hs.sound.wf _).mp hl
    obtain ⟨t', ht, hstands, -⟩ := hs.poolFree hc
    rw [h] at ht
    cases ht
    exact ⟨_, hstands⟩
  | mark h =>
    obtain ⟨c, hc⟩ := hs.poolMark h
    exact ⟨_, hc⟩
  | promote h =>
    obtain ⟨c, hc⟩ := hs.poolPromote h
    exact ⟨_, hc⟩
  | markRemembered h =>
    obtain ⟨c, hc⟩ := hs.poolMarkRemembered h
    exact ⟨_, hc⟩
  | sweep hf h =>
    obtain ⟨t', ht, hstands⟩ := hs.poolSweep hf
    rw [h] at ht
    cases ht
    exact ⟨_, hstands⟩
  | clearMarks => exact ⟨_, hs.poolClearMarks⟩
  | write hm => exact ⟨p, hs.write hm⟩

theorem Reachable.stands (h : s.Reachable) : ∃ p : Pool Unit, s.Stands p := by
  obtain ⟨m, hrun⟩ := h
  induction hrun with
  | refl => exact ⟨_, stands_init L m⟩
  | tail _ hstep ih =>
    obtain ⟨p, hp⟩ := ih
    exact hp.step hstep

/-- The free list ends, and its cells are those of the slabs with `POOL_FREE`, each once. -/
def FreeListExact (s : Store L) : Prop :=
  ∃ cells, Chain s.mem s.freeList cells ∧ cells.Nodup ∧ ∀ a, a ∈ cells ↔
    ∃ i j, i < s.slabs.length ∧ j < L.elemsPerSlab ∧ s.isFree i j ∧ a = s.cellAddr i j

/-- An allocation hands out a cell that was not live, and leaves its state zero. -/
def AllocExact (s : Store L) : Prop :=
  ∀ block cell t, (s.Grows → s.Unused block) → s.poolAlloc block = some (cell, t) →
    ¬ s.Live cell ∧ ∃ i j, t.Carved i j ∧ cell = t.cellAddr i j ∧ t.cellState i j = 0

/-- A cell that has been handed out is found at its own state byte. -/
def FoundExact (s : Store L) : Prop :=
  ∀ i j, s.Carved i j → s.poolCellState (s.cellAddr i j) = some (i, j)

/-- No operation on cells that were handed out ends the program. -/
def NeverFatal (s : Store L) : Prop :=
  (∀ block, ¬ s.Grows → (s.poolAlloc block).isSome) ∧ (∀ cell, s.Live cell → (s.poolFree cell).isSome) ∧
    ∀ youngOnly onFree, s.Contained onFree → (s.poolSweep youngOnly onFree).isSome

theorem Stands.mem_freeList (hs : s.Stands p) (a : Nat) : a ∈ p.freeList.map s.numbered ↔
    ∃ i j, i < s.slabs.length ∧ j < L.elemsPerSlab ∧ s.isFree i j ∧ a = s.cellAddr i j := by
  have hr := hs.represents
  have hw := hs.sound.wf
  rw [List.mem_map]
  constructor
  · rintro ⟨c, hc, rfl⟩
    obtain ⟨hlt, hfree⟩ := (hw.freeList c).mp hc
    have hi := div_lt_slabs (hr.lt_slabs hw hlt)
    have hj := mod_lt_elems L c
    refine ⟨_, _, hi, hj, ?_, rfl⟩
    rw [hr.isFree_iff hi hj, div_mod_number]
    exact hfree
  · rintro ⟨i, j, hi, hj, hfree, rfl⟩
    rw [hr.isFree_iff hi hj] at hfree
    refine ⟨i * L.elemsPerSlab + j, (hw.freeList _).mpr ⟨?_, hfree⟩, numbered_number hj⟩
    by_contra hcarved
    rw [hs.sound.uncarved _ (Nat.le_of_not_lt hcarved)] at hfree
    exact Bool.false_ne_true hfree

theorem Stands.freeListExact (hs : s.Stands p) : s.FreeListExact := by
  have hr := hs.represents
  have hw := hs.sound.wf
  refine ⟨p.freeList.map s.numbered, hr.freeList, ?_, hs.mem_freeList⟩
  apply hw.nodup.map_on
  intro c hc d hd heq
  have hlt : ∀ e ∈ p.freeList, e < s.slabs.length * L.elemsPerSlab :=
    fun e he => hr.lt_slabs hw ((hw.freeList e).mp he).1
  exact hr.placed.numbered_inj (hlt c hc) (hlt d hd) heq

theorem numbered_prefix {t : Store L} (h : s.slabs <+: t.slabs) {c : Nat}
    (hc : c < s.slabs.length * L.elemsPerSlab) : t.numbered c = s.numbered c := by
  have hi := div_lt_slabs hc
  obtain ⟨more, hmore⟩ := h
  unfold numbered cellAddr
  rw [← hmore, List.getD_append _ _ _ _ hi]

theorem Stands.allocExact (hs : s.Stands p) : s.AllocExact := by
  intro block cell t hm h
  have hw := hs.sound.wf
  have hout := hs.poolAlloc hm h
  have hlt := Pool.alloc_lt hw ()
  have hslabs := hout.stands.lt_slabs (hw.alloc ()) hlt
  constructor
  · intro hlive
    obtain ⟨c, hc, heq⟩ := (hs.represents.live_iff hw cell).mp hlive
    have hold := hs.represents.lt_slabs hw hc.1
    have hlen := Nat.mul_le_mul_right L.elemsPerSlab hout.slabs.length_le
    rw [hout.addr, ← numbered_prefix hout.slabs hold] at heq
    have := hout.stands.placed.numbered_inj hslabs (by omega) heq
    subst this
    exact Pool.alloc_not_live hw () hc
  · refine ⟨_, _, ?_, hout.addr, hout.zero⟩
    rw [hout.stands.carved_iff (hw.alloc ()) (mod_lt_elems L _), div_mod_number]
    exact hlt

theorem Stands.foundExact (hs : s.Stands p) : s.FoundExact := by
  rintro i j ⟨hi, hj⟩
  have hj' := lt_of_lt_of_le hj (hs.represents.slabCells_le hs.sound.wf i)
  exact hs.represents.placed.poolCellState_cellAddr hi hj'

theorem Stands.neverFatal (hs : s.Stands p) : s.NeverFatal := by
  refine ⟨?_, ?_, ?_⟩
  · intro block hgrows
    unfold Store.poolAlloc
    by_cases hnull : s.freeList ≠ 0
    · rw [if_pos hnull]
      have hne : p.freeList ≠ [] := by
        intro hnil
        have := hs.represents.freeList.eq_zero_iff
        rw [hnil] at this
        exact hnull (this.mpr rfl)
      obtain ⟨c, rest, hf⟩ := List.exists_cons_of_ne_nil hne
      have hlt := hs.represents.lt_slabs hs.sound.wf
        ((hs.sound.wf.freeList c).mp (by simp [hf])).1
      have hchain := hs.represents.freeList
      rw [hf, List.map_cons] at hchain
      have hfound := (counted_represents hs.represents).poolCellState_numbered hlt
      have hhead : s.counted.freeList = s.counted.numbered c := hchain.tail.1
      simp [Store.reuse, hhead, hfound]
    · rw [if_neg hnull, if_neg (fun hfull => hgrows ⟨not_not.mp hnull, hfull⟩)]
      rfl
  · intro cell hcell
    obtain ⟨c, hc, rfl⟩ := (hs.represents.live_iff hs.sound.wf cell).mp hcell
    obtain ⟨t, ht, -⟩ := hs.poolFree hc
    simp [ht]
  · intro youngOnly onFree hf
    obtain ⟨t, ht, -⟩ : ∃ t, s.poolSweep youngOnly onFree = some t ∧ _ := hs.poolSweep hf
    simp [ht]

/-- The allocator's invariant, in every state a pool can be in. -/
theorem pool_exact (h : s.Reachable) :
    s.FreeListExact ∧ s.AllocExact ∧ s.FoundExact ∧ s.NeverFatal := by
  obtain ⟨p, hs⟩ := h.stands
  exact ⟨hs.freeListExact, hs.allocExact, hs.foundExact, hs.neverFatal⟩

/-- `long_pool`. -/
def longs : Layout where
  elemSize := 8
  elemsPerSlab := 64
  pointer_le := by decide
  elems_pos := by decide
  bytes_lt := by decide

/-- A cell that has been handed out and given back. -/
theorem pool_exact_longs :
    ∃ s : Store longs, s.freeList = 4096 ∧
      s.FreeListExact ∧ s.AllocExact ∧ s.FoundExact ∧ s.NeverFatal := by
  let zeros : Mem := fun _ => 0
  obtain ⟨t, ht⟩ : ∃ t, (init longs zeros).poolAlloc 4096 = some (4096, t) := ⟨_, rfl⟩
  have hunused : (init longs zeros).Unused 4096 :=
    ⟨by decide, by decide, fun _ h => absurd h List.not_mem_nil⟩
  have hlive : t.Live 4096 := by
    cases ht
    exact ⟨0, 0, ⟨by decide, by decide⟩, rfl, by decide⟩
  obtain ⟨s, hs⟩ : ∃ s, t.poolFree 4096 = some s ∧ s.freeList = 4096 := by
    cases ht
    exact ⟨_, rfl, rfl⟩
  exact ⟨s, hs.2, pool_exact ⟨zeros, .tail (.tail .refl (.alloc (fun _ => hunused) ht))
    (.free hlive hs.1)⟩⟩

end Runs

end Store

end Slabs

end Aer.Memory
