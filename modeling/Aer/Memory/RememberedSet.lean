import Aer.Memory.Sweep
import Mathlib.Data.List.Perm.Subperm

set_option linter.all false

/-! The remembered set over whole runs of allocations, write barriers and collections:
which entries it has, and what the bits of the cells say about them. -/
namespace Aer.Memory

open Aer.Data Aer.Lib

/-- An entry for a cell of a pool. -/
def Remembered.isPooled : Remembered → Bool
  | .box (.spilled _) => false
  | _ => true

namespace Heap

/-- The cell has been handed out and not been freed. -/
def inUse (h : Heap) : Remembered → Prop
  | .array c => h.arrays.Live c
  | .dict c => h.dicts.Live c
  | .box (.pooled c) => h.boxes.Live c
  | .box (.spilled e) => e < h.entryCount

instance (h : Heap) (r : Remembered) : Decidable (h.inUse r) :=
  match r with
  | .array c => inferInstanceAs (Decidable (h.arrays.Live c))
  | .dict c => inferInstanceAs (Decidable (h.dicts.Live c))
  | .box (.pooled c) => inferInstanceAs (Decidable (h.boxes.Live c))
  | .box (.spilled e) => inferInstanceAs (Decidable (e < h.entryCount))

/-- There is such a cell, in use or not. -/
def isCell (h : Heap) : Remembered → Prop
  | .array c => c < h.arrays.carved
  | .dict c => c < h.dicts.carved
  | .box (.pooled c) => c < h.boxes.carved
  | .box (.spilled e) => e < h.entryCount

/-- The `REMEMBERED` bit of a pooled cell. -/
def hasBit (h : Heap) : Remembered → Bool
  | .array c => h.arrays.isRemembered c
  | .dict c => h.dicts.isRemembered c
  | .box (.pooled c) => h.boxes.isRemembered c
  | .box (.spilled _) => false

def barrier (h : Heap) (r : Remembered) (v : AerVal) : Heap :=
  match r with
  | .array c => h.gcBarrierArray c v
  | .dict c => h.gcBarrierDict c v
  | .box b => h.gcBarrierBox b v

/-- A young container is not remembered; boxes are, at every age. -/
def isGated (h : Heap) : Remembered → Bool
  | .array c => h.arrays.isYoung c
  | .dict c => h.dicts.isYoung c
  | .box _ => false

/-- The write makes a new entry. -/
def enters (h : Heap) (r : Remembered) (v : AerVal) : Bool :=
  !h.isGated r && h.valueIsYoung v &&
    !(if r.isPooled then h.hasBit r else decide (r ∈ h.remembered))

def markEntered (h : Heap) : Remembered → Heap
  | .array c => { h with arrays := h.arrays.markRemembered c }
  | .dict c => { h with dicts := h.dicts.markRemembered c }
  | .box (.pooled c) => { h with boxes := h.boxes.markRemembered c }
  | .box (.spilled _) => h

theorem barrier_eq (h : Heap) (r : Remembered) (v : AerVal) :
    h.barrier r v =
      if h.enters r v then { h.markEntered r with remembered := h.remembered ++ [r] } else h := by
  rcases r with c | c | (c | e)
  · simp only [barrier, gcBarrierArray, gcRemember, enters, isGated, hasBit, Remembered.isPooled,
      markEntered]
    cases h.arrays.isYoung c <;> cases h.valueIsYoung v <;> cases h.arrays.isRemembered c <;> rfl
  · simp only [barrier, gcBarrierDict, gcRemember, enters, isGated, hasBit, Remembered.isPooled,
      markEntered]
    cases h.dicts.isYoung c <;> cases h.valueIsYoung v <;> cases h.dicts.isRemembered c <;> rfl
  · simp only [barrier, gcBarrierBox, gcRemember, enters, isGated, hasBit, Remembered.isPooled,
      markEntered]
    cases h.valueIsYoung v <;> cases h.boxes.isRemembered c <;> rfl
  · by_cases hin : Remembered.box (.spilled e) ∈ h.remembered
    · simp [barrier, gcBarrierBox, gcRemember, enters, Remembered.isPooled, hin]
    · by_cases hv : h.valueIsYoung v = true <;>
        simp [barrier, gcBarrierBox, gcRemember, enters, isGated, Remembered.isPooled, markEntered,
          hin, hv]

end Heap

/-- What a program does to the heap. -/
inductive Action
  | newString (b : Bytes)
  | newLong (n : Int)
  | newFunction (f : AerFunction)
  | newArray (a : AerArray)
  | newDict (d : HashTable AerVal)
  | newBox (v : AerVal)
  | newEntry (v : AerVal)
  | freeEntries (es : List Nat)
  | setArray (c : Nat) (a : AerArray)
  | setDict (c : Nat) (d : HashTable AerVal)
  | writeBox (b : BoxRef) (v : AerVal)
  | barrier (r : Remembered) (v : AerVal)
  | collect (roots : List Root) (minor : Bool)

namespace Action

def run (h : Heap) : Action → Heap
  | newString b => (h.aerMakeString b).2
  | newLong n => (h.newLong n).2
  | newFunction f => (h.newFunction f).2
  | newArray a => (h.newArray a).2
  | newDict d => (h.newDict d).2
  | newBox v => (h.newBox v).2
  | newEntry v => (h.newEntry v).2
  | freeEntries es => h.freeEntries es
  | setArray c a => h.setArray c a
  | setDict c d => h.setDict c d
  | writeBox b v => h.writeBox b v
  | barrier r v => h.barrier r v
  | collect roots minor => h.gcCollect roots minor

/-- The cell that starts a new life. -/
def born (h : Heap) : Action → Option Remembered
  | newArray a => some (.array (h.arrays.alloc a).1)
  | newDict d => some (.dict (h.dicts.alloc d).1)
  | newBox v => some (.box (.pooled (h.boxes.alloc v).1))
  | _ => none

/-- The entry that is made. -/
def entered (h : Heap) : Action → Option Remembered
  | barrier r v => if h.enters r v then some r else none
  | _ => none

/-- Barriers stand before writes to cells in use. -/
def Valid (h : Heap) : Action → Prop
  | barrier r _ => h.inUse r
  | _ => True

end Action

/-- A heap, and the cells an entry was made for since they were last handed out. -/
structure Tracked where
  heap : Heap
  made : Remembered → Bool

namespace Tracked

def init : Tracked := ⟨Heap.init, fun _ => false⟩

def step (s : Tracked) (a : Action) : Tracked where
  heap := a.run s.heap
  made r :=
    if a.born s.heap = some r then false
    else if a.entered s.heap = some r then true
    else s.made r

/-- A property of every state of a run. -/
def Always (P : Tracked → Prop) : Tracked → List Action → Prop
  | s, [] => P s
  | s, a :: as => P s ∧ Always P (s.step a) as

/-- A property of every step of a run. -/
def Along (P : Tracked → Action → Prop) : Tracked → List Action → Prop
  | _, [] => True
  | s, a :: as => P s a ∧ Along P (s.step a) as

/-- Every array, dict and box has at most one entry; the bit of a pooled cell in use says
whether it has one that was made in its present life; and there are at most as many entries
as cells. -/
structure Once (s : Tracked) : Prop where
  once : ∀ r, s.heap.remembered.count r ≤ 1
  bit : ∀ r, r.isPooled = true → s.heap.inUse r →
    (s.heap.hasBit r = true ↔ r ∈ s.heap.remembered ∧ s.made r = true)
  bound : s.heap.remembered.length ≤ s.heap.arrays.carved + s.heap.dicts.carved +
    s.heap.boxes.carved + s.heap.entryCount

/-- The set still has an entry from an earlier life of the cell. -/
def Stale (s : Tracked) (r : Remembered) : Prop := r ∈ s.heap.remembered ∧ s.made r = false

/-- No barrier makes an entry for a cell that has a stale one. -/
def Clean (s : Tracked) (a : Action) : Prop := ∀ r, a.entered s.heap = some r → ¬ s.Stale r

end Tracked

namespace Pool
variable {α : Type} {p q : Pool α}

/-- One step of a pool: the cell that is handed out, and the one whose bit is set. -/
structure Steps (p q : Pool α) (born added : Option Nat) : Prop where
  live : ∀ c, q.Live c → born = some c ∨ p.Live c
  bit : ∀ c, q.Live c → q.isRemembered c =
    if born = some c then false else if added = some c then true else p.isRemembered c
  carved : p.carved ≤ q.carved
  wf : q.Wf

theorem Wf.steps_same (h : p.Wf) (hstate : q.cellState = p.cellState) (hcarved : q.carved = p.carved)
    (hwf : p.Wf → q.Wf) : p.Steps q none none where
  live c hc := by
    refine Or.inr ⟨?_, ?_⟩
    · rw [← hcarved]
      exact hc.1
    · rw [isFreed, ← hstate]
      exact hc.2
  bit c _ := by simp [isRemembered, hstate]
  carved := hcarved.ge
  wf := hwf h

theorem Wf.steps_refl (h : p.Wf) : p.Steps p none none := h.steps_same rfl rfl id

theorem Wf.steps_setData (h : p.Wf) (c : Nat) (a : α) : p.Steps (p.setData c a) none none :=
  h.steps_same rfl rfl fun h => h.setData c a

theorem Wf.steps_alloc (h : p.Wf) (a : α) : p.Steps (p.alloc a).2 (some (p.alloc a).1) none where
  live c hc := by
    rw [live_alloc h a] at hc
    exact hc.imp_left fun hc => by rw [hc]
  bit c _ := by
    have hfresh := h.alloc_fresh a
    by_cases hc : c = (p.alloc a).1
    · rw [hc, if_pos rfl]
      exact hfresh.born.2
    · have hne : ¬ some (p.alloc a).1 = some c := fun heq => hc (Option.some.inj heq).symm
      rw [if_neg hne, hfresh.isRemembered hc]
      simp
  carved := carved_le_alloc h a
  wf := h.alloc a

theorem Wf.steps_markRemembered (h : p.Wf) (c : Nat) :
    p.Steps (p.markRemembered c) none (some c) where
  live d hd := by
    refine Or.inr ⟨hd.1, ?_⟩
    rw [← isFreed_markRemembered p c d]
    exact hd.2
  bit d _ := by
    have hiff := isRemembered_markRemembered p c d
    by_cases hd : d = c
    · subst hd
      simpa using hiff.mpr (Or.inl rfl)
    · have hne : ¬ some c = some d := fun heq => hd (Option.some.inj heq).symm
      rw [if_neg hne]
      simp only [reduceCtorEq, ↓reduceIte]
      rw [Bool.eq_iff_iff, hiff, or_iff_right hd]
  carved := Nat.le_refl _
  wf := h.markRemembered c

theorem MarksOnly.steps_sweep {k : Pool α} (hm : p.MarksOnly k) (h : p.Wf) (minor : Bool) :
    p.Steps (k.sweep minor) none none where
  live c hc := Or.inr ((hm.live c).mp ((live_sweep k c).mp hc).1)
  bit c hc := by
    rw [(survivor_sweep hc).2, hm.isRemembered]
    simp
  carved := by rw [sweep_carved, hm.carved]
  wf := (hm.wf h).sweep

end Pool

/-! The cell of each pool an entry names. -/

def Remembered.ofArray : Remembered → Option Nat
  | .array c => some c
  | _ => none

def Remembered.ofDict : Remembered → Option Nat
  | .dict c => some c
  | _ => none

def Remembered.ofBox : Remembered → Option Nat
  | .box (.pooled c) => some c
  | _ => none

namespace Heap

/-- The pools of the cells that can be remembered are well formed. -/
structure ContainersWf (h : Heap) : Prop where
  arrays : h.arrays.Wf
  dicts : h.dicts.Wf
  boxes : h.boxes.Wf

/-- What a step does to the remembered set and the cells it can name. -/
structure Effect (h h' : Heap) (born added : Option Remembered) : Prop where
  arrays : h.arrays.Steps h'.arrays (born.bind Remembered.ofArray) (added.bind Remembered.ofArray)
  dicts : h.dicts.Steps h'.dicts (born.bind Remembered.ofDict) (added.bind Remembered.ofDict)
  boxes : h.boxes.Steps h'.boxes (born.bind Remembered.ofBox) (added.bind Remembered.ofBox)
  entryCount : h.entryCount ≤ h'.entryCount
  list : h'.remembered.Sublist (h.remembered ++ added.toList)
  kept : ∀ r ∈ h.remembered, h'.inUse r → r ∈ h'.remembered
  new : ∀ r, added = some r → r ∈ h'.remembered

section Effects
variable {h h' : Heap}

/-- Steps that leave the remembered set and its cells alone. -/
theorem effect_frame (harrays : h.arrays.Steps h'.arrays none none)
    (hdicts : h.dicts.Steps h'.dicts none none) (hboxes : h.boxes.Steps h'.boxes none none)
    (hcount : h.entryCount ≤ h'.entryCount) (hrem : h'.remembered = h.remembered) :
    h.Effect h' none none := by
  refine ⟨harrays, hdicts, hboxes, hcount, ?_, ?_, fun _ hr => nomatch hr⟩
  · rw [hrem]
    exact List.sublist_append_left _ _
  · intro r hr _
    rw [hrem]
    exact hr

theorem entryCount_mark (k : Heap) (n : Cell) : (k.mark n).entryCount = k.entryCount := by
  cases n <;> rfl

theorem entryCount_gcCollect (h : Heap) (roots : List Root) (minor : Bool) :
    (h.gcCollect roots minor).entryCount = h.entryCount := by
  have hmark : ∀ k n, k.entryCount = h.entryCount → (tracer.mark k n).entryCount = h.entryCount :=
    fun k n hk => (entryCount_mark k n).trans hk
  have hroots : (h.clearMarks.markRoots roots).1.entryCount = h.entryCount :=
    Tracing.seeds_preserves tracer (P := fun k => k.entryCount = h.entryCount) hmark _ rfl
  have hdrain : ∀ s : Heap × List AerVal, s.1.entryCount = h.entryCount →
      (markDrain s).entryCount = h.entryCount := fun s hs => by
    unfold markDrain
    exact Tracing.drain_preserves tracer (P := fun k => k.entryCount = h.entryCount) hmark _ s.2 hs
  cases minor with
  | false =>
    simp only [gcCollect, sweep, markPhase, Bool.false_eq_true, ↓reduceIte]
    exact hdrain _ hroots
  | true =>
    simp only [gcCollect, sweep, markPhase, ↓reduceIte]
    exact hdrain _ hroots

variable (hw : h.ContainersWf)
include hw

theorem effect_writeBox (b : BoxRef) (v : AerVal) : h.Effect (h.writeBox b v) none none := by
  cases b with
  | pooled c =>
    exact effect_frame hw.arrays.steps_refl hw.dicts.steps_refl (hw.boxes.steps_setData c v)
      (Nat.le_refl _) rfl
  | spilled e =>
    exact effect_frame hw.arrays.steps_refl hw.dicts.steps_refl hw.boxes.steps_refl
      (Nat.le_refl _) rfl

theorem effect_newArray (a : AerArray) :
    h.Effect (h.newArray a).2 (some (.array (h.arrays.alloc a).1)) none :=
  ⟨hw.arrays.steps_alloc a, hw.dicts.steps_refl, hw.boxes.steps_refl, Nat.le_refl _,
    List.sublist_append_left _ _, fun _ hr _ => hr, fun _ hr => nomatch hr⟩

theorem effect_newDict (d : HashTable AerVal) :
    h.Effect (h.newDict d).2 (some (.dict (h.dicts.alloc d).1)) none :=
  ⟨hw.arrays.steps_refl, hw.dicts.steps_alloc d, hw.boxes.steps_refl, Nat.le_refl _,
    List.sublist_append_left _ _, fun _ hr _ => hr, fun _ hr => nomatch hr⟩

theorem effect_newBox (v : AerVal) :
    h.Effect (h.newBox v).2 (some (.box (.pooled (h.boxes.alloc v).1))) none :=
  ⟨hw.arrays.steps_refl, hw.dicts.steps_refl, hw.boxes.steps_alloc v, Nat.le_refl _,
    List.sublist_append_left _ _, fun _ hr _ => hr, fun _ hr => nomatch hr⟩

theorem effect_barrier (r : Remembered) (v : AerVal) :
    h.Effect (h.barrier r v) none (if h.enters r v then some r else none) := by
  rw [barrier_eq]
  by_cases he : h.enters r v = true
  · have hkept : ∀ t ∈ h.remembered, t ∈ h.remembered ++ [r] :=
      fun t ht => List.mem_append_left _ ht
    have hnew : ∀ t, some r = some t → t ∈ h.remembered ++ [r] := by
      rintro t ⟨⟩
      simp
    simp only [he, ↓reduceIte]
    rcases r with c | c | (c | e)
    · exact ⟨hw.arrays.steps_markRemembered c, hw.dicts.steps_refl, hw.boxes.steps_refl,
        Nat.le_refl _, List.Sublist.refl _, fun t ht _ => hkept t ht, hnew⟩
    · exact ⟨hw.arrays.steps_refl, hw.dicts.steps_markRemembered c, hw.boxes.steps_refl,
        Nat.le_refl _, List.Sublist.refl _, fun t ht _ => hkept t ht, hnew⟩
    · exact ⟨hw.arrays.steps_refl, hw.dicts.steps_refl, hw.boxes.steps_markRemembered c,
        Nat.le_refl _, List.Sublist.refl _, fun t ht _ => hkept t ht, hnew⟩
    · exact ⟨hw.arrays.steps_refl, hw.dicts.steps_refl, hw.boxes.steps_refl,
        Nat.le_refl _, List.Sublist.refl _, fun t ht _ => hkept t ht, hnew⟩
  · rw [Bool.not_eq_true] at he
    simp only [he, Bool.false_eq_true, ↓reduceIte]
    exact effect_frame hw.arrays.steps_refl hw.dicts.steps_refl hw.boxes.steps_refl
      (Nat.le_refl _) rfl

theorem effect_collect (roots : List Root) (minor : Bool) :
    h.Effect (h.gcCollect roots minor) none none := by
  have hm := h.marksOnly_markPhase roots minor
  have hboxes : h.boxes.MarksOnly (h.markPhase roots minor).boxes := by
    rw [hm.boxes]
    exact Pool.marksOnly_clearMarks _
  have harr : h.arrays.Steps (h.gcCollect roots minor).arrays none none :=
    hm.arrays.steps_sweep hw.arrays minor
  have hdict : h.dicts.Steps (h.gcCollect roots minor).dicts none none :=
    hm.dicts.steps_sweep hw.dicts minor
  have hbox : h.boxes.Steps (h.gcCollect roots minor).boxes none none :=
    hboxes.steps_sweep hw.boxes minor
  refine ⟨harr, hdict, hbox, (entryCount_gcCollect h roots minor).ge, ?_, ?_,
    fun _ hr => nomatch hr⟩
  · rw [remembered_gcCollect, Option.toList_none, List.append_nil]
    cases minor with
    | false => exact List.Sublist.refl _
    | true => exact List.filter_sublist
  · intro r hr huse
    rw [remembered_gcCollect]
    cases minor with
    | false => exact hr
    | true =>
      have hlive : ∀ {α : Type} {p q : Pool α} {c : Nat}, p.Steps q none none → q.Live c →
          p.isFreed c = false := fun hs hc => ((hs.live _ hc).resolve_left (by simp)).2
      have halive : h.rememberedAlive r = true := by
        rcases r with c | c | (c | e)
        · simp only [rememberedAlive, hlive harr huse, Bool.not_false]
        · simp only [rememberedAlive, hlive hdict huse, Bool.not_false]
        · simp only [rememberedAlive, hlive hbox huse, Bool.not_false]
        · rfl
      exact List.mem_filter.mpr ⟨hr, halive⟩

end Effects

end Heap

theorem Action.effect {h : Heap} (hw : h.ContainersWf) (a : Action) :
    h.Effect (a.run h) (a.born h) (a.entered h) := by
  have harr := hw.arrays.steps_refl
  have hdict := hw.dicts.steps_refl
  have hbox := hw.boxes.steps_refl
  cases a with
  | newString b => exact Heap.effect_frame harr hdict hbox (Nat.le_refl _) rfl
  | newLong n => exact Heap.effect_frame harr hdict hbox (Nat.le_refl _) rfl
  | newFunction f => exact Heap.effect_frame harr hdict hbox (Nat.le_refl _) rfl
  | newArray a => exact Heap.effect_newArray hw a
  | newDict d => exact Heap.effect_newDict hw d
  | newBox v => exact Heap.effect_newBox hw v
  | newEntry v => exact Heap.effect_frame harr hdict hbox (Nat.le_succ _) rfl
  | freeEntries es => exact Heap.effect_frame harr hdict hbox (Nat.le_refl _) rfl
  | setArray c a =>
    exact Heap.effect_frame (hw.arrays.steps_setData c a) hdict hbox (Nat.le_refl _) rfl
  | setDict c d =>
    exact Heap.effect_frame harr (hw.dicts.steps_setData c d) hbox (Nat.le_refl _) rfl
  | writeBox b v => exact Heap.effect_writeBox hw b v
  | barrier r v => exact Heap.effect_barrier hw r v
  | collect roots minor => exact Heap.effect_collect hw roots minor

namespace Heap

theorem bind_ofArray (o : Option Remembered) (c : Nat) :
    o.bind Remembered.ofArray = some c ↔ o = some (.array c) := by
  rcases o with _ | c' | c' | (c' | e) <;> simp [Remembered.ofArray]

theorem bind_ofDict (o : Option Remembered) (c : Nat) :
    o.bind Remembered.ofDict = some c ↔ o = some (.dict c) := by
  rcases o with _ | c' | c' | (c' | e) <;> simp [Remembered.ofDict]

theorem bind_ofBox (o : Option Remembered) (c : Nat) :
    o.bind Remembered.ofBox = some c ↔ o = some (.box (.pooled c)) := by
  rcases o with _ | c' | c' | (c' | e) <;> simp [Remembered.ofBox]

section Effect
variable {h h' : Heap} {born added : Option Remembered} (he : h.Effect h' born added)
include he

theorem Effect.wf : h'.ContainersWf := ⟨he.arrays.wf, he.dicts.wf, he.boxes.wf⟩

theorem Effect.isCell {r : Remembered} (hr : h.isCell r) : h'.isCell r := by
  rcases r with c | c | (c | e)
  · exact lt_of_lt_of_le hr he.arrays.carved
  · exact lt_of_lt_of_le hr he.dicts.carved
  · exact lt_of_lt_of_le hr he.boxes.carved
  · exact lt_of_lt_of_le hr he.entryCount

theorem Effect.inUse {r : Remembered} (hp : r.isPooled = true) (hr : h'.inUse r) :
    born = some r ∨ h.inUse r := by
  rcases r with c | c | (c | e)
  · exact (he.arrays.live c hr).imp_left (bind_ofArray born c).mp
  · exact (he.dicts.live c hr).imp_left (bind_ofDict born c).mp
  · exact (he.boxes.live c hr).imp_left (bind_ofBox born c).mp
  · cases hp

theorem Effect.hasBit {r : Remembered} (hp : r.isPooled = true) (hr : h'.inUse r) :
    h'.hasBit r = if born = some r then false else if added = some r then true else h.hasBit r := by
  rcases r with c | c | (c | e)
  · have hbit := he.arrays.bit c hr
    simp only [bind_ofArray] at hbit
    exact hbit
  · have hbit := he.dicts.bit c hr
    simp only [bind_ofDict] at hbit
    exact hbit
  · have hbit := he.boxes.bit c hr
    simp only [bind_ofBox] at hbit
    exact hbit
  · cases hp

end Effect

theorem isCell_of_inUse {h : Heap} {r : Remembered} (hr : h.inUse r) : h.isCell r := by
  rcases r with c | c | (c | e)
  · exact hr.1
  · exact hr.1
  · exact hr.1
  · exact hr

/-- The cells an entry can name. -/
def nameable (h : Heap) : List Remembered :=
  (List.range h.arrays.carved).map .array ++ (List.range h.dicts.carved).map .dict ++
    (List.range h.boxes.carved).map (.box ∘ .pooled) ++
      (List.range h.entryCount).map (.box ∘ .spilled)

theorem mem_nameable {h : Heap} {r : Remembered} (hr : h.isCell r) : r ∈ h.nameable := by
  simp only [nameable, List.mem_append, List.mem_map, List.mem_range, Function.comp_apply]
  rcases r with c | c | (c | e)
  · exact Or.inl (Or.inl (Or.inl ⟨c, hr, rfl⟩))
  · exact Or.inl (Or.inl (Or.inr ⟨c, hr, rfl⟩))
  · exact Or.inl (Or.inr ⟨c, hr, rfl⟩)
  · exact Or.inr ⟨e, hr, rfl⟩

theorem length_nameable (h : Heap) :
    h.nameable.length = h.arrays.carved + h.dicts.carved + h.boxes.carved + h.entryCount := by
  simp [nameable, Nat.add_assoc]

end Heap

namespace Tracked

/-- What holds in every run: the entries name cells, and the bits of the cells in use tell
the entries of their present lives. -/
structure Sound (s : Tracked) : Prop where
  wf : s.heap.ContainersWf
  isCell : ∀ r ∈ s.heap.remembered, s.heap.isCell r
  bit : ∀ r, r.isPooled = true → s.heap.inUse r →
    (s.heap.hasBit r = true ↔ r ∈ s.heap.remembered ∧ s.made r = true)

theorem sound_init : init.Sound where
  wf := ⟨Pool.wf_init (by decide), Pool.wf_init (by decide), Pool.wf_init (by decide)⟩
  isCell _ hr := absurd hr List.not_mem_nil
  bit r hp hr := by
    rcases r with c | c | (c | e)
    · exact absurd hr.1 (Nat.not_lt_zero c)
    · exact absurd hr.1 (Nat.not_lt_zero c)
    · exact absurd hr.1 (Nat.not_lt_zero c)
    · cases hp

theorem entered_inUse {h : Heap} {a : Action} (hv : a.Valid h) {r : Remembered}
    (hr : a.entered h = some r) : h.inUse r := by
  cases a with
  | barrier t v =>
    unfold Action.entered at hr
    dsimp only at hr
    split at hr
    · cases hr
      exact hv
    · cases hr
  | _ => cases hr

theorem Sound.step {s : Tracked} (hs : s.Sound) {a : Action} (hv : a.Valid s.heap) :
    (s.step a).Sound := by
  have he := a.effect hs.wf
  have hmem : ∀ r ∈ (s.step a).heap.remembered, r ∈ s.heap.remembered ∨ a.entered s.heap = some r := by
    intro r hr
    have := he.list.subset hr
    rwa [List.mem_append, Option.mem_toList] at this
  refine ⟨he.wf, ?_, ?_⟩
  · intro r hr
    rcases hmem r hr with hr | hr
    · exact he.isCell (hs.isCell r hr)
    · exact he.isCell (Heap.isCell_of_inUse (entered_inUse hv hr))
  · intro r hp hr
    have hbit := he.hasBit hp hr
    change (a.run s.heap).hasBit r = true ↔ r ∈ (a.run s.heap).remembered ∧
      (if a.born s.heap = some r then false else if a.entered s.heap = some r then true
        else s.made r) = true
    rw [hbit]
    by_cases hborn : a.born s.heap = some r
    · simp [hborn]
    · rw [if_neg hborn, if_neg hborn]
      by_cases hadd : a.entered s.heap = some r
      · simp [hadd, he.new r hadd]
      · rw [if_neg hadd, if_neg hadd, hs.bit r hp ((he.inUse hp hr).resolve_left hborn)]
        refine and_congr_left fun _ => ⟨fun hin => he.kept r hin hr, fun hin => ?_⟩
        exact (hmem r hin).resolve_right hadd

/-- A sound set without duplicates is as the comments of the collector say. -/
theorem Sound.once_iff {s : Tracked} (hs : s.Sound) : s.Once ↔ s.heap.remembered.Nodup := by
  constructor
  · exact fun h => List.nodup_iff_count_le_one.mpr h.once
  · intro h
    refine ⟨List.nodup_iff_count_le_one.mp h, hs.bit, ?_⟩
    rw [← Heap.length_nameable]
    exact (List.Nodup.subperm h fun r hr => Heap.mem_nameable (hs.isCell r hr)).length_le

/-- What enters has no entry of its present life, so an entry that it has is stale. -/
theorem Sound.stale_of_mem {s : Tracked} (hs : s.Sound) {a : Action} (hv : a.Valid s.heap)
    {r : Remembered} (hr : a.entered s.heap = some r) (hmem : r ∈ s.heap.remembered) :
    s.Stale r := by
  refine ⟨hmem, ?_⟩
  have huse := entered_inUse hv hr
  cases a with
  | barrier t v =>
    unfold Action.entered at hr
    dsimp only at hr
    split at hr
    · rename_i he
      cases hr
      unfold Heap.enters at he
      rw [Bool.and_eq_true, Bool.not_eq_true'] at he
      cases hp : r.isPooled with
      | true =>
        have hbit : s.heap.hasBit r = false := by simpa [hp] using he.2
        by_contra hmade
        have := (hs.bit r hp huse).mpr ⟨hmem, by simpa using hmade⟩
        rw [hbit] at this
        exact Bool.false_ne_true this
      | false => simp [hp, hmem] at he
    · cases hr
  | _ => cases hr

/-- A step that keeps the set free of duplicates. -/
theorem Sound.nodup_step_iff {s : Tracked} (hs : s.Sound) {a : Action} (hv : a.Valid s.heap)
    (hn : s.heap.remembered.Nodup) : (s.step a).heap.remembered.Nodup ↔ Clean s a := by
  have he := a.effect hs.wf
  constructor
  · intro hstep r hr hstale
    cases a with
    | barrier t v =>
      unfold Action.entered at hr
      dsimp only at hr
      split at hr
      · rename_i henters
        cases hr
        change (s.heap.barrier r v).remembered.Nodup at hstep
        rw [Heap.barrier_eq, if_pos henters] at hstep
        have hdisjoint := (List.nodup_append'.mp hstep).2.2
        exact hdisjoint hstale.1 (List.mem_singleton.mpr rfl)
      · cases hr
    | _ => cases hr
  · intro hclean
    refine List.Nodup.sublist he.list ?_
    cases hadd : a.entered s.heap with
    | none => simpa using hn
    | some r =>
      have hfresh : r ∉ s.heap.remembered := fun hmem =>
        hclean r hadd (hs.stale_of_mem hv hadd hmem)
      rw [Option.toList_some, List.nodup_append']
      refine ⟨hn, List.nodup_singleton r, ?_⟩
      intro t ht ht'
      rw [List.mem_singleton.mp ht'] at ht
      exact hfresh ht

/-- A run from a state without duplicates has none just if all its steps are clean. -/
theorem Sound.always_iff {s : Tracked} (hs : s.Sound) (hn : s.heap.remembered.Nodup)
    {as : List Action} (hv : s.Along (fun s a => a.Valid s.heap) as) :
    s.Always Once as ↔ s.Along Clean as := by
  induction as generalizing s with
  | nil => exact ⟨fun _ => trivial, fun _ => hs.once_iff.mpr hn⟩
  | cons a as ih =>
    have hstep := hs.step hv.1
    constructor
    · rintro ⟨-, hrest⟩
      have hnext : (s.step a).heap.remembered.Nodup := by
        refine hstep.once_iff.mp ?_
        cases as with
        | nil => exact hrest
        | cons b bs => exact hrest.1
      exact ⟨(hs.nodup_step_iff hv.1 hn).mp hnext, (ih hstep hnext hv.2).mp hrest⟩
    · rintro ⟨hclean, hrest⟩
      have hnext := (hs.nodup_step_iff hv.1 hn).mpr hclean
      exact ⟨hs.once_iff.mpr hn, (ih hstep hnext hv.2).mpr hrest⟩

end Tracked

end Aer.Memory
