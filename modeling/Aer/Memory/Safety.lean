import Aer.Memory.Sweep

set_option linter.all false

/-! Reachability as a program sees it, boxes included, against what a collection
frees. -/
namespace Aer.Memory

open Aer.Data Aer.Lib

/-- What a root or a container may hold: a value, or the box of a variable. -/
inductive Ref
  | val (v : AerVal)
  | box (b : BoxRef)
  deriving DecidableEq

/-- A cell of one of the six pools. -/
inductive PoolCell
  | traced (n : Cell)
  | box (cell : Nat)
  deriving DecidableEq

def Ref.poolCell : Ref → Option PoolCell
  | val v => (Cell.ofVal v).map .traced
  | box (.pooled c) => some (.box c)
  | box (.spilled _) => none

namespace Heap

def LiveCell (h : Heap) : PoolCell → Prop
  | .traced n => h.Live n
  | .box c => h.boxes.Live c

/-- What a container cell holds; a function holds its boxes. -/
def held (h : Heap) : Cell → List Ref
  | .array c => (h.arrays.data c).items.map .val
  | .dict c => (h.dicts.data c).values.map .val
  | .function c => (h.functions.data c).upvalues.map .box
  | .string _ | .long _ => []

/-- What can be reached from the roots: through array items, dict entries, the boxes
of a function, and the value in each box. -/
inductive Reached (h : Heap) (refs : List Ref) : Ref → Prop
  | root {r : Ref} : r ∈ refs → Reached h refs r
  | held {v : AerVal} {n : Cell} {r : Ref} :
      Reached h refs (.val v) → h.cellOf v = some n → r ∈ h.held n → Reached h refs r
  | content {b : BoxRef} {v : AerVal} :
      Reached h refs (.box b) → h.readBox b = some v → Reached h refs (.val v)

def ReachedCell (h : Heap) (refs : List Ref) (n : PoolCell) : Prop :=
  ∃ r, h.Reached refs r ∧ r.poolCell = some n

/-- The values the collector starts from account for the roots. -/
structure Covers (h : Heap) (refs : List Ref) (vals : List AerVal) : Prop where
  val : ∀ v, .val v ∈ refs → v ∈ vals
  box : ∀ b v, .box b ∈ refs → h.readBox b = some v → v ∈ vals

theorem Covers.mono {h : Heap} {refs : List Ref} {vals more : List AerVal}
    (hc : h.Covers refs vals) (hsub : vals ⊆ more) : h.Covers refs more :=
  ⟨fun v hv => hsub (hc.val v hv), fun b v hb hv => hsub (hc.box b v hb hv)⟩

theorem Covers.append {h : Heap} {refs refs' : List Ref} {vals vals' : List AerVal}
    (hc : h.Covers refs vals) (hc' : h.Covers refs' vals') :
    h.Covers (refs ++ refs') (vals ++ vals') where
  val v hv := by
    rw [List.mem_append] at hv ⊢
    exact hv.imp (hc.val v) (hc'.val v)
  box b v hb hv := by
    rw [List.mem_append] at hb ⊢
    exact hb.imp (hc.box b v · hv) (hc'.box b v · hv)

theorem Covers.flatMap {α : Type} {h : Heap} {f : α → List Ref} {g : α → List AerVal} {l : List α}
    (hc : ∀ a ∈ l, h.Covers (f a) (g a)) : h.Covers (l.flatMap f) (l.flatMap g) where
  val v hv := by
    rw [List.mem_flatMap] at hv ⊢
    obtain ⟨a, ha, hv⟩ := hv
    exact ⟨a, ha, (hc a ha).val v hv⟩
  box b v hb hv := by
    rw [List.mem_flatMap] at hb ⊢
    obtain ⟨a, ha, hb⟩ := hb
    exact ⟨a, ha, (hc a ha).box b v hb hv⟩

theorem covers_vals (h : Heap) (vals : List AerVal) : h.Covers (vals.map .val) vals where
  val v hv := by
    obtain ⟨w, hw, hwv⟩ := List.mem_map.mp hv
    cases hwv
    exact hw
  box b v hb _ := by
    obtain ⟨w, -, hwb⟩ := List.mem_map.mp hb
    cases hwb

theorem covers_boxes (h : Heap) (boxes : List BoxRef) :
    h.Covers (boxes.map .box) (boxes.filterMap h.readBox) where
  val v hv := by
    obtain ⟨w, -, hwv⟩ := List.mem_map.mp hv
    cases hwv
  box b v hb hv := by
    obtain ⟨c, hc, hcb⟩ := List.mem_map.mp hb
    cases hcb
    exact List.mem_filterMap.mpr ⟨b, hc, hv⟩

theorem Reached.mono {h : Heap} {refs more : List Ref} (hsub : refs ⊆ more) {r : Ref}
    (hr : h.Reached refs r) : h.Reached more r := by
  induction hr with
  | root hr => exact .root (hsub hr)
  | held _ hn hr ih => exact .held ih hn hr
  | content _ hv ih => exact .content ih hv

/-- What a pass pushes besides its roots. -/
def rememberedRefs (h : Heap) (minor : Bool) : List Ref :=
  (if minor then h.rememberedKept.flatMap h.rememberedItems else []).map .val

section Collection
variable {h : Heap} {refs : List Ref} {roots : List Root}

/-- The values behind a reached reference are traced. -/
def Traced (h : Heap) (vals : List AerVal) : Ref → Prop
  | .val v => ∀ n, h.cellOf v = some n → Tracing.Reach tracer h vals n
  | .box b => ∀ v n, h.readBox b = some v → h.cellOf v = some n → Tracing.Reach tracer h vals n

theorem traced_of_held {vals : List AerVal} {n : Cell} {r : Ref}
    (hn : Tracing.Reach tracer h vals n) (hr : r ∈ h.held n) : h.Traced vals r := by
  have hedge {v : AerVal} {m : Cell} (hv : v ∈ h.edges n) (hm : h.cellOf v = some m) :
      Tracing.Reach tracer h vals m := .step hn hv hm
  cases n with
  | array c | dict c =>
    obtain ⟨v, hv, rfl⟩ := List.mem_map.mp hr
    exact fun m hm => hedge hv hm
  | function c =>
    obtain ⟨b, hb, rfl⟩ := List.mem_map.mp hr
    exact fun v m hv hm => hedge (List.mem_filterMap.mpr ⟨b, hb, hv⟩) hm
  | string c | long c => cases hr

theorem traced_of_reached {vals : List AerVal} (hc : h.Covers refs vals) {r : Ref}
    (hr : h.Reached refs r) : h.Traced vals r := by
  induction hr with
  | @root r hr =>
    cases r with
    | val v => exact fun n hn => .root (hc.val v hr) hn
    | box b => exact fun v n hv hn => .root (hc.box b v hr hv) hn
  | held _ hn hr ih => exact traced_of_held (ih _ hn) hr
  | content _ hv ih => exact fun n hn => ih _ n hv hn

/-- No collection frees a reachable string, array, dict, function or boxed integer. -/
theorem live_gcCollect_of_reached (hc : h.Covers refs (roots.map Root.toVal)) (minor : Bool)
    {n : Cell} (hn : h.ReachedCell refs (.traced n)) (hl : h.Live n) :
    (h.gcCollect roots minor).Live n := by
  obtain ⟨r, hr, hrn⟩ := hn
  cases r with
  | val v =>
    obtain ⟨m, hm, hmn⟩ := Option.map_eq_some_iff.mp hrn
    cases hmn
    have hreach := traced_of_reached hc hr n (cellOf_of_live hm hl)
    exact (live_gcCollect h roots minor n).mpr
      ⟨hl, .inl (hreach.mono tracer (List.subset_append_left _ _))⟩
  | box b => cases b <;> cases hrn

/-- What the trace reaches from values the program can reach, the program can reach. -/
theorem reachedCell_of_reach {vals : List AerVal} (hv : ∀ v ∈ vals, h.Reached refs (.val v))
    {n : Cell} (hn : Tracing.Reach tracer h vals n) : h.ReachedCell refs (.traced n) := by
  suffices ∃ v, h.Reached refs (.val v) ∧ h.cellOf v = some n by
    obtain ⟨v, hr, hvn⟩ := this
    exact ⟨.val v, hr, by simp only [Ref.poolCell, ofVal_of_cellOf hvn, Option.map_some]⟩
  induction hn with
  | @root v n hmem hnode => exact ⟨v, hv v hmem, hnode⟩
  | @step n w m _ hchild hnode ih =>
    obtain ⟨v, hr, hvn⟩ := ih
    refine ⟨w, ?_, hnode⟩
    cases n with
    | array c | dict c => exact .held hr hvn (List.mem_map_of_mem hchild)
    | function c =>
      obtain ⟨b, hb, hw⟩ := List.mem_filterMap.mp hchild
      exact .content (.held hr hvn (List.mem_map_of_mem hb)) hw
    | string c | long c => cases hchild

/-- A collection frees a cell exactly when its pass considers the cell and nothing
it starts from reaches it. -/
theorem freed_iff_not_reached (hc : h.Covers refs (roots.map Root.toVal))
    (hr : ∀ v ∈ roots.map Root.toVal, h.Reached refs (.val v)) (minor : Bool) {n : Cell}
    (hl : h.Live n) :
    ¬ (h.gcCollect roots minor).Live n ↔
      h.Sweepable minor n ∧ ¬ h.ReachedCell (refs ++ h.rememberedRefs minor) (.traced n) := by
  have hreach : Tracing.Reach tracer h (h.gcRoots roots minor) n ↔
      h.ReachedCell (refs ++ h.rememberedRefs minor) (.traced n) := by
    constructor
    · refine reachedCell_of_reach fun v hv => ?_
      rcases List.mem_append.mp hv with hv | hv
      · exact (hr v hv).mono (List.subset_append_left _ _)
      · exact .root (List.mem_append_right _ (List.mem_map_of_mem hv))
    · rintro ⟨r, hr, hrn⟩
      have htraced := traced_of_reached (hc.append (h.covers_vals _)) hr
      cases r with
      | val v =>
        obtain ⟨m, hm, hmn⟩ := Option.map_eq_some_iff.mp hrn
        cases hmn
        exact htraced n (cellOf_of_live hm hl)
      | box b => cases b <;> cases hrn
  rw [← hreach, ← freed_by_gcCollect]
  exact (and_iff_right hl).symm

/-- A collection keeps all that is reachable exactly when no reachable box is a cell
its sweep considers: boxes are traced through but never marked. -/
theorem keeps_reached_iff (hc : h.Covers refs (roots.map Root.toVal)) (minor : Bool) :
    (∀ n, h.ReachedCell refs n → h.LiveCell n → (h.gcCollect roots minor).LiveCell n) ↔
      ∀ c, h.ReachedCell refs (.box c) → ¬ h.boxes.Sweepable minor c := by
  have hbox := box_freed_by_gcCollect h roots minor
  constructor
  · intro hkeep c hreach hsweep
    obtain ⟨hl, hfreed⟩ := (hbox c).mpr hsweep
    exact hfreed (hkeep (.box c) hreach hl)
  · intro hsafe n hreach hl
    cases n with
    | traced n => exact live_gcCollect_of_reached hc minor hreach hl
    | box c =>
      by_contra hfreed
      exact hsafe c hreach ((hbox c).mp ⟨hl, hfreed⟩)

end Collection

end Heap

end Aer.Memory
