import Aer.Memory.Safety
import Aer.Program.Source

set_option linter.all false

/-! What a collection between two instructions keeps of all that the machine can
still reach. -/
namespace Aer.Machine

open Aer.Data Aer.Memory

namespace State

/-- The variable of a scope slot: its box once it is captured. -/
def slotRef (slot : ScopeSlot) : Ref :=
  match slot.box with
  | some b => .box b
  | none => .val slot.val

def scopeRefs (scope : AerScope) : List Ref :=
  (List.range scope.count).map (fun j => slotRef (scope.slots j)) ++
    if scope.overflow then scope.map.values.map fun e => .box (.spilled e) else []

def frameRefs (f : CallFrame) : List Ref :=
  .val (.function f.function) ::
    (f.defers.flatMap fun d => d.args.map .val) ++
    if f.defersDraining then [.val f.pendingReturnValue] else []

def shapeRefs (s : State) (id : Nat) : List Ref :=
  match s.heap.shapes[id]? with
  | some shape => shape.fields.map fun f => .val f.2
  | none => []

/-- All that the program can get at: the value stack, the pending captures, the
scopes, the call frames, the constants and the struct field defaults. -/
def rootRefs (s : State) : List Ref :=
  ((List.range s.vm.stackTop).map fun i => .val (s.vm.stack i)) ++
    ((List.range s.vm.pendingUpvalueCount).map fun i => .box (s.vm.pendingUpvalues i)) ++
    ((List.range s.vm.scopeDepth).flatMap fun i => scopeRefs (s.vm.scopes i)) ++
    ((List.range s.vm.callDepth).flatMap fun i => frameRefs (s.vm.callStack i)) ++
    s.chunk.pool.map .val ++
    s.chunk.shapes.flatMap s.shapeRefs

theorem covers_slots (s : State) (slots : List ScopeSlot) :
    s.heap.Covers (slots.map slotRef) (slots.filterMap s.slotRoot) where
  val v hv := by
    obtain ⟨slot, hslot, hv⟩ := List.mem_map.mp hv
    refine List.mem_filterMap.mpr ⟨slot, hslot, ?_⟩
    rcases hbox : slot.box with _ | b <;> simp_all [slotRef, slotRoot]
  box b v hb hv := by
    obtain ⟨slot, hslot, hb⟩ := List.mem_map.mp hb
    refine List.mem_filterMap.mpr ⟨slot, hslot, ?_⟩
    rcases hbox : slot.box with _ | b <;> simp_all [slotRef, slotRoot]

theorem covers_scope (s : State) (scope : AerScope) :
    s.heap.Covers (scopeRefs scope) (s.scopeRoots scope) := by
  unfold scopeRefs scopeRoots
  refine .append ?_ ?_
  · have h := s.covers_slots ((List.range scope.count).map scope.slots)
    rwa [List.map_map, List.filterMap_map] at h
  · split
    · have h := s.heap.covers_boxes (scope.map.values.map .spilled)
      rwa [List.map_map, List.filterMap_map] at h
    · exact s.heap.covers_vals []

theorem covers_frame (s : State) (f : CallFrame) :
    s.heap.Covers (frameRefs f) ((frameRoots f).map Root.toVal) := by
  have hrefs : frameRefs f = (.function f.function :: (f.defers.flatMap fun d => d.args) ++
      if f.defersDraining then [f.pendingReturnValue] else [] : List AerVal).map .val := by
    unfold frameRefs
    cases f.defersDraining <;> simp [List.map_flatMap]
  rw [hrefs]
  refine (s.heap.covers_vals _).mono fun v hv => ?_
  unfold frameRoots
  cases hd : f.defersDraining <;> simp_all [Root.toVal]

theorem covers_shape (s : State) (id : Nat) :
    s.heap.Covers (s.shapeRefs id) ((s.shapeRoots id).map Root.toVal) := by
  cases hid : s.heap.shapes[id]? with
  | none => simpa only [shapeRefs, shapeRoots, hid, List.map_nil] using s.heap.covers_vals []
  | some shape =>
    have h := s.heap.covers_vals (shape.fields.map Prod.snd)
    simpa only [shapeRefs, shapeRoots, hid, List.map_map, Function.comp_def, Root.toVal] using h

theorem roots_vals (s : State) : s.roots.map Root.toVal =
    (List.range s.vm.stackTop).map s.vm.stack ++
      ((List.range s.vm.pendingUpvalueCount).map s.vm.pendingUpvalues).filterMap s.heap.readBox ++
      ((List.range s.vm.scopeDepth).flatMap fun i => s.scopeRoots (s.vm.scopes i)) ++
      ((List.range s.vm.callDepth).flatMap fun i =>
        (frameRoots (s.vm.callStack i)).map Root.toVal) ++
      s.chunk.pool ++ s.chunk.shapes.flatMap fun id => (s.shapeRoots id).map Root.toVal := by
  simp [roots, vmRoots, chunkRoots, List.map_flatMap, List.map_filterMap, List.filterMap_map,
    Function.comp_def, Root.toVal]

theorem covers_roots (s : State) : s.heap.Covers s.rootRefs (s.roots.map Root.toVal) := by
  have hstack := s.heap.covers_vals ((List.range s.vm.stackTop).map s.vm.stack)
  have hpending := s.heap.covers_boxes
    ((List.range s.vm.pendingUpvalueCount).map s.vm.pendingUpvalues)
  rw [List.map_map] at hstack hpending
  rw [roots_vals]
  exact ((((hstack.append hpending).append (.flatMap fun i _ => s.covers_scope _)).append
    (.flatMap fun i _ => s.covers_frame _)).append (s.heap.covers_vals _)).append
    (.flatMap fun id _ => s.covers_shape id)

theorem reached_scopeRoots (s : State) {refs : List Ref} {scope : AerScope}
    (hsub : scopeRefs scope ⊆ refs) {v : AerVal} (hv : v ∈ s.scopeRoots scope) :
    s.heap.Reached refs (.val v) := by
  rcases List.mem_append.mp hv with hv | hv
  · obtain ⟨j, hj, hv⟩ := List.mem_filterMap.mp hv
    have hslot : slotRef (scope.slots j) ∈ refs :=
      hsub (List.mem_append_left _ (List.mem_map_of_mem hj))
    unfold slotRoot at hv
    unfold slotRef at hslot
    cases hbox : (scope.slots j).box with
    | none =>
      rw [hbox] at hv hslot
      cases hv
      exact .root hslot
    | some b =>
      rw [hbox] at hv hslot
      exact .content (.root hslot) hv
  · split at hv
    · rename_i hover
      obtain ⟨e, he, hv⟩ := List.mem_filterMap.mp hv
      refine .content (b := .spilled e) (.root (hsub (List.mem_append_right _ ?_))) hv
      rw [if_pos hover]
      exact List.mem_map_of_mem he
    · cases hv

theorem frameRoots_refs (f : CallFrame) {v : AerVal} (hv : v ∈ (frameRoots f).map Root.toVal) :
    .val v ∈ frameRefs f := by
  unfold frameRoots at hv
  unfold frameRefs
  cases hd : f.defersDraining <;> simp_all [Root.toVal]

/-- All that the collector starts from can be reached by the program. -/
theorem reached_roots (s : State) {v : AerVal} (hv : v ∈ s.roots.map Root.toVal) :
    s.heap.Reached s.rootRefs (.val v) := by
  rw [roots_vals] at hv
  simp only [List.mem_append, or_assoc] at hv
  unfold rootRefs
  rcases hv with hv | hv | hv | hv | hv | hv
  · obtain ⟨i, hi, rfl⟩ := List.mem_map.mp hv
    exact .root (by simp only [List.mem_append, or_assoc]; exact .inl (List.mem_map_of_mem hi))
  · obtain ⟨b, hb, hv⟩ := List.mem_filterMap.mp hv
    obtain ⟨i, hi, rfl⟩ := List.mem_map.mp hb
    exact .content (.root (by
      simp only [List.mem_append, or_assoc]; exact .inr (.inl (List.mem_map_of_mem hi)))) hv
  · obtain ⟨i, hi, hv⟩ := List.mem_flatMap.mp hv
    refine s.reached_scopeRoots (fun r hr => ?_) hv
    simp only [List.mem_append, or_assoc]
    exact .inr (.inr (.inl (List.mem_flatMap.mpr ⟨i, hi, hr⟩)))
  · obtain ⟨i, hi, hv⟩ := List.mem_flatMap.mp hv
    refine .root ?_
    simp only [List.mem_append, or_assoc]
    exact .inr (.inr (.inr (.inl (List.mem_flatMap.mpr ⟨i, hi, frameRoots_refs _ hv⟩))))
  · refine .root ?_
    simp only [List.mem_append, or_assoc]
    exact .inr (.inr (.inr (.inr (.inl (List.mem_map_of_mem hv)))))
  · obtain ⟨id, hid, hv⟩ := List.mem_flatMap.mp hv
    refine .root ?_
    simp only [List.mem_append, or_assoc]
    refine .inr (.inr (.inr (.inr (.inr (List.mem_flatMap.mpr ⟨id, hid, ?_⟩)))))
    cases hshape : s.heap.shapes[id]? with
    | none => simp [shapeRoots, hshape] at hv
    | some shape =>
      simp only [shapeRoots, shapeRefs, hshape, List.map_map] at hv ⊢
      obtain ⟨f, hf, rfl⟩ := List.mem_map.mp hv
      exact List.mem_map_of_mem hf

/-- What a collection at an opcode boundary must not do is to free a cell the program
can still reach. It does so exactly when it considers the box of a reachable variable. -/
theorem gcCollect_keeps_iff (s : State) (minor : Bool) :
    (∀ n, s.heap.ReachedCell s.rootRefs n → s.heap.LiveCell n →
        (s.gcCollect minor).heap.LiveCell n) ↔
      ∀ c, s.heap.ReachedCell s.rootRefs (.box c) → ¬ s.heap.boxes.Sweepable minor c :=
  Heap.keeps_reached_iff s.covers_roots minor

end State

section Sample

/-- A closure, held by a global variable, over a parameter of a call that has returned. -/
def closureProgram : String :=
  "function mk(x):\n    return function():\n        return x\nf = mk(1)\n"

/-- The state once the closure is stored. -/
abbrev closureStored : State := Program.after 12 20 closureProgram

/-- The closure refers to the box of the captured parameter, and a minor collection frees
the box. -/
theorem closureStored_spec :
    (vmRun {} 12 (Program.load 20 closureProgram)).isDone = true ∧
      .val (.function 1) ∈ closureStored.rootRefs ∧
      closureStored.heap.cellOf (.function 1) = some (.function 1) ∧
      .box (.pooled 0) ∈ closureStored.heap.held (.function 1) ∧
      closureStored.heap.boxes.Live 0 ∧ ¬ (closureStored.gcCollect true).heap.boxes.Live 0 := by
  decide +kernel

/-- A minor collection at this opcode boundary frees the box, which is in use and can be
reached. -/
theorem State.gcCollect_frees_box :
    ∃ s, Steps {} (Program.load 20 closureProgram) s ∧
      ∃ n, s.heap.ReachedCell s.rootRefs n ∧ s.heap.LiveCell n ∧
        ¬ (s.gcCollect true).heap.LiveCell n := by
  obtain ⟨hsteps, hroot, hcell, hheld, hlive, hfreed⟩ := closureStored_spec
  have hreached : closureStored.heap.ReachedCell closureStored.rootRefs (.box 0) :=
    ⟨.box (.pooled 0), .held (.root hroot) hcell hheld, rfl⟩
  exact ⟨closureStored, Program.steps_after hsteps, .box 0, hreached, hlive, hfreed⟩

end Sample

end Aer.Machine
