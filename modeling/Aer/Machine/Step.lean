import Aer.Machine.Handlers

set_option linter.all false

/-! The dispatch loop: one instruction a step, with a collection before it when
enough cells have been allocated. -/
namespace Aer.Machine

open Aer.Data Aer.Memory Aer.Lib.Interaction

namespace State

def gcCollect (s : State) (minor : Bool) : State :=
  { s with heap := s.heap.gcCollect s.roots minor }

def memoryCeilingExceeded (live limit : Nat) : Bytes :=
  bytes "Memory ceiling exceeded: " ++ natText live ++ bytes " live cells (limit " ++
    natText limit ++ bytes ")"

/-- The minor collection of a cycle; the count of allocations starts anew. -/
def minorCycle (s : State) : State :=
  let s := s.gcCollect true
  { s with
    heap := { s.heap with allocCount := 0 }
    gc :=
      { s.gc with
        minorCollections := s.gc.minorCollections + 1
        minorSinceMajor := s.gc.minorSinceMajor + 1 } }

def majorCycle (s : State) : State :=
  let s := s.gcCollect false
  { s with
    gc := { s.gc with majorCollections := s.gc.majorCollections + 1, minorSinceMajor := 0 } }

def reportCeiling (s : State) : State :=
  if s.heap.liveCells ≤ s.gc.ceiling then s
  else s.addError (memoryCeilingExceeded s.heap.liveCells s.gc.ceiling)

/-- The check of the ceiling, with a last major collection if none has run. -/
def checkCeiling (s : State) (majorRan : Bool) : State :=
  if s.gc.ceiling = 0 ∨ s.heap.liveCells ≤ s.gc.ceiling then s
  else if majorRan then s.reportCeiling
  else s.majorCycle.reportCeiling

def gcRunCollectionCycle (s : State) : State :=
  let s := s.minorCycle
  if s.gc.majorEveryNMinor ≤ s.gc.minorSinceMajor then s.majorCycle.checkCeiling true
  else s.checkCeiling false

def gcMaybeCollect (s : State) : State :=
  if 0 < s.gc.suppressDepth then s
  else if s.heap.allocCount < s.gc.minorThreshold then s
  else s.gcRunCollectionCycle

@[simp] theorem gcCollect_vm (s : State) (minor : Bool) : (s.gcCollect minor).vm = s.vm := by
  simp only [gcCollect]

@[simp] theorem minorCycle_vm (s : State) : s.minorCycle.vm = s.vm := by
  simp only [minorCycle, gcCollect_vm]

@[simp] theorem majorCycle_vm (s : State) : s.majorCycle.vm = s.vm := by
  simp only [majorCycle, gcCollect_vm]

@[simp] theorem reportCeiling_vm (s : State) : s.reportCeiling.vm = s.vm := by
  unfold reportCeiling
  split
  · rfl
  · simp only [addError]

@[simp] theorem checkCeiling_vm (s : State) (majorRan : Bool) :
    (s.checkCeiling majorRan).vm = s.vm := by
  unfold checkCeiling
  split
  · rfl
  · split <;> simp only [reportCeiling_vm, majorCycle_vm]

/-- A collection leaves the machine itself alone. -/
@[simp] theorem gcMaybeCollect_vm (s : State) : s.gcMaybeCollect.vm = s.vm := by
  unfold gcMaybeCollect gcRunCollectionCycle
  split
  · rfl
  · split
    · rfl
    · dsimp only
      split <;> simp only [checkCeiling_vm, majorCycle_vm, minorCycle_vm]

end State

/-- The fetch of an opcode and the handler behind it. -/
def instruction : Handler Unit := do
  handler (← readOpcode)

/-- The handler runs behind its opcode. -/
theorem run_fetched {cfg : Config} {s : State} {op : Opcode}
    (h : s.chunk.code[s.vm.ip]? = some op.word) :
    instruction.run (exec cfg) s =
      (handler op).run (exec cfg) { s with vm := { s.vm with ip := s.vm.ip + 1 } } := by
  have hread : exec cfg .read s =
      .done op.word { s with vm := { s.vm with ip := s.vm.ip + 1 } } := by
    simp only [exec, h]
  unfold instruction readOpcode perform
  rw [run_bind, run_bind, run_perform, hread, Outcome.done_andThen, Opcode.ofWord?_word]
  rfl

/-- One turn of the dispatch loop. -/
def dispatch (cfg : Config) (s : State) : Result Unit :=
  if s.runtimeHadError then .stop .failed s
  else instruction.run (exec cfg) s.gcMaybeCollect

/-- The states a run goes through at its opcode boundaries. -/
inductive Steps (cfg : Config) : State → State → Prop
  | refl (s : State) : Steps cfg s s
  | tail {s t u : State} : Steps cfg s t → dispatch cfg t = .done () u → Steps cfg s u

/-- The dispatch loop for at most `n` instructions; an answer means it has not stopped. -/
def vmRun (cfg : Config) : Nat → State → Result Unit
  | 0, s => .done () s
  | n + 1, s => (dispatch cfg s).andThen fun _ s => vmRun cfg n s

theorem Steps.trans {cfg : Config} {s t u : State} (h : Steps cfg s t) (h' : Steps cfg t u) :
    Steps cfg s u := by
  induction h' with
  | refl => exact h
  | tail _ hstep ih => exact .tail ih hstep

theorem steps_of_vmRun {cfg : Config} {n : Nat} {s t : State} (h : vmRun cfg n s = .done () t) :
    Steps cfg s t := by
  induction n generalizing s with
  | zero =>
    cases h
    exact .refl _
  | succ n ih =>
    unfold vmRun Outcome.andThen at h
    split at h
    · next u hstep => exact (Steps.tail (.refl _) hstep).trans (ih h)
    · cases h

end Aer.Machine
