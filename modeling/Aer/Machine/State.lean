import Aer.Machine.Chunk
import Aer.Memory.Collector

set_option linter.all false

/-! The virtual machine: value stack, scopes, call frames and the pending capture
list. The arrays are total and keep what was last written above their counters. -/
namespace Aer.Machine

open Aer.Data Aer.Memory

structure ScopeSlot where
  name : Nat
  val : AerVal
  /-- Set once a closure has captured the variable; `val` is stale from then on. -/
  box : Option BoxRef
  deriving DecidableEq, Inhabited

structure AerScope where
  slots : Nat → ScopeSlot
  count : Nat
  overflow : Bool
  /-- Overflowed variables, by name text; the payload is an entry of the heap. -/
  map : HashTable Nat
  overflowHasCaptures : Bool
  deriving Inhabited

structure DeferredCall where
  nameIdx : Nat
  args : List AerVal
  deriving DecidableEq, Inhabited

/-- `defers` is the stack of deferred calls, the next one to run first. The upvalue
array of a frame is the one of its function. -/
structure CallFrame where
  returnIp : Nat
  returnScopeDepth : Nat
  function : Nat
  defers : List DeferredCall
  defersDraining : Bool
  pendingReturnValue : AerVal
  deriving DecidableEq, Inhabited

structure Vm where
  ip : Nat
  stack : Nat → AerVal
  stackTop : Nat
  scopes : Nat → AerScope
  scopeDepth : Nat
  callStack : Nat → CallFrame
  callDepth : Nat
  pendingUpvalues : Nat → BoxRef
  pendingUpvalueCount : Nat

/-- The tuning constants and counters of the collector. -/
structure GcState where
  minorThreshold : Nat := 2048
  majorEveryNMinor : Nat := 10
  ceiling : Nat := 0
  minorSinceMajor : Nat := 0
  suppressDepth : Nat := 0
  minorCollections : Nat := 0
  majorCollections : Nat := 0
  deriving DecidableEq, Inhabited

/-- A call of a module function, as code outside this machine sees it. -/
structure NativeCall where
  module : Bytes
  function : Bytes
  args : List AerVal
  heap : Heap

structure State where
  vm : Vm
  chunk : Chunk
  heap : Heap
  gc : GcState
  runtimeHadError : Bool
  /-- The reported errors with their lines, newest first. -/
  errors : List (Nat × Bytes)
  output : List Bytes
  assertFailureCount : Nat
  /-- The module calls made so far, newest first. -/
  nativeCalls : List NativeCall

namespace AerScope

def empty : AerScope where
  slots := fun _ => default
  count := 0
  overflow := false
  map := .empty
  overflowHasCaptures := false

/-- The first slot that holds the name. -/
def findSlot (s : AerScope) (name : Nat) : Option Nat :=
  (List.range s.count).find? fun j => (s.slots j).name == name

def setSlot (s : AerScope) (j : Nat) (slot : ScopeSlot) : AerScope :=
  { s with slots := Function.update s.slots j slot }

/-- The address of a slot's variable: the box once it is captured. -/
def slotAddr (s : AerScope) (i j : Nat) : Addr :=
  match (s.slots j).box with
  | some b => .box b
  | none => .slot i j

end AerScope

namespace Vm

def init : Vm where
  ip := 0
  stack := fun _ => .real (.zero false)
  stackTop := 0
  scopes := fun _ => .empty
  scopeDepth := 1
  callStack := fun _ => default
  callDepth := 0
  pendingUpvalues := fun _ => default
  pendingUpvalueCount := 0

/-- The depth at which the scopes of the running call begin. -/
def scopeFloor (vm : Vm) : Nat :=
  if vm.callDepth = 0 then 0 else (vm.callStack (vm.callDepth - 1)).returnScopeDepth

/-- The scopes a name is looked up in: those of the call, innermost first, then the
global one. -/
def scopeChain (vm : Vm) : List Nat :=
  (List.range' vm.scopeFloor (vm.scopeDepth - vm.scopeFloor)).reverse ++
    if vm.scopeFloor = 0 then [] else [0]

def setScope (vm : Vm) (i : Nat) (s : AerScope) : Vm :=
  { vm with scopes := Function.update vm.scopes i s }

def setFrame (vm : Vm) (i : Nat) (f : CallFrame) : Vm :=
  { vm with callStack := Function.update vm.callStack i f }

def setStack (vm : Vm) (i : Nat) (v : AerVal) : Vm :=
  { vm with stack := Function.update vm.stack i v }

end Vm

/-- Where a name is stored: a slot of a scope, or an entry of its overflow map. -/
inductive Place
  | slot (scope idx : Nat)
  | entry (scope entry : Nat)
  deriving DecidableEq

namespace State

def init : State where
  vm := .init
  chunk := .init
  heap := .init
  gc := {}
  runtimeHadError := false
  errors := []
  output := []
  assertFailureCount := 0
  nativeCalls := []

def nameText (s : State) (name : Nat) : Bytes := s.chunk.nameText s.heap name

/-- The place of a name in one scope. -/
def placeIn (s : State) (name i : Nat) : Option Place :=
  let scope := s.vm.scopes i
  match scope.findSlot name with
  | some j => some (.slot i j)
  | none =>
      if scope.overflow then (scope.map.get (s.nameText name)).map (.entry i) else none

/-- The nearest binding of a name. -/
def locate (s : State) (name : Nat) : Option Place :=
  s.vm.scopeChain.findSome? (s.placeIn name)

def placeAddr (s : State) : Place → Addr
  | .slot i j => (s.vm.scopes i).slotAddr i j
  | .entry _ e => .box (.spilled e)

def vmScopeGet (s : State) (name : Nat) : Option Addr :=
  (s.locate name).map s.placeAddr

/-- The address of an inline global slot that no closure has captured. -/
def vmGlobalSlotAddress (s : State) (name : Nat) : Option Addr :=
  let g := s.vm.scopes 0
  ((List.range g.count).find? fun j => (g.slots j).name == name && (g.slots j).box.isNone).map
    (.slot 0)

/-- A variable's value; `none` where C would read freed memory or a slot not in use. -/
def readAddr (s : State) : Addr → Option AerVal
  | .slot i j =>
      if i < s.vm.scopeDepth ∧ j < (s.vm.scopes i).count then some ((s.vm.scopes i).slots j).val
      else none
  | .box b => s.heap.readBox b

def writeAddr (s : State) (a : Addr) (v : AerVal) : State :=
  match a with
  | .slot i j =>
      let scope := s.vm.scopes i
      { s with vm := s.vm.setScope i (scope.setSlot j { scope.slots j with val := v }) }
  | .box b => { s with heap := s.heap.writeBox b v }

/-- Create or update the name in the innermost scope. -/
def vmScopeDefine (s : State) (name : Nat) (v : AerVal) : State :=
  let i := s.vm.scopeDepth - 1
  let scope := s.vm.scopes i
  match scope.findSlot name with
  | some j => s.writeAddr (scope.slotAddr i j) v
  | none =>
      if scope.count < scopeSlotMax then
        let scope := scope.setSlot scope.count { name, val := v, box := none }
        { s with vm := s.vm.setScope i { scope with count := scope.count + 1 } }
      else
        match scope.map.get (s.nameText name) with
        | some e =>
            ({ s with vm := s.vm.setScope i { scope with overflow := true } } : State).writeAddr
              (.box (.spilled e)) v
        | none =>
            let (e, heap) := s.heap.newEntry v
            let scope :=
              { scope with overflow := true, map := scope.map.put (s.nameText name) e }
            { s with heap, vm := s.vm.setScope i scope }

/-- Box the nearest binding of a name, or reuse the box it has. -/
def vmBoxSlot (s : State) (name : Nat) : Option (BoxRef × State) :=
  match s.locate name with
  | none => none
  | some (.entry i e) =>
      let scope := { s.vm.scopes i with overflowHasCaptures := true }
      some (.spilled e, { s with vm := s.vm.setScope i scope })
  | some (.slot i j) =>
      let scope := s.vm.scopes i
      match (scope.slots j).box with
      | some b => some (b, s)
      | none =>
          let (b, heap) := s.heap.newBox (scope.slots j).val
          let scope := scope.setSlot j { scope.slots j with box := some b }
          some (b, { s with heap, vm := s.vm.setScope i scope })

/-- Free the overflow map of a popped scope, unless a closure holds one of its cells. -/
def freeScope (s : State) (i : Nat) : State :=
  let scope := s.vm.scopes i
  if scope.overflow && !scope.overflowHasCaptures then
    { s with
      heap := s.heap.freeEntries scope.map.values
      vm := s.vm.setScope i { scope with map := .empty } }
  else s

def popOneScope (s : State) : State :=
  freeScope { s with vm := { s.vm with scopeDepth := s.vm.scopeDepth - 1 } } (s.vm.scopeDepth - 1)

/-- Pop `n` scopes, innermost first. -/
def popScopes : Nat → State → State
  | 0, s => s
  | n + 1, s => popScopes n s.popOneScope

/-- Pop the scopes above a depth. -/
def unwindScopes (s : State) (base : Nat) : State :=
  popScopes (s.vm.scopeDepth - base) s

def addError (s : State) (msg : Bytes) : State :=
  { s with
    runtimeHadError := true
    errors := (s.chunk.lineForOffset s.vm.ip, msg) :: s.errors }

/-! Roots of a collection, in the order the collector pushes them. -/

def slotRoot (s : State) (slot : ScopeSlot) : Option AerVal :=
  match slot.box with
  | some b => s.heap.readBox b
  | none => some slot.val

def scopeRoots (s : State) (scope : AerScope) : List AerVal :=
  (List.range scope.count).filterMap (fun j => s.slotRoot (scope.slots j)) ++
    if scope.overflow then scope.map.values.filterMap s.heap.entries else []

def frameRoots (f : CallFrame) : List Root :=
  .function f.function ::
    (f.defers.reverse.flatMap fun d => d.args.map .value) ++
    if f.defersDraining then [.value f.pendingReturnValue] else []

def vmRoots (s : State) : List Root :=
  ((List.range s.vm.stackTop).map fun i => .value (s.vm.stack i)) ++
    ((List.range s.vm.pendingUpvalueCount).filterMap fun i =>
      (s.heap.readBox (s.vm.pendingUpvalues i)).map .value) ++
    ((List.range s.vm.scopeDepth).flatMap fun i =>
      (s.scopeRoots (s.vm.scopes i)).map .value) ++
    (List.range s.vm.callDepth).flatMap fun i => frameRoots (s.vm.callStack i)

def shapeRoots (s : State) (id : Nat) : List Root :=
  match s.heap.shapes[id]? with
  | some shape => shape.fields.map fun f => .value f.2
  | none => []

def chunkRoots (s : State) : List Root :=
  s.chunk.pool.map .value ++ s.chunk.shapes.flatMap s.shapeRoots

def roots (s : State) : List Root := s.vmRoots ++ s.chunkRoots

end State

/-! What popping scopes and reporting errors leave alone. -/

theorem freeScope_vm (s : State) (i : Nat) : (s.freeScope i).vm.scopeDepth = s.vm.scopeDepth ∧
    (s.freeScope i).vm.callDepth = s.vm.callDepth ∧
    (s.freeScope i).vm.callStack = s.vm.callStack ∧
    (s.freeScope i).vm.pendingUpvalueCount = s.vm.pendingUpvalueCount := by
  unfold State.freeScope
  simp only []
  split <;> exact ⟨rfl, rfl, rfl, rfl⟩

theorem popScopes_vm (n : Nat) (s : State) :
    (State.popScopes n s).vm.scopeDepth = s.vm.scopeDepth - n ∧
    (State.popScopes n s).vm.callDepth = s.vm.callDepth ∧
    (State.popScopes n s).vm.callStack = s.vm.callStack ∧
    (State.popScopes n s).vm.pendingUpvalueCount = s.vm.pendingUpvalueCount := by
  induction n generalizing s with
  | zero => exact ⟨rfl, rfl, rfl, rfl⟩
  | succ n ih =>
    obtain ⟨hdepth, hcall, hstack, hpending⟩ := ih s.popOneScope
    obtain ⟨hdepth', hcall', hstack', hpending'⟩ := freeScope_vm
      { s with vm := { s.vm with scopeDepth := s.vm.scopeDepth - 1 } } (s.vm.scopeDepth - 1)
    refine ⟨?_, hcall.trans hcall', hstack.trans hstack', hpending.trans hpending'⟩
    rw [State.popScopes, hdepth, State.popOneScope, hdepth']
    change s.vm.scopeDepth - 1 - n = s.vm.scopeDepth - (n + 1)
    omega

theorem unwindScopes_depth (s : State) (base : Nat) :
    (s.unwindScopes base).vm.scopeDepth = min s.vm.scopeDepth base := by
  rw [State.unwindScopes, (popScopes_vm _ s).1]
  omega

theorem popScopes_stackTop (n : Nat) (s : State) :
    (State.popScopes n s).vm.stackTop = s.vm.stackTop := by
  induction n generalizing s with
  | zero => rfl
  | succ n ih =>
    refine (ih _).trans ?_
    unfold State.popOneScope State.freeScope
    dsimp only
    split <;> rfl

theorem addErrors_vm (s : State) (msgs : List Bytes) : (msgs.foldl State.addError s).vm = s.vm := by
  induction msgs generalizing s with
  | nil => rfl
  | cons msg msgs ih => exact (ih (s.addError msg)).trans rfl

end Aer.Machine
