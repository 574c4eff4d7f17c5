import Aer.Lib.Interaction
import Aer.Machine.Format

set_option linter.all false

/-! The operations the instruction handlers are made of, and their meaning. An
operation faults where the C code would read or write outside its data. -/
namespace Aer.Machine

open Aer.Data Aer.Memory Aer.Lib.Interaction

inductive Op
  | read | readIdx | getIp | setIp (n : Nat)
  | push (v : AerVal) | pop | peek (n : Nat) | poke (n : Nat) (v : AerVal) | drop (n : Nat)
  | argAt (n : Nat) | slide (n : Nat) | hasRoom (n : Nat)
  | constant (i : Nat) | nameText (i : Nat)
  | resolve (name cache : Nat) | scopeGet (name : Nat) | scopeDefine (name : Nat) (v : AerVal)
  | readLocal (slot : Nat) | writeLocal (slot : Nat) (v : AerVal)
  | defineLocal (slot name : Nat) (v : AerVal)
  | load (a : Addr) | store (a : Addr) (v : AerVal)
  | boxSlot (name : Nat)
  | pushScope | popScope | unwindScopes
  | callDepth | pushFrame (function returnIp : Nat)
  | frameDefers | frameDraining
  | setDefers (ds : List DeferredCall) | setFrameFunction (cell : Nat)
  | stashReturn (v : AerVal) | takeReturn | popFrame
  | pendingCount | pendUpvalue (b : BoxRef) | takeUpvalues (n : Nat)
  | upvalue (slot : Nat) | storeUpvalue (b : BoxRef) (v : AerVal)
  | asInt (v : AerVal) | string (c : Nat) | array (c : Nat) | dict (c : Nat) | function (c : Nat)
  | newInt (n : Int) | newString (b : Bytes) | newArray (a : AerArray)
  | newDict (d : HashTable AerVal) | newFunction (f : AerFunction)
  | appendItem (c : Nat) (v : AerVal) | setItem (c i : Nat) (v : AerVal) | deleteItem (c i : Nat)
  | setEntry (c : Nat) (key : Bytes) (v : AerVal) | deleteEntry (c : Nat) (key : Bytes)
  | shape (id : Nat) | findShape (name : Bytes) | defineShape (s : Shape)
  | format (v : AerVal) | typeName (v : AerVal)
  | error (msg : Bytes) | hadError | print (b : Bytes) | countAssertFailure
  | callNative (module fn : Bytes) (argCount : Nat)
  | fail | halt | fault

@[reducible] def Op.Ans : Op → Type
  | read => Int
  | readIdx | getIp | callDepth | pendingCount | popFrame => Nat
  | pop | peek _ | argAt _ | constant _ | readLocal _ | load _ | takeReturn => AerVal
  | nameText _ | string _ | format _ | typeName _ => Bytes
  | resolve _ _ | scopeGet _ => Option Addr
  | boxSlot _ => Option BoxRef
  | frameDefers => List DeferredCall
  | takeUpvalues _ => List BoxRef
  | upvalue _ => BoxRef
  | asInt _ => Int
  | array _ => AerArray
  | dict _ => HashTable AerVal
  | function _ => AerFunction
  | newInt _ | newString _ | newArray _ | newDict _ | newFunction _ => AerVal
  | shape _ => Shape
  | findShape _ => Option Nat
  | frameDraining | hadError | hasRoom _ | callNative _ _ _ => Bool
  | _ => Unit

/-- Why a run of the machine stops: `OP_HALT`, a `return false`, or undefined behaviour. -/
inductive Stop
  | halted
  | failed
  | fault
  deriving DecidableEq

/-- What a module function does, by the calls made before it. -/
structure NativeResult where
  value : AerVal
  heap : Heap
  errors : List Bytes := []
  output : List Bytes := []

structure Config where
  /-- Whether the inline address caches are used. -/
  caching : Bool := true
  native : List NativeCall → NativeCall → Option NativeResult := fun _ _ => none

abbrev Result (α : Type) := Outcome State Stop α

abbrev done {α : Type} (a : α) (s : State) : Result α := .done a s

/-- Continue with a value, or fault where there is none. -/
def orFault {α : Type} (o : Option α) (s : State) : Result α :=
  match o with
  | some a => .done a s
  | none => .stop .fault s

theorem orFault_state {α : Type} (o : Option α) (s : State) : (orFault o s).state = s := by
  cases o <;> rfl

namespace State

def push (s : State) (v : AerVal) : Result Unit :=
  if s.vm.stackTop < vmStackMax then
    .done () { s with vm := { s.vm.setStack s.vm.stackTop v with stackTop := s.vm.stackTop + 1 } }
  else .stop .failed (s.addError (bytes "Stack overflow"))

def pop (s : State) : Result AerVal :=
  if s.vm.stackTop = 0 then .done .null (s.addError (bytes "Stack underflow"))
  else
    .done (s.vm.stack (s.vm.stackTop - 1)) { s with vm := { s.vm with stackTop := s.vm.stackTop - 1 } }

/-- Move the top `n` values one slot down, over the value below them. -/
def slide (s : State) (n : Nat) : State :=
  let base := s.vm.stackTop - n - 1
  { s with vm :=
    { s.vm with
      stack := fun i =>
        if base ≤ i ∧ i < s.vm.stackTop - 1 then s.vm.stack (i + 1) else s.vm.stack i
      stackTop := s.vm.stackTop - 1 } }

/-- The address behind a cached site: the cache slot if it is filled, else the nearest
binding, which is cached when it is an uncaptured inline slot of the global scope. -/
def resolve (caching : Bool) (s : State) (name cache : Nat) : Result (Option Addr) :=
  if cache < s.chunk.addrCache.length then
    match (if caching then s.chunk.addrCache.getD cache none else none) with
    | some a => .done (some a) s
    | none =>
        let found := s.vmScopeGet name
        let cacheable := s.vmGlobalSlotAddress name
        if caching && cacheable.isSome && cacheable == found then
          let addrCache := s.chunk.addrCache.set cache cacheable
          .done found { s with chunk := { s.chunk with addrCache } }
        else .done found s
  else .stop .fault s

/-- Whether an address is that of storage in use. -/
def isStored (s : State) (a : Addr) : Bool := (s.readAddr a).isSome

def store (s : State) (a : Addr) (v : AerVal) : Result Unit :=
  if s.isStored a then .done () (s.writeAddr a v) else .stop .fault s

/-- A local slot of the running call, once it has been defined. -/
def localSlot (s : State) (slot : Nat) : Option Addr :=
  let i := s.vm.scopeFloor
  if i < s.vm.scopeDepth ∧ slot < (s.vm.scopes i).count then some ((s.vm.scopes i).slotAddr i slot)
  else none

/-- Define a local slot; the parser hands slots out without gaps. -/
def defineLocal (s : State) (slot name : Nat) (v : AerVal) : Result Unit :=
  let i := s.vm.scopeDepth - 1
  let scope := s.vm.scopes i
  if slot ≤ scope.count ∧ slot < scopeSlotMax then
    let scope := scope.setSlot slot { name, val := v, box := none }
    .done () { s with vm := s.vm.setScope i { scope with count := max scope.count (slot + 1) } }
  else .stop .fault s

def pushScope (s : State) : Result Unit :=
  if s.vm.scopeDepth < vmScopeMax then
    let i := s.vm.scopeDepth
    let scope :=
      { s.vm.scopes i with count := 0, overflow := false, map := .empty, overflowHasCaptures := false }
    .done () { s with vm := { s.vm.setScope i scope with scopeDepth := i + 1 } }
  else .stop .failed (s.addError (bytes "Scope stack overflow"))

def popScope (s : State) : Result Unit :=
  if s.vm.scopeDepth ≤ 1 then .stop .failed (s.addError (bytes "Scope stack underflow"))
  else .done () s.popOneScope

def pushFrame (s : State) (function returnIp : Nat) : Result Unit :=
  let i := s.vm.callDepth
  if i < vmCallMax then
    -- The pending return value is left as it was.
    let frame :=
      { s.vm.callStack i with
        returnIp, returnScopeDepth := s.vm.scopeDepth, function, defers := [], defersDraining := false }
    .done () { s with vm := { s.vm.setFrame i frame with callDepth := i + 1 } }
  else .stop .fault s

def topFrame (s : State) : Option CallFrame :=
  if s.vm.callDepth = 0 then none else some (s.vm.callStack (s.vm.callDepth - 1))

/-- Change the frame of the running call. -/
def updateFrame (s : State) (f : CallFrame → CallFrame) : Result Unit :=
  match s.topFrame with
  | some frame => .done () { s with vm := s.vm.setFrame (s.vm.callDepth - 1) (f frame) }
  | none => .stop .fault s

/-- The value a draining frame returns; its deferred calls are done. -/
def takeReturn (s : State) : Result AerVal :=
  match s.topFrame with
  | some frame =>
      if frame.defersDraining then
        .done frame.pendingReturnValue
          { s with vm := s.vm.setFrame (s.vm.callDepth - 1) { frame with defersDraining := false } }
      else .stop .fault s
  | none => .stop .fault s

def popFrame (s : State) : Result Nat :=
  match s.topFrame with
  | none => .stop .fault s
  | some f => .done f.returnIp { s with vm := { s.vm with callDepth := s.vm.callDepth - 1 } }

def pendUpvalue (s : State) (b : BoxRef) : Result Unit :=
  let i := s.vm.pendingUpvalueCount
  if i < maxCaptures then
    .done () { s with vm :=
      { s.vm with
        pendingUpvalues := Function.update s.vm.pendingUpvalues i b
        pendingUpvalueCount := i + 1 } }
  else .stop .fault s

/-- Copy the first `n` pending boxes and empty the list. -/
def takeUpvalues (s : State) (n : Nat) : Result (List BoxRef) :=
  if n ≤ s.vm.pendingUpvalueCount then
    .done ((List.range n).map s.vm.pendingUpvalues)
      { s with vm := { s.vm with pendingUpvalueCount := 0 } }
  else .stop .fault s

def upvalue (s : State) (slot : Nat) : Option BoxRef := do
  let f ← s.topFrame
  let fn ← s.functionData f.function
  fn.upvalues[slot]?

/-- Give a heap and a value of it. -/
def gain {α : Type} (s : State) (r : α × Heap) : Result α :=
  .done r.1 { s with heap := r.2 }

def withHeap (s : State) (h : Heap) : Result Unit := .done () { s with heap := h }

/-- The top `n` values, the deepest first. -/
def topArgs (s : State) (n : Nat) : List AerVal :=
  (List.range n).map fun i => s.vm.stack (s.vm.stackTop - n + i)

/-- A call that code outside the machine answers: the arguments are replaced by the
result, or nothing happens when the function is unknown. -/
def callNative (native : List NativeCall → NativeCall → Option NativeResult)
    (s : State) (module fn : Bytes) (argCount : Nat) : Result Bool :=
  if argCount ≤ s.vm.stackTop ∧ s.vm.stackTop - argCount < vmStackMax then
    let call : NativeCall := ⟨module, fn, s.topArgs argCount, s.heap⟩
    match native s.nativeCalls call with
    | none => .done false s
    | some r =>
        let base := s.vm.stackTop - argCount
        let s := { s with
          vm := { s.vm.setStack base r.value with stackTop := base + 1 }
          heap := r.heap
          output := r.output.reverse ++ s.output
          nativeCalls := call :: s.nativeCalls }
        .done true (r.errors.foldl addError s)
  else .stop .fault s

end State

def exec (cfg : Config) : Exec Op Op.Ans State Stop
  | .read, s =>
      match s.chunk.code[s.vm.ip]? with
      | some w => .done w { s with vm := { s.vm with ip := s.vm.ip + 1 } }
      | none => .stop .fault s
  | .readIdx, s =>
      match s.chunk.code[s.vm.ip]? with
      | some (.ofNat n) => .done n { s with vm := { s.vm with ip := s.vm.ip + 1 } }
      | _ => .stop .fault s
  | .getIp, s => .done s.vm.ip s
  | .setIp n, s => .done () { s with vm := { s.vm with ip := n } }
  | .push v, s => s.push v
  | .pop, s => s.pop
  | .peek n, s =>
      if n < s.vm.stackTop then .done (s.vm.stack (s.vm.stackTop - 1 - n)) s else .stop .fault s
  | .poke n v, s =>
      if n < s.vm.stackTop then .done () { s with vm := s.vm.setStack (s.vm.stackTop - 1 - n) v }
      else .stop .fault s
  | .drop n, s =>
      if n ≤ s.vm.stackTop then .done () { s with vm := { s.vm with stackTop := s.vm.stackTop - n } }
      else .stop .fault s
  | .argAt n, s =>
      -- With no argument this is the dead slot above the stack.
      if n ≤ s.vm.stackTop ∧ s.vm.stackTop - n < vmStackMax then
        .done (s.vm.stack (s.vm.stackTop - n)) s
      else .stop .fault s
  | .slide n, s => if n < s.vm.stackTop then .done () (s.slide n) else .stop .fault s
  | .hasRoom n, s => .done (s.vm.stackTop + n ≤ vmStackMax) s
  | .constant i, s => orFault s.chunk.pool[i]? s
  | .nameText i, s =>
      match s.chunk.pool[i]? with
      | some (.string c) => orFault ((s.stringData c).map cString) s
      | _ => .stop .fault s
  | .resolve name cache, s => s.resolve cfg.caching name cache
  | .scopeGet name, s => .done (s.vmScopeGet name) s
  | .scopeDefine name v, s =>
      if (s.placeIn name (s.vm.scopeDepth - 1)).all fun p => s.isStored (s.placeAddr p) then
        .done () (s.vmScopeDefine name v)
      else .stop .fault s
  | .readLocal slot, s => orFault ((s.localSlot slot).bind s.readAddr) s
  | .writeLocal slot v, s =>
      match s.localSlot slot with
      | some a => s.store a v
      | none => .stop .fault s
  | .defineLocal slot name v, s => s.defineLocal slot name v
  | .load a, s => orFault (s.readAddr a) s
  | .store a v, s => s.store a v
  | .boxSlot name, s =>
      match s.vmBoxSlot name with
      | some (b, s) => .done (some b) s
      | none => .done none (s.addError (bytes "'" ++ s.nameText name ++ bytes "' is not defined"))
  | .pushScope, s => s.pushScope
  | .popScope, s => s.popScope
  | .unwindScopes, s =>
      if s.vm.callDepth = 0 then .stop .fault s
      else .done () (s.unwindScopes s.vm.scopeFloor)
  | .callDepth, s => .done s.vm.callDepth s
  | .pushFrame f ip, s => s.pushFrame f ip
  | .frameDefers, s => orFault (s.topFrame.map CallFrame.defers) s
  | .frameDraining, s => orFault (s.topFrame.map CallFrame.defersDraining) s
  | .setDefers ds, s => s.updateFrame fun f => { f with defers := ds }
  | .setFrameFunction cell, s => s.updateFrame fun f => { f with function := cell }
  | .stashReturn v, s =>
      s.updateFrame fun f => { f with pendingReturnValue := v, defersDraining := true }
  | .takeReturn, s => s.takeReturn
  | .popFrame, s => s.popFrame
  | .pendingCount, s => .done s.vm.pendingUpvalueCount s
  | .pendUpvalue b, s => s.pendUpvalue b
  | .takeUpvalues n, s => s.takeUpvalues n
  | .upvalue slot, s => orFault (s.upvalue slot) s
  | .storeUpvalue b v, s =>
      State.store { s with heap := s.heap.gcBarrierBox b v } (.box b) v
  | .asInt v, s => orFault (s.asInt v) s
  | .string c, s => orFault (s.stringData c) s
  | .array c, s => orFault (s.arrayData c) s
  | .dict c, s => orFault (s.dictData c) s
  | .function c, s => orFault (s.functionData c) s
  | .newInt n, s => s.gain (s.heap.aerInt n)
  | .newString b, s => s.gain (s.heap.aerMakeString b)
  | .newArray a, s => s.gain (s.heap.newArray a)
  | .newDict d, s => s.gain (s.heap.newDict d)
  | .newFunction f, s => s.gain (s.heap.newFunction f)
  | .appendItem c v, s => s.withHeap (s.heap.appendItem c v)
  | .setItem c i v, s => s.withHeap (s.heap.setItem c i v)
  | .deleteItem c i, s => s.withHeap (s.heap.deleteItem c i)
  | .setEntry c key v, s => s.withHeap (s.heap.setEntry c key v)
  | .deleteEntry c key, s => s.withHeap (s.heap.deleteEntry c key)
  | .shape id, s => orFault s.heap.shapes[id]? s
  | .findShape name, s => .done (s.chunk.findShape s.heap name) s
  | .defineShape shape, s =>
      .done () { s with
        heap := { s.heap with shapes := s.heap.shapes ++ [shape] }
        chunk := { s.chunk with shapes := s.chunk.shapes ++ [s.heap.shapes.length] } }
  | .format v, s => orFault (s.format v) s
  | .typeName v, s => orFault (s.vmTypeName v) s
  | .error msg, s => .done () (s.addError msg)
  | .hadError, s => .done s.runtimeHadError s
  | .print b, s => .done () { s with output := b :: s.output }
  | .countAssertFailure, s =>
      .done () { s with assertFailureCount := s.assertFailureCount + 1 }
  | .callNative module fn argCount, s => s.callNative cfg.native module fn argCount
  | .fail, s => .stop .failed s
  | .halt, s => .stop .halted s
  | .fault, s => .stop .fault s

/-- A program of the machine: the body of an instruction, or a part of it. -/
abbrev Handler := Prog Op Op.Ans

def perform (o : Op) : Handler o.Ans := Prog.perform o

end Aer.Machine
