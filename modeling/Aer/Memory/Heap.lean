import Aer.Data.Value
import Aer.Data.HashTable
import Aer.Memory.Pool

set_option linter.all false

/-! The shared heap: six cell pools, the separately allocated cells of overflowed
variables, the struct shapes, and the remembered set of the write barriers. -/
namespace Aer.Memory

open Aer.Data

/-- An entry of the remembered set. -/
inductive Remembered
  | array (cell : Nat)
  | dict (cell : Nat)
  | box (b : BoxRef)
  deriving DecidableEq, Inhabited

structure Heap where
  strings : Pool Bytes
  arrays : Pool AerArray
  dicts : Pool (HashTable AerVal)
  functions : Pool AerFunction
  boxes : Pool AerVal
  longs : Pool Int
  /-- The cells of overflowed variables; `none` before and after their life. -/
  entries : Nat → Option AerVal
  entryCount : Nat
  remembered : List Remembered
  shapes : List Shape
  allocCount : Nat

namespace Heap

def init : Heap where
  strings := .init 256
  arrays := .init 256
  dicts := .init 64
  functions := .init 64
  boxes := .init 64
  longs := .init 64
  entries := fun _ => none
  entryCount := 0
  remembered := []
  shapes := []
  allocCount := 0

/-- The cells of all pools that are in use. -/
def liveCells (h : Heap) : Nat :=
  h.strings.liveCount + h.arrays.liveCount + h.dicts.liveCount + h.functions.liveCount +
    h.boxes.liveCount + h.longs.liveCount

def countAlloc (h : Heap) : Heap :=
  { h with allocCount := (h.allocCount + 1) % 2 ^ 32 }

def aerMakeString (h : Heap) (b : Bytes) : AerVal × Heap :=
  let (c, strings) := h.strings.alloc b
  (.string c, { h.countAlloc with strings })

def newArray (h : Heap) (a : AerArray) : AerVal × Heap :=
  let (c, arrays) := h.arrays.alloc a
  (.array c, { h.countAlloc with arrays })

def newDict (h : Heap) (d : HashTable AerVal) : AerVal × Heap :=
  let (c, dicts) := h.dicts.alloc d
  (.dict c, { h.countAlloc with dicts })

def newFunction (h : Heap) (f : AerFunction) : AerVal × Heap :=
  let (c, functions) := h.functions.alloc f
  (.function c, { h.countAlloc with functions })

def newBox (h : Heap) (v : AerVal) : BoxRef × Heap :=
  let (c, boxes) := h.boxes.alloc v
  (.pooled c, { h.countAlloc with boxes })

def newLong (h : Heap) (n : Int) : AerVal × Heap :=
  let (c, longs) := h.longs.alloc n
  (.long c, { h.countAlloc with longs })

/-- The factory of integers: inline when it fits, else a cell of its own. -/
def aerInt (h : Heap) (n : Int) : AerVal × Heap :=
  if hn : IsInt47 n then (.integer ⟨n, hn⟩, h) else h.newLong n

def newEntry (h : Heap) (v : AerVal) : Nat × Heap :=
  (h.entryCount,
    { h with entries := Function.update h.entries h.entryCount (some v)
             entryCount := h.entryCount + 1 })

def freeEntries (h : Heap) (es : List Nat) : Heap :=
  { h with entries := fun e => if e ∈ es then none else h.entries e }

def readBox (h : Heap) : BoxRef → Option AerVal
  | .pooled c => if h.boxes.Live c then some (h.boxes.data c) else none
  | .spilled e => h.entries e

def writeBox (h : Heap) (b : BoxRef) (v : AerVal) : Heap :=
  match b with
  | .pooled c => { h with boxes := h.boxes.setData c v }
  | .spilled e => { h with entries := Function.update h.entries e (some v) }

def setArray (h : Heap) (c : Nat) (a : AerArray) : Heap :=
  { h with arrays := h.arrays.setData c a }

def setDict (h : Heap) (c : Nat) (d : HashTable AerVal) : Heap :=
  { h with dicts := h.dicts.setData c d }

/-! Write barriers. -/

def valueIsYoung (h : Heap) : AerVal → Bool
  | .string c => h.strings.isYoung c
  | .array c => h.arrays.isYoung c
  | .dict c => h.dicts.isYoung c
  | .function c => h.functions.isYoung c
  | .long c => h.longs.isYoung c
  | .null | .boolean _ | .integer _ | .real _ => false

/-- Pooled containers are deduplicated by their bit, spilled boxes by a scan. -/
def gcRemember (h : Heap) (r : Remembered) : Heap :=
  match r with
  | .array c =>
      if h.arrays.isRemembered c then h
      else { h with arrays := h.arrays.markRemembered c, remembered := h.remembered ++ [r] }
  | .dict c =>
      if h.dicts.isRemembered c then h
      else { h with dicts := h.dicts.markRemembered c, remembered := h.remembered ++ [r] }
  | .box (.pooled c) =>
      if h.boxes.isRemembered c then h
      else { h with boxes := h.boxes.markRemembered c, remembered := h.remembered ++ [r] }
  | .box (.spilled _) =>
      if r ∈ h.remembered then h else { h with remembered := h.remembered ++ [r] }

def gcBarrierArray (h : Heap) (c : Nat) (v : AerVal) : Heap :=
  if h.arrays.isYoung c then h
  else if !h.valueIsYoung v then h
  else h.gcRemember (.array c)

def gcBarrierDict (h : Heap) (c : Nat) (v : AerVal) : Heap :=
  if h.dicts.isYoung c then h
  else if !h.valueIsYoung v then h
  else h.gcRemember (.dict c)

/-- The box barrier has no age gate: a spilled box belongs to no pool. -/
def gcBarrierBox (h : Heap) (b : BoxRef) (v : AerVal) : Heap :=
  if !h.valueIsYoung v then h else h.gcRemember (.box b)

/-! Container operations of the instructions and built-ins. -/

/-- `append`, with the capacity doubled when the array is full. -/
def appendItem (h : Heap) (c : Nat) (v : AerVal) : Heap :=
  let a := h.arrays.data c
  let capacity :=
    if a.capacity ≤ a.items.length then (if a.capacity = 0 then 4 else a.capacity * 2)
    else a.capacity
  (h.gcBarrierArray c v).setArray c { a with items := a.items ++ [v], capacity }

/-- The store of an indexed or field assignment, after its checks. -/
def setItem (h : Heap) (c i : Nat) (v : AerVal) : Heap :=
  let a := h.arrays.data c
  (h.gcBarrierArray c v).setArray c { a with items := a.items.set i v }

def deleteItem (h : Heap) (c i : Nat) : Heap :=
  let a := h.arrays.data c
  h.setArray c { a with items := a.items.eraseIdx i }

/-- A dict assignment: in place when the key is present, else a new entry. -/
def setEntry (h : Heap) (c : Nat) (key : Bytes) (v : AerVal) : Heap :=
  let d := h.dicts.data c
  let h := h.gcBarrierDict c v
  match d.get key with
  | some _ => h.setDict c (d.insert (cString key) v)
  | none => h.setDict c (d.put key v)

def deleteEntry (h : Heap) (c : Nat) (key : Bytes) : Heap :=
  h.setDict c ((h.dicts.data c).remove key)

end Heap

end Aer.Memory
