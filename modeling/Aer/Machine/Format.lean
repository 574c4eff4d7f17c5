import Aer.Machine.State

set_option linter.all false

/-! The text of a value, as printing and string conversion show it. -/
namespace Aer.Machine

open Aer.Data Aer.Memory

def quoted (b : Bytes) : Bytes := byte '"' :: b ++ [byte '"']

def commaSep (parts : List Bytes) : Bytes := (parts.intersperse (bytes ", ")).flatten

namespace State

/-- The value of an integer; `none` for a cell not in use. -/
def asInt (s : State) : AerVal → Option Int
  | .integer n => some n.val
  | .long c => if s.heap.longs.Live c then some (s.heap.longs.data c) else none
  | _ => none

def stringData (s : State) (c : Nat) : Option Bytes :=
  if s.heap.strings.Live c then some (s.heap.strings.data c) else none

def arrayData (s : State) (c : Nat) : Option AerArray :=
  if s.heap.arrays.Live c then some (s.heap.arrays.data c) else none

def dictData (s : State) (c : Nat) : Option (HashTable AerVal) :=
  if s.heap.dicts.Live c then some (s.heap.dicts.data c) else none

def functionData (s : State) (c : Nat) : Option AerFunction :=
  if s.heap.functions.Live c then some (s.heap.functions.data c) else none

/-- The recursive rendering, `depth` containers deep; `none` past it, and where C
would read freed memory. -/
def formatDepth (s : State) : Nat → Bool → AerVal → Option Bytes
  | _, _, .null => some (bytes "null")
  | _, _, .integer n => some (intText n.val)
  | _, _, .long c => (s.asInt (.long c)).map intText
  | _, _, .real d => some d.formatG
  | _, _, .boolean b => some (if b then bytes "true" else bytes "false")
  | _, _, .function _ => some (bytes "<function>")
  | _, inCollection, .string c =>
      (s.stringData c).map fun b => if inCollection then quoted b else b
  | 0, _, .array _ => none
  | 0, _, .dict _ => none
  | depth + 1, _, .array c => do
      let a ← s.arrayData c
      match a.shape with
      | none =>
          let items ← a.items.mapM (s.formatDepth depth true)
          return byte '[' :: commaSep items ++ [byte ']']
      | some id =>
          let shape ← s.heap.shapes[id]?
          let items ← (a.items.take shape.fields.length).mapM (s.formatDepth depth true)
          let fields := shape.fields.zipWith (fun f v => s.nameText f.1 ++ bytes ": " ++ v) items
          return s.nameText shape.name ++ byte '{' :: commaSep fields ++ [byte '}']
  | depth + 1, _, .dict c => do
      let d ← s.dictData c
      let items ← d.entries.mapM fun e => do
        let v ← s.formatDepth depth true e.2
        return quoted e.1 ++ bytes ": " ++ v
      return byte '{' :: commaSep items ++ [byte '}']

/-- A nesting deeper than the containers there are is a cycle, on which the
recursion of the code does not end. -/
def format (s : State) (v : AerVal) : Option Bytes :=
  s.formatDepth (s.heap.arrays.carved + s.heap.dicts.carved) false v

def vmTypeName (s : State) (v : AerVal) : Option Bytes :=
  match v with
  | .array c => do
      let a ← s.arrayData c
      match a.shape with
      | none => return typeNames .array
      | some id =>
          let shape ← s.heap.shapes[id]?
          return s.nameText shape.name
  | _ => some (typeNames v.type)

end State

end Aer.Machine
