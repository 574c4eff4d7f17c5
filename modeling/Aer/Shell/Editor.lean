import Aer.Data.Bytes
import Mathlib.Logic.Function.Basic

set_option linter.all false

/-! The line editor of the shell: one buffer that is edited in place, and the history in a
ring of bytes behind it. What is drawn on the screen is left out. -/
namespace Aer.Shell

open Aer.Data

def commandSize : Nat := 1024

def newLine : UInt8 := 10
def endOfText : UInt8 := 3
def endOfTrans : UInt8 := 4
def backspace : UInt8 := 127

/-- What `read_key` answers. -/
inductive Key
  | arrowUp
  | arrowDown
  | arrowRight
  | arrowLeft
  | home
  | endKey
  | delete
  | byte (c : UInt8)
  | eof
  deriving DecidableEq

structure Terminal where
  buffer : Nat → UInt8
  bufferLength : Nat
  position : Int
  length : Int
  /-- Indexed below `commandSize`. -/
  historyBuffer : Nat → UInt8
  historyPosition : Nat
  historyLength : Nat
  /-- The contents of the history file. -/
  history : Bytes

/-- What a key does: read on, hand the line over, or end the program. -/
inductive Outcome
  | again (s : Terminal)
  | line (s : Terminal)
  | exit

/-- `iscntrl` of the C locale. -/
def isCntrl (c : UInt8) : Bool := c < 32 || c == 127

def memmove (b : Nat → UInt8) (dst src n : Nat) : Nat → UInt8 := fun i =>
  if dst ≤ i ∧ i < dst + n then b (src + (i - dst)) else b i

/-- Bytes put into the ring, one position after the other. -/
def writeRing (ring : Nat → UInt8) (p : Nat) : Bytes → Nat → UInt8
  | [] => ring
  | b :: bs => writeRing (Function.update ring (p % commandSize) b) (p + 1) bs

namespace Terminal

def ring (s : Terminal) (p : Nat) : UInt8 := s.historyBuffer (p % commandSize)

def start (file : Bytes) : Terminal :=
  let readSize := min file.length commandSize
  let logicalStart := file.length - readSize
  { buffer := fun _ => 0
    bufferLength := 1024
    position := 0
    length := 0
    historyBuffer := writeRing (fun _ => 0) logicalStart (file.drop logicalStart)
    historyPosition := file.length
    historyLength := file.length
    history := file }

/-- `memset` of the text and the byte behind it. -/
def clear (s : Terminal) : Terminal :=
  { s with
    buffer := fun i => if i < (s.length + 1).toNat then 0 else s.buffer i
    position := 0
    length := 0 }

/-- The loop of UP: back to a newline, or to the start of the history. -/
def seekBack (s : Terminal) : Nat → Nat
  | 0 => 0
  | p + 1 => if s.ring (p + 1) ≠ newLine then seekBack s p else p + 1

/-- The loops of DOWN: on to a newline, or to the end of the history `n` bytes on. -/
def seekOn (s : Terminal) : Nat → Nat → Nat
  | 0, p => p
  | n + 1, p => if s.ring p ≠ newLine then seekOn s n (p + 1) else p

/-- The bytes of the history from a position on. -/
def entry (s : Terminal) (entryStart entryLen : Nat) : Bytes :=
  (List.range entryLen).map fun i => s.ring (entryStart + i)

/-- The text becomes an entry of the history. -/
def recallEntry (s : Terminal) (entryStart entryLen : Nat) : Terminal :=
  let s := s.clear
  { s with
    buffer := fun i => if i < entryLen then s.ring (entryStart + i) else s.buffer i
    position := entryLen
    length := entryLen
    historyPosition := entryStart }

/-- Start and length of the entry UP goes to. -/
def above (s : Terminal) : Nat × Nat :=
  let start := s.historyPosition - 2
  let pos := s.seekBack start
  let entryStart := if s.ring pos = newLine then pos + 1 else pos
  (entryStart, start + 1 - entryStart)

/-- Start and length of the entry DOWN goes to. -/
def below (s : Terminal) : Nat × Nat :=
  let entryStart := s.seekOn (s.historyLength - s.historyPosition) s.historyPosition + 1
  let pos := s.seekOn (s.historyLength - entryStart) entryStart
  (entryStart, pos - entryStart)

def up (s : Terminal) : Terminal :=
  if s.historyPosition < 2 then s else s.recallEntry s.above.1 s.above.2

def down (s : Terminal) : Terminal :=
  if s.historyLength ≤ s.historyPosition then s else s.recallEntry s.below.1 s.below.2

def right (s : Terminal) : Terminal := { s with position := min (s.position + 1) s.length }

def left (s : Terminal) : Terminal := { s with position := max (s.position - 1) 0 }

def deleteKey (s : Terminal) : Terminal :=
  if s.position < s.length then
    { s with
      buffer := memmove s.buffer s.position.toNat (s.position + 1).toNat
        (s.length - s.position).toNat
      length := s.length - 1 }
  else s

def backspaceKey (s : Terminal) : Terminal :=
  if s.position = 0 then s
  else
    { s with
      buffer := memmove s.buffer (s.position - 1).toNat s.position.toNat
        (s.length - s.position).toNat
      position := s.position - 1
      length := s.length - 1 }

def insert (s : Terminal) (c : UInt8) : Terminal :=
  { s with
    bufferLength := if s.bufferLength ≤ s.length then s.bufferLength * 2 else s.bufferLength
    buffer := Function.update
      (memmove s.buffer (s.position + 1).toNat s.position.toNat (s.length - s.position).toNat)
      s.position.toNat c
    position := s.position + 1
    length := s.length + 1 }

/-- The first bytes of the buffer. -/
def taken (s : Terminal) (n : Nat) : Bytes := (List.range n).map s.buffer

/-- The edited text. -/
def text (s : Terminal) : Bytes := s.taken s.length.toNat

/-- Enter: the newline behind the text, and the line into the history if it has one. -/
def enter (s : Terminal) : Terminal :=
  let s := { s with buffer := Function.update s.buffer s.length.toNat newLine }
  if s.length ≠ 0 then
    let line := s.taken (s.length.toNat + 1)
    { s with
      history := s.history ++ line
      historyBuffer := writeRing s.historyBuffer s.historyPosition line
      historyPosition := s.historyPosition + line.length
      historyLength := s.historyLength + line.length }
  else s

def handleKey (s : Terminal) : Key → Outcome
  | .arrowUp => .again s.up
  | .arrowDown => .again s.down
  | .arrowRight => .again s.right
  | .arrowLeft => .again s.left
  | .home => .again { s with position := 0 }
  | .endKey => .again { s with position := s.length }
  | .delete => .again s.deleteKey
  | .eof => .exit
  | .byte c =>
      if c = backspace then .again s.backspaceKey
      else if c = newLine then .line s.enter
      else if c = endOfText then .again s.clear
      else if c = endOfTrans then .exit
      else if !isCntrl c then .again (s.insert c)
      else .again s

/-- The C string in the buffer; there is none when no byte of the buffer is NUL. -/
def returned (s : Terminal) : Option Bytes :=
  let b := s.taken s.bufferLength
  if 0 ∈ b then some (cString b) else none

end Terminal

end Aer.Shell
