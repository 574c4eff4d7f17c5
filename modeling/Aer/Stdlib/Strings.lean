import Aer.Data.Bytes
import Aer.Lib.Block
import Aer.Lib.Splitting

set_option linter.all false

/-! The operations of the string library that build strings in buffers of computed sizes. Lengths
and positions are unsigned 32-bit numbers. -/
namespace Aer.Stdlib

open Aer.Data Aer.Lib

/-- How a call ends without a value: a reported error, or a C operation without a meaning. -/
inductive Failure
  | error (msg : Bytes)
  | undefined
  deriving DecidableEq

abbrev Call := Except Failure

def fail {α : Type} (msg : String) : Call α := .error (.error (bytes msg))

def undefined {α : Type} : Call α := .error .undefined

def orUndefined {α : Type} : Option α → Call α
  | some a => .ok a
  | none => undefined

/-- A number as `unsigned int`. -/
def u32 (n : Int) : Nat := (n % 2 ^ 32).toNat

/-- The `n` bytes at a position; outside of the string there is nothing to read. -/
def readAt (s : Bytes) (pos n : Nat) : Call Bytes :=
  if pos + n ≤ s.length then .ok ((s.drop pos).take n) else undefined

/-- `memcmp` at a position of a string. -/
def sameAt (s : Bytes) (pos : Nat) (sep : Bytes) : Call Bool := do
  return (← readAt s pos sep.length) == sep

/-- Whether `sep` stands at a position that leaves room for it. -/
def foundAt (s : Bytes) (pos : Nat) (sep : Bytes) : Call Bool :=
  if u32 (pos + sep.length) ≤ s.length then sameAt s pos sep else .ok false

def memcpy (buf : Bytes) (pos : Nat) (src : Bytes) : Call Bytes :=
  orUndefined (Block.write buf pos src)

/-- A string of length `len` from a buffer of `len + 1` bytes, filled and ended by a NUL. -/
def build (len : Nat) (filled : Bytes → Call Bytes) : Call Bytes := do
  let buf ← filled (List.replicate (u32 (len + 1)) 0)
  let buf ← memcpy buf len [0]
  return buf.take len

/-- The operator `+`. -/
def stringConcat (a b : Bytes) : Call Bytes :=
  build (u32 (a.length + b.length)) fun buf => do
    let buf ← memcpy buf 0 a
    memcpy buf a.length b

def repeatLoop (s : Bytes) : Nat → Nat → Bytes → Call Bytes
  | 0, _, buf => return buf
  | n + 1, i, buf => do
      let buf ← memcpy buf (u32 (u32 i * s.length)) s
      repeatLoop s n (i + 1) buf

def stringRepeat (s : Bytes) (n : Int) : Call Bytes :=
  if n < 0 then fail "string.repeat() count must not be negative"
  else build (u32 (s.length * u32 n)) (repeatLoop s n.toNat 0)

/-- The first pass of `replace`. Every turn moves on in the string unless the position wraps. -/
def countMatches (s old : Bytes) : Nat → Nat → Nat → Call Nat
  | 0, _, _ => undefined
  | fuel + 1, i, matched =>
      if u32 (i + old.length) ≤ s.length then do
        if ← sameAt s i old then countMatches s old fuel (u32 (i + old.length)) (u32 (matched + 1))
        else countMatches s old fuel (u32 (i + 1)) matched
      else return matched

/-- The second pass. -/
def replaceLoop (s old new : Bytes) : Nat → Nat → Nat → Bytes → Call Bytes
  | 0, _, _, _ => undefined
  | fuel + 1, i, pos, buf =>
      if i < s.length then do
        if ← foundAt s i old then
          let buf ← memcpy buf pos new
          replaceLoop s old new fuel (u32 (i + old.length)) (u32 (pos + new.length)) buf
        else
          let buf ← memcpy buf pos (← readAt s i 1)
          replaceLoop s old new fuel (u32 (i + 1)) (u32 (pos + 1)) buf
      else return buf

def stringReplace (s old new : Bytes) : Call Bytes :=
  if old.length = 0 then fail "string.replace() 'old' argument cannot be empty"
  else do
    let matched ← countMatches s old (s.length + 1) 0 0
    let total := u32 (s.length - matched * old.length + matched * new.length)
    build total (replaceLoop s old new (s.length + 1) 0 0)

def joinLoop (sep : Bytes) : Nat → List Bytes → Nat → Bytes → Call Bytes
  | _, [], _, buf => return buf
  | i, item :: items, pos, buf => do
      let (pos, buf) ←
        if 0 < i then do
          let buf ← memcpy buf pos sep
          pure (u32 (pos + sep.length), buf)
        else pure (pos, buf)
      let buf ← memcpy buf pos item
      joinLoop sep (i + 1) items (u32 (pos + item.length)) buf

def stringJoin (arr : List Bytes) (sep : Bytes) : Call Bytes :=
  let seps := if 0 < arr.length then u32 ((arr.length - 1) * sep.length) else 0
  let total := arr.foldl (fun total item => u32 (total + item.length)) seps
  build total (joinLoop sep 0 arr 0)

/-- The pieces from `start` on, with the scan at `i`. -/
def splitLoop (s sep : Bytes) : Nat → Nat → Nat → Call (List Bytes)
  | 0, _, _ => undefined
  | fuel + 1, start, i =>
      if i ≤ s.length then do
        let atSep ← foundAt s i sep
        if atSep || i == s.length then
          let n := u32 (i - start)
          let text ← readAt s start n
          let piece ← build n fun buf => memcpy buf 0 text
          if i = s.length then return [piece]
          let i := u32 (i + sep.length)
          return piece :: (← splitLoop s sep fuel i i)
        else splitLoop s sep fuel start (u32 (i + 1))
      else return []

def stringSplit (s sep : Bytes) : Call (List Bytes) :=
  if sep.length = 0 then fail "string.split() separator cannot be empty"
  else splitLoop s sep (s.length + 1) 0 0

end Aer.Stdlib
