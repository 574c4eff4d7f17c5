import Aer.Memory.Heap

set_option linter.all false

/-! Bytecode chunks: a flat list of words with a constant pool, inline address
caches, struct shapes and line marks. -/
namespace Aer.Machine

open Aer.Data Aer.Memory

/-- The opcodes, in the order of their numbers. -/
inductive Opcode
  | push | load | store | define
  | loadLocal | storeLocal | defineLocal
  | compoundNameConst | compoundNameName | compoundLocalConst | compoundLocalLocal
  | compoundLocalName | compoundNameLocal
  | add | sub | mul | div | mod | floorDiv
  | eq | neq | lt | gt | lte | gte | isIn
  | and | or | pipe
  | bitwiseAnd | bitwiseOr | bitwiseXor | lshift | rshift
  | negate | not | bitwiseNot
  | jump | jumpIfFalse | jumpIfTrue
  | pushScope | popScope
  | call | tailCall | callValue | ret | deferPush
  | arrayNew | dictNew | indexGet
  | indexGetLocalConst | indexGetLocalLocal | indexGetLocalName
  | indexGetNameConst | indexGetNameLocal | indexGetNameName
  | indexSet | sliceGet | unpack | iterNext | iterNextPair | iterRange
  | defineStruct | fieldGet | fieldSet | checkShape
  | capture | makeClosure | loadUpvalue | storeUpvalue
  | callModule
  | printRepl | pop | toStr | cast | halt
  deriving DecidableEq, Inhabited

namespace Opcode

def all : List Opcode :=
  [push, load, store, define, loadLocal, storeLocal, defineLocal,
    compoundNameConst, compoundNameName, compoundLocalConst, compoundLocalLocal,
    compoundLocalName, compoundNameLocal,
    add, sub, mul, div, mod, floorDiv, eq, neq, lt, gt, lte, gte, isIn, and, or, pipe,
    bitwiseAnd, bitwiseOr, bitwiseXor, lshift, rshift, negate, not, bitwiseNot,
    jump, jumpIfFalse, jumpIfTrue, pushScope, popScope,
    call, tailCall, callValue, ret, deferPush, arrayNew, dictNew, indexGet,
    indexGetLocalConst, indexGetLocalLocal, indexGetLocalName,
    indexGetNameConst, indexGetNameLocal, indexGetNameName,
    indexSet, sliceGet, unpack, iterNext, iterNextPair, iterRange,
    defineStruct, fieldGet, fieldSet, checkShape,
    capture, makeClosure, loadUpvalue, storeUpvalue, callModule,
    printRepl, pop, toStr, cast, halt]

def word (o : Opcode) : Int := o.ctorIdx

def ofWord? (w : Int) : Option Opcode :=
  if 0 ≤ w then all[w.toNat]? else none

theorem ofWord?_word (o : Opcode) : ofWord? o.word = some o := by
  cases o <;> rfl

theorem word_inj {o o' : Opcode} (h : o.word = o'.word) : o = o' :=
  Option.some.inj ((ofWord?_word o).symm.trans (h ▸ ofWord?_word o'))

end Opcode

def maxStructFields : Nat := 16
def maxCaptures : Nat := 16
def maxDefersPerCall : Nat := 8
def maxDeferArgs : Nat := 8
def vmStackMax : Nat := 256
def vmScopeMax : Nat := 64
def vmCallMax : Nat := 64
def scopeSlotMax : Nat := 24
def vmKeyMax : Nat := 4096

def castInteger : Int := 0
def castFloat : Int := 1
def castBoolean : Int := 2

structure Chunk where
  code : List Int
  pool : List AerVal
  nameIndex : HashTable Nat
  /-- The shapes this chunk has registered, oldest first. -/
  shapes : List Nat
  importedModules : List Bytes
  /-- The offsets at which a statement begins, with its line. -/
  lineMarks : List (Nat × Nat)
  addrCache : List (Option Addr)

namespace Chunk

def init : Chunk := ⟨[], [], .empty, [], [], [], []⟩

def count (c : Chunk) : Nat := c.code.length

def emit (c : Chunk) (word : Int) : Chunk := { c with code := c.code ++ [word] }

def emitOp (c : Chunk) (o : Opcode) : Chunk := c.emit o.word

def addAddrCache (c : Chunk) : Nat × Chunk :=
  (c.addrCache.length, { c with addrCache := c.addrCache ++ [none] })

/-- A mark is dropped unless it lies beyond the last one. -/
def markLine (c : Chunk) (offset line : Nat) : Chunk :=
  match c.lineMarks.getLast? with
  | some (last, _) =>
      if offset ≤ last then c else { c with lineMarks := c.lineMarks ++ [(offset, line)] }
  | none => { c with lineMarks := [(offset, line)] }

/-- The binary search for the first mark beyond the offset. -/
def searchMarks (marks : List (Nat × Nat)) (offset : Nat) : Nat → Nat → Nat → Nat
  | 0, lo, _ => lo
  | fuel + 1, lo, hi =>
      if lo < hi then
        let mid := lo + (hi - lo) / 2
        if (marks.getD mid (0, 0)).1 ≤ offset then searchMarks marks offset fuel (mid + 1) hi
        else searchMarks marks offset fuel lo mid
      else lo

def lineForOffset (c : Chunk) (offset : Nat) : Nat :=
  match searchMarks c.lineMarks offset c.lineMarks.length 0 c.lineMarks.length with
  | 0 => 0
  | lo + 1 => (c.lineMarks.getD lo (0, 0)).2

/-- The text of a string constant as C code reads it. -/
def nameText (c : Chunk) (h : Heap) (i : Nat) : Bytes :=
  match c.pool[i]? with
  | some (.string cell) => cString (h.strings.data cell)
  | _ => []

/-- Newest first, so that a redeclared struct shadows the old one. -/
def findShape (c : Chunk) (h : Heap) (name : Bytes) : Option Nat :=
  c.shapes.reverse.find? fun id =>
    match h.shapes[id]? with
    | some s => c.nameText h s.name == cString name
    | none => false

end Chunk

end Aer.Machine
