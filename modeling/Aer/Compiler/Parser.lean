import Aer.Compiler.Lexer
import Aer.Lib.Interaction
import Aer.Machine.State

set_option linter.all false

/-! The state of the compiler and the operations its functions are made of. An
operation is stuck where the C code would read outside its data. -/
namespace Aer.Compiler

open Aer.Data Aer.Memory Aer.Machine Aer.Lib.Interaction

def loopMax : Nat := 16
def breakMax : Nat := 64
def exprDepthMax : Nat := 200
def maxTrackedLocals : Nat := 32
def maxParams : Nat := scopeSlotMax
def maxDestruct : Nat := 16

inductive Mode
  | shell
  | run
  deriving DecidableEq, Inhabited

/-- A loop being compiled, for `break` and `continue`. -/
structure LoopContext where
  top : Nat
  /-- The operand positions of its breaks, oldest first. -/
  patches : List Nat
  scopeDepth : Nat
  /-- The value-stack slots its iterator holds. -/
  iterSlots : Nat
  deriving DecidableEq, Inhabited

/-- The names a closure's body has used so far, in the order of their first use. -/
structure CaptureCtx where
  localNames : List Nat
  capturedNames : List Nat
  deriving DecidableEq, Inhabited

/-- The static variables of the parser. -/
structure Context where
  loopStack : Nat → LoopContext
  loopDepth : Nat
  loopFloor : Nat
  compileScopeDepth : Nat
  functionDepth : Nat
  recoveredAtBoundary : Bool
  pipeForbidCalls : Bool
  /-- The end of the bare call compiled last; `none` before the first. -/
  lastBareCallEnd : Option Nat
  captureCtx : CaptureCtx
  capturing : Bool
  outerLocals : List Nat
  currentParams : List Nat
  exprDepth : Nat

/-- What happens to `parse_had_error`, besides being read. -/
inductive Event
  | raised
  | statementBegun
  /-- `parse()` has looked at the flag after a statement of the file. -/
  | checked
  deriving DecidableEq

/-- What the proofs have to know of the code compiled; the code keeps no such record. -/
inductive Note
  /-- A call may be left at this offset, with so many iterator slots of its loops. -/
  | exit (offset slots : Nat)
  deriving DecidableEq

/-- A module that was loaded from a file. -/
structure FileModule where
  name : Bytes
  chunk : Chunk
  vm : Vm
  haltAddr : Nat

structure Parser where
  lexer : Lexer
  tokenType : TokenType
  tokenValue : AerVal
  ctx : Context
  chunk : Chunk
  heap : Heap
  mode : Mode
  parseHadError : Bool
  runtimeHadError : Bool
  /-- The messages reported, newest first. -/
  reports : List Bytes
  modules : List FileModule
  /-- The paths of the files being loaded. -/
  loading : List Bytes
  /-- What has happened to the error flag, newest first; the code keeps no such record. -/
  events : List Event
  notes : List Note

namespace Context

def init : Context where
  loopStack := fun _ => default
  loopDepth := 0
  loopFloor := 0
  compileScopeDepth := 0
  functionDepth := 0
  recoveredAtBoundary := false
  pipeForbidCalls := false
  lastBareCallEnd := none
  captureCtx := ⟨[], []⟩
  capturing := false
  outerLocals := []
  currentParams := []
  exprDepth := 0

/-- The loop compiled innermost. -/
def loop (c : Context) : LoopContext := c.loopStack (c.loopDepth - 1)

def setLoop (c : Context) (i : Nat) (l : LoopContext) : Context :=
  { c with loopStack := Function.update c.loopStack i l }

/-- The iterator slots that the open loops of the function hold. -/
def openSlots (c : Context) : Nat :=
  ((List.range' c.loopFloor (c.loopDepth - c.loopFloor)).map fun i =>
    (c.loopStack i).iterSlots).sum

def outerLocalsAdd (c : Context) (name : Nat) : Context :=
  if name ∉ c.outerLocals ∧ c.outerLocals.length < maxTrackedLocals then
    { c with outerLocals := c.outerLocals ++ [name] }
  else c

def captureIsLocal (c : Context) (name : Nat) : Bool := c.captureCtx.localNames.contains name

def captureIsCaptured (c : Context) (name : Nat) : Bool := c.captureCtx.capturedNames.contains name

/-- The upvalue slot of a captured name. -/
def captureSlot (c : Context) (name : Nat) : Nat := c.captureCtx.capturedNames.idxOf name

def captureAddLocal (c : Context) (name : Nat) : Context :=
  if c.captureCtx.localNames.length < maxTrackedLocals then
    { c with captureCtx :=
      { c.captureCtx with localNames := c.captureCtx.localNames ++ [name] } }
  else c

def captureAddCaptured (c : Context) (name : Nat) : Context :=
  { c with captureCtx :=
    { c.captureCtx with capturedNames := c.captureCtx.capturedNames ++ [name] } }

def currentParamSlot (c : Context) (name : Nat) : Option Nat :=
  c.currentParams.findIdx? (· == name)

end Context

inductive Op
  | lex | token | tokenText | tokenInt | tokenReal | tokenBool | tokenValue
  | errorAt (msg : Bytes)
  | hadError | beginStatement | raise
  | context | modify (f : Context → Context)
  | emit (word : Int) | count | segment (start stop : Nat) | patch (i : Nat) (word : Int)
  | markCount | markLine | truncate (count marks : Nat)
  | addAddrCache | addPool (v : AerVal) | poolVal (i : Nat)
  | makeString (b : Bytes) | makeInt (n : Int) | makeFunction (f : AerFunction)
  | isImported (name : Bytes) | addImport (name path : Bytes)
  | mode
  | note (n : Note)
  | stuck

@[reducible] def Op.Ans : Op → Type
  | token => TokenType
  | tokenText => Bytes
  | tokenInt => Int
  | segment _ _ => List Int
  | tokenReal => Double
  | tokenBool | hadError | isImported _ => Bool
  | context => Context
  | count | markCount | addAddrCache | addPool _ => Nat
  | tokenValue | poolVal _ | makeString _ | makeInt _ | makeFunction _ => AerVal
  | mode => Mode
  | stuck => Empty
  | _ => Unit

/-- The reason a run of the compiler has no result: it needs more fuel, or the code
would read outside its data. -/
inductive Stop
  | stuck
  deriving DecidableEq

abbrev Result (α : Type) := Outcome Parser Stop α

namespace Parser

/-- A compiler at the start of a file, on a chunk that may hold earlier programs. -/
def start (mode : Mode) (file : File) (chunk : Chunk) (heap : Heap) : Parser where
  lexer := .start file
  tokenType := .or
  tokenValue := .null
  ctx := .init
  chunk := chunk
  heap := heap
  mode := mode
  parseHadError := false
  runtimeHadError := false
  reports := []
  modules := []
  loading := []
  events := []
  notes := []

def orStuck {α : Type} (o : Option α) (s : Parser) : Result α :=
  match o with
  | some a => .done a s
  | none => .stop .stuck s

/-- Both flags are set by every report. -/
def report (s : Parser) (r : Report) : Parser :=
  { s with
    parseHadError := true
    runtimeHadError := true
    reports := r.text :: s.reports
    events := .raised :: s.events }

def errorAt (s : Parser) (msg : Bytes) : Parser := s.report (s.lexer.report msg)

/-- The runtime value of a literal. -/
def literal (h : Heap) : Literal → AerVal × Heap
  | .integer n => h.aerInt n
  | .real d => (aerReal d, h)
  | .boolean b => (aerBool b, h)
  | .string text => h.aerMakeString text

def setLiteral (s : Parser) : Option Literal → Parser
  | some v => { s with tokenValue := (literal s.heap v).1, heap := (literal s.heap v).2 }
  | none => s

def lex (s : Parser) : Parser :=
  let r := s.lexer.lex
  let s := r.reports.foldl report { s with lexer := r.lexer, tokenType := r.type.getD s.tokenType }
  s.setLiteral r.value

def setChunk (s : Parser) (c : Chunk) : Parser := { s with chunk := c }

/-- The pool entry a constant other than a string may share. -/
def samePoolVal (h : Heap) (e v : AerVal) : Bool :=
  match e, v with
  | .null, .null => true
  | .boolean a, .boolean b => a == b
  | .real a, .real b => a.beq b
  | .function a, .function b =>
      (h.functions.data a).codeOffset == (h.functions.data b).codeOffset &&
        (h.functions.data a).arity == (h.functions.data b).arity
  | .integer a, .integer b => a == b
  | .long a, .long b => h.longs.data a == h.longs.data b
  | _, _ => false

/-- Append a constant to the pool, or find the entry it shares. -/
def addPool (s : Parser) (v : AerVal) : Nat × Parser :=
  let c := s.chunk
  let append (c : Chunk) : Nat × Parser :=
    (c.pool.length, s.setChunk { c with pool := c.pool ++ [v] })
  match v with
  | .string cell =>
      let key := s.heap.strings.data cell
      match c.nameIndex.get key with
      | some i => (i, s)
      | none => append { c with nameIndex := c.nameIndex.put key c.pool.length }
  | _ =>
      match c.pool.findIdx? (samePoolVal s.heap · v) with
      | some i => (i, s)
      | none => append c

def asInt (h : Heap) : AerVal → Option Int
  | .integer n => some n.val
  | .long c => some (h.longs.data c)
  | _ => none

def isImported (s : Parser) (name : Bytes) : Bool := s.chunk.importedModules.contains name

/-- Note an imported module's name. -/
def bindImport (s : Parser) (name : Bytes) : Parser :=
  if s.isImported name then s
  else s.setChunk { s.chunk with importedModules := s.chunk.importedModules ++ [name] }

/-- Cut off the code and the line marks that a failed statement has left. -/
def truncate (s : Parser) (count marks : Nat) : Parser :=
  s.setChunk { s.chunk with
    code := s.chunk.code.take count
    lineMarks := s.chunk.lineMarks.take marks }

end Parser

/-- What the compiler finds outside of itself. -/
structure Env where
  /-- The modules of the standard library and of the host. -/
  isNative : Bytes → Bool
  /-- The path of an imported file, given the name of the importing one. -/
  resolvePath : Bytes → Bytes → Bytes
  readFile : Bytes → Option Bytes
  /-- The run of an imported file; the answer tells whether an error occurred. -/
  runModule : List FileModule → Chunk → Heap → Option (Bool × Vm × Chunk × Heap)

/-- All operations but imports. -/
def execBasic : Exec Op Op.Ans Parser Stop
  | .lex, s => .done () s.lex
  | .token, s => .done s.tokenType s
  | .tokenText, s =>
      match s.tokenValue with
      | .string c => .done (s.heap.strings.data c) s
      | _ => .stop .stuck s
  | .tokenInt, s => Parser.orStuck (Parser.asInt s.heap s.tokenValue) s
  | .tokenReal, s =>
      match s.tokenValue with
      | .real d => .done d s
      | _ => .stop .stuck s
  | .tokenBool, s =>
      match s.tokenValue with
      | .boolean b => .done b s
      | _ => .stop .stuck s
  | .tokenValue, s => .done s.tokenValue s
  | .errorAt msg, s => .done () (s.errorAt msg)
  | .hadError, s => .done s.parseHadError s
  | .beginStatement, s =>
      .done () { s with
        parseHadError := false
        ctx := { s.ctx with recoveredAtBoundary := false }
        events := .statementBegun :: s.events }
  | .raise, s => .done () { s with parseHadError := true, events := .raised :: s.events }
  | .context, s => .done s.ctx s
  | .modify f, s => .done () { s with ctx := f s.ctx }
  | .emit word, s => .done () (s.setChunk (s.chunk.emit word))
  | .count, s => .done s.chunk.count s
  | .segment start stop, s => .done ((s.chunk.code.take stop).drop start) s
  | .patch i word, s =>
      if i < s.chunk.count then
        .done () (s.setChunk { s.chunk with code := s.chunk.code.set i word })
      else .stop .stuck s
  | .markCount, s => .done s.chunk.lineMarks.length s
  | .markLine, s => .done () (s.setChunk (s.chunk.markLine s.chunk.count s.lexer.file.line))
  | .truncate count marks, s => .done () (s.truncate count marks)
  | .addAddrCache, s => .done s.chunk.addAddrCache.1 (s.setChunk s.chunk.addAddrCache.2)
  | .addPool v, s => .done (s.addPool v).1 (s.addPool v).2
  | .poolVal i, s => Parser.orStuck s.chunk.pool[i]? s
  | .makeString b, s =>
      .done (s.heap.aerMakeString b).1 { s with heap := (s.heap.aerMakeString b).2 }
  | .makeInt n, s => .done (s.heap.aerInt n).1 { s with heap := (s.heap.aerInt n).2 }
  | .makeFunction f, s => .done (s.heap.newFunction f).1 { s with heap := (s.heap.newFunction f).2 }
  | .isImported name, s => .done (s.isImported name) s
  | .addImport _ _, s => .stop .stuck s
  | .mode, s => .done s.mode s
  | .note n, s => .done () { s with notes := n :: s.notes }
  | .stuck, s => .stop .stuck s

abbrev P := Prog Op Op.Ans

def perform (o : Op) : P o.Ans := Prog.perform o

@[simp] theorem run_perform' (exec : Exec Op Op.Ans Parser Stop) (o : Op) (s : Parser) :
    (perform o).run exec s = exec o s :=
  run_perform exec o s

def stuck {α : Type} : P α := do
  return (← perform .stuck).elim

/-- The recursive calls of the parser, with a bound on their depth and on its loops. -/
structure Parsers where
  fuel : Nat
  statement : P Unit
  binary : Nat → P Unit
  unary : P Unit

/-- A loop: the body goes on with a new state, or ends the loop. -/
def loop {α β : Type} (body : α → P (α ⊕ β)) : Nat → α → P β
  | 0, _ => stuck
  | n + 1, a => do
      match ← body a with
      | .inl a => loop body n a
      | .inr b => return b

/-! Tokens, errors and emission. -/

def lex : P Unit := perform .lex

def errorAt (msg : String) : P Unit := perform (.errorAt (bytes msg))

def equal (type : TokenType) : P Bool := do
  return (← perform .token) == type

def require (type : TokenType) (msg : String) : P Unit := do
  unless ← equal type do errorAt msg
  lex

def consume (type : TokenType) : P Bool := do
  if ← equal type then
    lex
    return true
  return false

def context : P Context := perform .context

def modify (f : Context → Context) : P Unit := perform (.modify f)

def count : P Nat := perform .count

def emit (word : Int) : P Unit := perform (.emit word)

def emitOp (o : Opcode) : P Unit := emit o.word

def emitNat (n : Nat) : P Unit := emit n

def addPool (v : AerVal) : P Nat := perform (.addPool v)

/-- The pool index of the name or the literal at the current token. -/
def poolToken : P Nat := do addPool (← perform .tokenValue)

/-- Emit a jump with its target left open; the answer is the operand's position. -/
def emitJump (o : Opcode) : P Nat := do
  emitOp o
  let patch ← count
  emitNat 0
  return patch

/-- Let a jump go to the code that comes next. -/
def patchHere (i : Nat) : P Unit := do
  perform (.patch i (← count))

def emitPush (v : AerVal) : P Unit := do
  emitOp .push
  emitNat (← addPool v)

end Aer.Compiler
