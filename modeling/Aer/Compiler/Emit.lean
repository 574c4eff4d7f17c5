import Aer.Compiler.Parser

set_option linter.all false

/-! Emission of the accesses to variables, the classification of the names in a
closure's body, and the fused instructions. -/
namespace Aer.Compiler

open Aer.Data Aer.Machine

/-- Classify a name of a closure's body at its first use; answers whether it is captured. -/
def captureClassify (name : Nat) (asWrite : Bool) : P Bool := do
  let c ← context
  if c.captureIsLocal name then return false
  else if c.captureIsCaptured name then return true
  else if asWrite ∧ name ∉ c.outerLocals then
    modify (·.captureAddLocal name)
    return false
  else
    if c.captureCtx.capturedNames.length < maxCaptures then modify (·.captureAddCaptured name)
    else errorAt "Too many captured variables in one closure (max 16)"
    return true

/-- The address cache of a new site. -/
def addAddrCache : P Nat := perform .addAddrCache

def emitLoad (name : Nat) : P Unit := do
  let captured ← if (← context).capturing then captureClassify name false else pure false
  if captured then
    emitOp .loadUpvalue
    emitNat ((← context).captureSlot name)
  else
    match (← context).currentParamSlot name with
    | some slot =>
        emitOp .loadLocal
        emitNat slot
    | none =>
        emitOp .load
        emitNat name
        emitNat (← addAddrCache)

/-- The store to a name that is no captured variable and no new local of a closure. -/
def emitPlainStore (name : Nat) : P Unit := do
  match (← context).currentParamSlot name with
  | some slot =>
      emitOp .storeLocal
      emitNat slot
  | none =>
      emitOp .store
      emitNat name
      emitNat (← addAddrCache)

def emitStore (name : Nat) : P Unit := do
  if (← context).functionDepth = 1 then modify (·.outerLocalsAdd name)
  let c ← context
  if c.capturing then
    let classified := c.captureIsLocal name || c.captureIsCaptured name
    if ← captureClassify name true then
      emitOp .storeUpvalue
      emitNat ((← context).captureSlot name)
    else if classified then emitPlainStore name
    else
      -- The first use: a fresh local, whatever the enclosing scopes hold.
      emitOp .define
      emitNat name
  else emitPlainStore name

/-- The bookkeeping for a name that is always a local: a loop variable or a parameter. -/
def registerLocal (name : Nat) : P Unit := do
  if (← context).functionDepth = 1 then modify (·.outerLocalsAdd name)
  let c ← context
  if c.capturing && !c.captureIsLocal name && !c.captureIsCaptured name then
    modify (·.captureAddLocal name)

def emitDefine (name : Nat) : P Unit := do
  registerLocal name
  emitOp .define
  emitNat name

def emitDefineParam (name : Nat) : P Unit := do
  registerLocal name
  let slot := (← context).currentParams.length
  if slot < maxParams then modify fun c => { c with currentParams := c.currentParams ++ [name] }
  emitOp .defineLocal
  emitNat slot
  emitNat name

def emitDefineParams : List Nat → P Unit
  | [] => return
  | name :: names => do
      emitDefineParam name
      emitDefineParams names

/-! Fusion. -/

/-- An operand that a fused instruction can read by itself. -/
inductive Operand
  | none
  | slot (slot : Int)
  | name (nameIdx cacheIdx : Int)
  | const (poolIdx : Int)

/-- The operand a piece of code loads, if that is all it does. -/
def classifyOperand : List Int → Operand
  | [op, a] =>
      if op = Opcode.loadLocal.word then .slot a
      else if op = Opcode.push.word then .const a
      else .none
  | [op, a, b] => if op = Opcode.load.word then .name a b else .none
  | _ => .none

/-- The fused form of a compound assignment. -/
def compoundWords (op : Opcode) : Operand → Operand → Option (List Int)
  | .slot a, .const b => some [Opcode.compoundLocalConst.word, a, op.word, b]
  | .slot a, .slot b => some [Opcode.compoundLocalLocal.word, a, op.word, b]
  | .slot a, .name b cache => some [Opcode.compoundLocalName.word, a, op.word, b, cache]
  | .name a cache, .const b => some [Opcode.compoundNameConst.word, a, cache, op.word, b]
  | .name a cache, .slot b => some [Opcode.compoundNameLocal.word, a, cache, op.word, b]
  | .name a cache, .name b cache' =>
      some [Opcode.compoundNameName.word, a, cache, op.word, b, cache']
  | _, _ => none

/-- The fused form of an indexed read. -/
def indexGetWords : Operand → Operand → Option (List Int)
  | .slot a, .const i => some [Opcode.indexGetLocalConst.word, a, i]
  | .slot a, .slot i => some [Opcode.indexGetLocalLocal.word, a, i]
  | .slot a, .name i cache => some [Opcode.indexGetLocalName.word, a, i, cache]
  | .name a cache, .const i => some [Opcode.indexGetNameConst.word, a, cache, i]
  | .name a cache, .slot i => some [Opcode.indexGetNameLocal.word, a, cache, i]
  | .name a cache, .name i cache' => some [Opcode.indexGetNameName.word, a, cache, i, cache']
  | _, _ => none

def emitWords : List Int → P Unit
  | [] => return
  | w :: ws => do
      emit w
      emitWords ws

/-- Replace the code from `start` on. -/
def reemit (start : Nat) (ws : List Int) : P Unit := do
  perform (.truncate start (← perform .markCount))
  emitWords ws

end Aer.Compiler
