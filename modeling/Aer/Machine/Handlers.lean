import Aer.Machine.Values

set_option linter.all false

/-! The instruction handlers, one for each label of the dispatch loop. -/
namespace Aer.Machine

open Aer.Data Aer.Memory Aer.Lib.Interaction

def push (v : AerVal) : Handler Unit := perform (.push v)

def pop : Handler AerVal := perform .pop

/-- Pop `n` values; the result lists them in the order they were pushed. -/
def popArgs : Nat → Handler (List AerVal)
  | 0 => return []
  | n + 1 => do
      let v ← pop
      return (← popArgs n) ++ [v]

def pushAll : List AerVal → Handler Unit
  | [] => return
  | v :: vs => do
      push v
      pushAll vs

def popN (n : Nat) : Handler Unit := do
  let _ ← popArgs n

def notDefined (name : Bytes) : Bytes := bytes "'" ++ name ++ bytes "' is not defined"

def notFunction (name : Bytes) : Bytes := bytes "'" ++ name ++ bytes "' is not a function"

/-! Constants, variables and parameters. -/

def lblPush : Handler Unit := do
  push (← perform (.constant (← perform .readIdx)))

def lblLoad : Handler Unit := do
  let idx ← perform .readIdx
  let cacheIdx ← perform .readIdx
  match ← perform (.resolve idx cacheIdx) with
  | some found => push (← perform (.load found))
  | none => errorNull (notDefined (← perform (.nameText idx)))

def lblStore : Handler Unit := do
  let idx ← perform .readIdx
  let cacheIdx ← perform .readIdx
  let val ← pop
  match ← perform (.resolve idx cacheIdx) with
  | some found => perform (.store found val)
  | none => perform (.scopeDefine idx val)

def lblDefine : Handler Unit := do
  let idx ← perform .readIdx
  perform (.scopeDefine idx (← pop))

def lblLoadLocal : Handler Unit := do
  push (← perform (.readLocal (← perform .readIdx)))

def lblStoreLocal : Handler Unit := do
  let slot ← perform .readIdx
  perform (.writeLocal slot (← pop))

def lblDefineLocal : Handler Unit := do
  let slot ← perform .readIdx
  let nameIdx ← perform .readIdx
  perform (.defineLocal slot nameIdx (← pop))

/-! Fused compound assignments. -/

/-- The address of a name, cached; an undefined name is reported. -/
def vmResolveNameCached (nameIdx cacheIdx : Nat) : Handler (Option Addr) := do
  let found ← perform (.resolve nameIdx cacheIdx)
  if found.isNone then perform (.error (notDefined (← perform (.nameText nameIdx))))
  return found

/-- An operand that a fused instruction reads directly. -/
inductive Operand
  | const (poolIdx : Nat)
  | slot (slot : Nat)
  | name (nameIdx cacheIdx : Nat)

/-- The operand's value, or `none` after an error. -/
def Operand.read : Operand → Handler (Option AerVal)
  | const i => do return some (← perform (.constant i))
  | slot i => do return some (← perform (.readLocal i))
  | name i cache => do
      match ← vmResolveNameCached i cache with
      | some a => return some (← perform (.load a))
      | none => return none

def readOpcode : Handler Opcode := do
  match Opcode.ofWord? (← perform .read) with
  | some o => return o
  | none => do
      perform .fault
      return .halt

def readConst : Handler Operand := do return .const (← perform .readIdx)
def readSlot : Handler Operand := do return .slot (← perform .readIdx)
def readName : Handler Operand := do
  let idx ← perform .readIdx
  return .name idx (← perform .readIdx)

/-- `name OP= operand`: the address is resolved before the operand is read, and
nothing is written once an error has been reported. -/
def compoundName (readRhs : Handler Operand) : Handler Unit := do
  let idx ← perform .readIdx
  let cacheIdx ← perform .readIdx
  let binOp ← readOpcode
  let rhs ← readRhs
  match ← vmResolveNameCached idx cacheIdx with
  | none => return
  | some addr =>
      match ← rhs.read with
      | none => return
      | some b =>
          let result ← vmBinary (← perform (.load addr)) b binOp
          if ← perform .hadError then return
          perform (.store addr result)

/-- `slot OP= operand` for a parameter slot. -/
def compoundLocal (readRhs : Handler Operand) : Handler Unit := do
  let slot ← perform .readIdx
  let binOp ← readOpcode
  let rhs ← readRhs
  let a ← perform (.readLocal slot)
  match ← rhs.read with
  | none => return
  | some b =>
      let result ← vmBinary a b binOp
      if ← perform .hadError then return
      perform (.writeLocal slot result)

def lblCompoundNameConst : Handler Unit := compoundName readConst
def lblCompoundNameName : Handler Unit := compoundName readName
def lblCompoundNameLocal : Handler Unit := compoundName readSlot
def lblCompoundLocalConst : Handler Unit := compoundLocal readConst
def lblCompoundLocalLocal : Handler Unit := compoundLocal readSlot
def lblCompoundLocalName : Handler Unit := compoundLocal readName

/-! Operators and control flow. -/

def lblBinary (op : Opcode) : Handler Unit := do
  let b ← pop
  let a ← pop
  push (← vmBinary a b op)

def lblNegate : Handler Unit := do
  let v ← pop
  match v with
  | .integer _ | .long _ => push (← perform (.newInt (wrap64 (-(← perform (.asInt v))))))
  | .real d => push (aerReal d.neg)
  | _ => errorNull (bytes "Negation requires a numeric type")

def lblNot : Handler Unit := do
  push (aerBool !(← vmTruthy (← pop)))

def lblBitwiseNot : Handler Unit := do
  let v ← pop
  if v.type = .integer then push (← perform (.newInt (-(← perform (.asInt v)) - 1)))
  else errorNull (bytes "Bitwise NOT requires an integer")

def lblJump : Handler Unit := do
  perform (.setIp (← perform .readIdx))

def lblJumpIf (sense : Bool) : Handler Unit := do
  let target ← perform .readIdx
  if (← vmTruthy (← pop)) == sense then perform (.setIp target)

def lblPushScope : Handler Unit := perform .pushScope

def lblPopScope : Handler Unit := perform .popScope

/-- What `print` shows: the text up to its first NUL, on a line of its own. -/
def printValue (v : AerVal) : Handler Unit := do
  perform (.print (cString (← perform (.format v)) ++ bytes "\n"))

def lblPrintRepl : Handler Unit := do
  let v ← pop
  if v ≠ .null then printValue v

/-! Built-in functions and struct constructors. -/

def isBuiltin (name : Bytes) (argCount : Nat) : Bool :=
  argCount == 1 && [bytes "length", bytes "print", bytes "type", bytes "panic"].contains name ||
    argCount == 2 && [bytes "delete", bytes "append", bytes "assert"].contains name

/-- `length()`; `failed` is the placeholder after an error. -/
def builtinLength (failed v : AerVal) : Handler AerVal :=
  match v with
  | .array c => do perform (.newInt (← perform (.array c)).items.length)
  | .string c => do perform (.newInt (← perform (.string c)).length)
  | .dict c => do perform (.newInt (← perform (.dict c)).count)
  | _ => errorWith (bytes "length() requires an array, dict, or string") failed

def builtinDelete (obj key : AerVal) : Handler AerVal :=
  match obj with
  | .dict c =>
      match key with
      | .string k => do
          let text ← perform (.string k)
          if vmKeyMax < text.length then errorWith keyTooLong .null
          else do
            perform (.deleteEntry c text)
            return obj
      | _ => errorWith (bytes "delete() key must be a string") .null
  | .array c => do
      let a ← perform (.array c)
      if a.shape.isSome then
        errorWith (bytes
          "delete() cannot remove fields from a struct instance — structs have a fixed shape") .null
      else if key.type = .integer then
        let i ← perform (.asInt key)
        match elementIndex i a.items.length with
        | some j => do
            perform (.deleteItem c j)
            return obj
        | none => errorWith (outOfBounds "Array" i a.items.length) .null
      else errorWith (bytes "Array delete() index must be an integer") .null
  | _ => errorWith (bytes "delete() requires a dict or array") .null

def builtinAppend (arr val : AerVal) : Handler AerVal :=
  match arr with
  | .array c => do
      let a ← perform (.array c)
      if a.shape.isSome then
        errorWith (bytes
          "append() cannot add fields to a struct instance — structs have a fixed shape") .null
      else do
        perform (.appendItem c val)
        return arr
  | _ => errorWith (bytes "append() requires an array") .null

def builtinAssert (cond msg : AerVal) : Handler AerVal :=
  match msg with
  | .string c => do
      if ← vmTruthy cond then return .null
      perform .countAssertFailure
      perform (.print (bytes "ASSERT FAILED: " ++ cString (← perform (.string c)) ++ bytes "\n"))
      return .null
  | _ => errorWith (bytes "assert() requires a string message as its second argument") .null

def builtinPanic (msg : AerVal) : Handler AerVal :=
  match msg with
  | .string c => do
      errorWith (bytes "panic: " ++ cString (← perform (.string c))) .null
  | _ => errorWith (bytes "panic() requires a string message") .null

/-- The built-in called `name`; both call paths of the code hold a copy of this chain. -/
def runBuiltin (lengthFailed : AerVal) (name : Bytes) : List AerVal → Handler AerVal
  | [a] =>
      if name = bytes "length" then builtinLength lengthFailed a
      else if name = bytes "print" then do
        printValue a
        return .null
      else if name = bytes "type" then do perform (.newString (← perform (.typeName a)))
      else builtinPanic a
  | [a, b] =>
      if name = bytes "delete" then builtinDelete a b
      else if name = bytes "append" then builtinAppend a b
      else builtinAssert a b
  | _ => return .null

def pluralS (n : Nat) : Bytes := if n = 1 then [] else [byte 's']

/-- Instantiate a struct; omitted trailing fields take their defaults. -/
def construct (name : Bytes) (id : Nat) (args : List AerVal) : Handler AerVal := do
  let shape ← perform (.shape id)
  let n := shape.fields.length
  if n < args.length then
    errorWith (bytes "'" ++ name ++ bytes "' takes at most " ++ natText n ++ bytes " argument" ++
      pluralS n ++ bytes ", got " ++ natText args.length) .null
  else
    perform (.newArray ⟨args ++ (shape.fields.drop args.length).map Prod.snd, n, some id⟩)

/-- A call of a name that is not a variable. -/
def callUnbound (name : Bytes) (argCount : Nat) : Handler Unit := do
  if isBuiltin name argCount then
    let args ← popArgs argCount
    push (← runBuiltin (← perform (.newInt 0)) name args)
  else
    match ← perform (.findShape name) with
    | some id =>
        let args ← popArgs argCount
        push (← construct name id args)
    | none =>
        perform (.error (notDefined name))
        popN argCount
        push .null

/-- The built-in or constructor of a deferred call, or `none` for an unknown name. -/
def vmCallBuiltin (name : Bytes) (args : List AerVal) : Handler (Option AerVal) := do
  if isBuiltin name args.length then return some (← runBuiltin .null name args)
  match ← perform (.findShape name) with
  | some id => return some (← construct name id args)
  | none => return none

/-! Calls. -/

def wrongCount (what : Bytes) (f : AerFunction) (argCount : Nat) : Bytes :=
  if f.minArity = f.arity then
    what ++ bytes " expects " ++ natText f.arity ++ bytes " arguments, got " ++ natText argCount
  else
    what ++ bytes " expects between " ++ natText f.minArity ++ bytes " and " ++ natText f.arity ++
      bytes " arguments, got " ++ natText argCount

/-- Whether a value is an instance of the struct type with this name index. -/
def isInstance (v : AerVal) (typeIdx : Nat) : Handler Bool :=
  match v with
  | .array c => do
      match (← perform (.array c)).shape with
      | none => return false
      | some id => return (← perform (.shape id)).name == typeIdx
  | _ => return false

/-- The defaults of the parameters from `argCount` on. -/
def omittedDefaults (f : AerFunction) (argCount : Nat) : List AerVal :=
  f.defaults.drop (argCount - f.minArity)

/-- Shared set-up of calls through a value; answers whether the call was entered. -/
def vmSetupCall (fv : AerVal) (argCount returnIp : Nat) : Handler Bool :=
  match fv with
  | .function cell => do
      let f ← perform (.function cell)
      if argCount < f.minArity ∨ f.arity < argCount then
        perform (.error (wrongCount (bytes "Function") f argCount))
        return false
      if f.hasReceiver then
        -- The receiver is read before a default could have been pushed for it.
        unless ← isInstance (← perform (.argAt argCount)) f.receiverType do
          perform (.error (bytes "Function expects its first argument to be a " ++
            (← perform (.nameText f.receiverType))))
          return false
      if vmCallMax ≤ (← perform .callDepth) then
        perform (.error (bytes "Call stack overflow"))
        return false
      unless ← perform (.hasRoom (f.arity - argCount)) do
        perform (.error (bytes "Stack overflow"))
        return false
      pushAll (omittedDefaults f argCount)
      perform (.pushFrame cell returnIp)
      perform (.setIp f.codeOffset)
      return true
  | _ => do
      perform (.error (bytes "Value is not callable"))
      return false

/-- The function of a call by name, once its arguments have been checked. -/
def enterFunction (tail : Bool) (cell : Nat) (f : AerFunction) : Handler Unit := do
  if tail then
    if (← perform .frameDefers).isEmpty then
      -- The frame is reused, and with it the return address.
      perform .unwindScopes
      perform (.setFrameFunction cell)
      perform (.setIp f.codeOffset)
      return
  if vmCallMax ≤ (← perform .callDepth) then
    perform (.error (bytes "Call stack overflow"))
    perform .fail
  else
    perform (.pushFrame cell (← perform .getIp))
    perform (.setIp f.codeOffset)

def callFunction (tail : Bool) (name : Bytes) (cell argCount : Nat) : Handler Unit := do
  let f ← perform (.function cell)
  if argCount < f.minArity ∨ f.arity < argCount then
    perform (.error (wrongCount (bytes "'" ++ name ++ bytes "'") f argCount))
    popN argCount
    push .null
  else
    pushAll (omittedDefaults f argCount)
    if f.hasReceiver then
      unless ← isInstance (← perform (.argAt f.arity)) f.receiverType do
        perform (.error (bytes "'" ++ name ++ bytes "' expects its first argument to be a " ++
          (← perform (.nameText f.receiverType))))
        popN f.arity
        push .null
        return
    enterFunction tail cell f

/-- `OP_CALL` and `OP_TAIL_CALL`. -/
def lblCall (tail : Bool) : Handler Unit := do
  let nameIdx ← perform .readIdx
  let argCount ← perform .readIdx
  let cacheIdx ← perform .readIdx
  let fv ← perform (.resolve nameIdx cacheIdx)
  let name ← perform (.nameText nameIdx)
  match fv with
  | none => callUnbound name argCount
  | some addr =>
      match ← perform (.load addr) with
      | .function cell => callFunction tail name cell argCount
      | _ =>
          perform (.error (notFunction name))
          popN argCount
          push .null

def lblCallValue : Handler Unit := do
  let argCount ← perform .readIdx
  let fv ← perform (.peek argCount)
  if ← vmSetupCall fv argCount (← perform .getIp) then
    match fv with
    | .function cell => perform (.slide (← perform (.function cell)).arity)
    | _ => return
  else
    popN (argCount + 1)
    push .null

/-- Run the deferred calls of the top frame, last first, up to one that enters a
function; answers whether the frame is left as it is for that call. -/
def drainDefers (returnAddr : Nat) : Nat → Handler Bool
  | 0 => return false
  | fuel + 1 => do
      match ← perform .frameDefers with
      | [] => return false
      | dc :: rest =>
          perform (.setDefers rest)
          let name ← perform (.nameText dc.nameIdx)
          match ← perform (.scopeGet dc.nameIdx) with
          | some addr =>
              match ← perform (.load addr) with
              | .function cell =>
                  pushAll dc.args
                  if ← vmSetupCall (.function cell) dc.args.length returnAddr then return true
                  popN dc.args.length
              | _ => perform (.error (notFunction name))
          | none =>
              if (← vmCallBuiltin name dc.args).isNone then perform (.error (notDefined name))
          if ← perform .hadError then return true
          drainDefers returnAddr fuel

def lblReturn : Handler Unit := do
  let returnAddr := (← perform .getIp) - 1
  let draining ← perform .frameDraining
  let popped ← pop
  -- On later visits the popped value is the result of a deferred call.
  unless draining do perform (.stashReturn popped)
  if ← drainDefers returnAddr ((← perform .frameDefers).length + 1) then return
  perform .unwindScopes
  let ret ← perform .takeReturn
  perform (.setIp (← perform .popFrame))
  push ret

def lblDeferPush : Handler Unit := do
  let nameIdx ← perform .readIdx
  let argCount ← perform .readIdx
  let defers ← perform .frameDefers
  if maxDeferArgs < argCount then
    perform (.error (bytes "Too many arguments to a deferred call (max " ++ natText maxDeferArgs ++
      bytes ")"))
    popN argCount
  else if maxDefersPerCall ≤ defers.length then
    perform (.error (bytes "Too many deferred calls in one function (max " ++
      natText maxDefersPerCall ++ bytes ")"))
    popN argCount
  else
    let args ← popArgs argCount
    perform (.setDefers (⟨nameIdx, args⟩ :: defers))

def lblCallModule : Handler Unit := do
  let moduleIdx ← perform .readIdx
  let fnIdx ← perform .readIdx
  let argCount ← perform .readIdx
  let module ← perform (.nameText moduleIdx)
  let fn ← perform (.nameText fnIdx)
  if ← perform (.callNative module fn argCount) then return
  perform (.error (bytes "'" ++ module ++ bytes "' has no function '" ++ fn ++ bytes "'"))
  popN argCount
  push .null

/-! Closures. -/

def lblCapture : Handler Unit := do
  let nameIdx ← perform .readIdx
  match ← perform (.boxSlot nameIdx) with
  | none => return
  | some box =>
      if maxCaptures ≤ (← perform .pendingCount) then
        perform (.error (bytes "Too many captured variables in one closure (max " ++
          natText maxCaptures ++ bytes ")"))
      else perform (.pendUpvalue box)

def readConstants : Nat → Handler (List AerVal)
  | 0 => return []
  | n + 1 => do
      let v ← perform (.constant (← perform .readIdx))
      return v :: (← readConstants n)

def lblMakeClosure : Handler Unit := do
  let codeOffset ← perform .readIdx
  let arity ← perform .readIdx
  let minArity ← perform .readIdx
  let hasReceiver ← perform .readIdx
  let receiverType ← perform .readIdx
  let upvalueCount ← perform .readIdx
  let upvalues ← perform (.takeUpvalues upvalueCount)
  let defaults ← readConstants (arity - minArity)
  push (← perform (.newFunction
    { codeOffset, arity, minArity, defaults, hasReceiver := hasReceiver != 0, receiverType, upvalues }))

def lblLoadUpvalue : Handler Unit := do
  let box ← perform (.upvalue (← perform .readIdx))
  push (← perform (.load (.box box)))

def lblStoreUpvalue : Handler Unit := do
  let slot ← perform .readIdx
  let val ← pop
  perform (.storeUpvalue (← perform (.upvalue slot)) val)

/-! Arrays, dicts and structs. -/

def lblArrayNew : Handler Unit := do
  let count ← perform .readIdx
  let items ← popArgs count
  push (← perform (.newArray ⟨items, if 0 < count then count else 4, none⟩))

def lblUnpack : Handler Unit := do
  let idx ← perform .readIdx
  match ← perform (.peek 0) with
  | .array c =>
      let a ← perform (.array c)
      match a.items[idx]? with
      | some v => push v
      | none =>
          errorNull (bytes "Cannot unpack index " ++ natText idx ++ bytes ": array has " ++
            natText a.items.length ++ bytes " element" ++ pluralS a.items.length)
  | _ => errorNull (bytes "Cannot unpack a non-array")

/-- Pop the pairs of a literal, the last one first. -/
def popEntries : Nat → HashTable AerVal → Handler (HashTable AerVal)
  | 0, d => return d
  | n + 1, d => do
      let val ← pop
      match ← pop with
      | .string k => do popEntries n (d.put (← perform (.string k)) val)
      | _ => do
          perform (.error (bytes "Dict keys must be strings"))
          popEntries n d

def lblDictNew : Handler Unit := do
  let count ← perform .readIdx
  push (← perform (.newDict (← popEntries count .empty)))

def lblIndexGet : Handler Unit := do
  let idx ← pop
  let obj ← pop
  push (← vmIndexGetCompute obj idx)

/-- `name[index]` with both operands read directly. -/
def indexGetFused (readObj readIdx : Handler Operand) : Handler Unit := do
  let obj ← readObj
  let idx ← readIdx
  match ← obj.read with
  | none => return
  | some obj =>
      match ← idx.read with
      | none => return
      | some idx => push (← vmIndexGetCompute obj idx)

def lblIndexGetLocalConst : Handler Unit := indexGetFused readSlot readConst
def lblIndexGetLocalLocal : Handler Unit := indexGetFused readSlot readSlot
def lblIndexGetLocalName : Handler Unit := indexGetFused readSlot readName
def lblIndexGetNameConst : Handler Unit := indexGetFused readName readConst
def lblIndexGetNameLocal : Handler Unit := indexGetFused readName readSlot
def lblIndexGetNameName : Handler Unit := indexGetFused readName readName

def lblIndexSet : Handler Unit := do
  let val ← pop
  let idx ← pop
  match ← pop with
  | .array c =>
      let a ← perform (.array c)
      if a.shape.isSome then
        perform (.error (bytes "Struct fields are assigned with '.', not '[]'"))
      else if idx.type = .integer then
        let i ← perform (.asInt idx)
        match elementIndex i a.items.length with
        | some j => perform (.setItem c j val)
        | none => perform (.error (outOfBounds "Array" i a.items.length))
      else perform (.error (bytes "Array index must be an integer"))
  | .dict c =>
      match idx with
      | .string k =>
          let key ← perform (.string k)
          if vmKeyMax < key.length then perform (.error keyTooLong)
          else perform (.setEntry c key val)
      | _ => perform (.error (bytes "Dict key must be a string"))
  | .string _ => perform (.error (bytes "Strings are immutable — cannot assign to an index"))
  | _ => perform (.error (bytes "Cannot index type"))

def lblSliceGet : Handler Unit := do
  let stop ← pop
  let start ← pop
  match ← pop with
  | .array c =>
      let a ← perform (.array c)
      if a.shape.isSome then errorNull (bytes "Structs cannot be sliced")
      else
        match ← vmSliceBounds start stop a.items.length with
        | none => push .null
        | some (lo, hi) =>
            let n := (hi - lo) % 2 ^ 32
            push (← perform (.newArray
              ⟨(a.items.drop lo).take n, if 0 < n then n else 4, none⟩))
  | .string c =>
      let str ← perform (.string c)
      match ← vmSliceBounds start stop str.length with
      | none => push .null
      | some (lo, hi) => push (← perform (.newString ((str.drop lo).take ((hi - lo) % 2 ^ 32))))
  | _ => errorNull (bytes "Cannot slice this type")

def readFields : Nat → Handler (List (Nat × AerVal))
  | 0 => return []
  | n + 1 => do
      let name ← perform .readIdx
      let dflt ← perform (.constant (← perform .readIdx))
      return (name, dflt) :: (← readFields n)

def lblDefineStruct : Handler Unit := do
  let name ← perform .readIdx
  let fieldCount ← perform .readIdx
  perform (.defineShape ⟨name, ← readFields fieldCount⟩)

/-- A struct instance with its shape, or `none` after an error. -/
def asStruct (v : AerVal) : Handler (Option (Nat × AerArray × Shape)) := do
  if let .array c := v then
    let a ← perform (.array c)
    if let some id := a.shape then return some (c, a, ← perform (.shape id))
  perform (.error (bytes "'.' field access requires a struct instance"))
  return none

def Shape.fieldSlot (s : Shape) (fieldIdx : Nat) : Option Nat :=
  s.fields.findIdx? fun f => f.1 == fieldIdx

def noField (shape : Shape) (fieldIdx : Nat) : Handler Unit := do
  perform (.error (bytes "'" ++ (← perform (.nameText shape.name)) ++ bytes "' has no field '" ++
    (← perform (.nameText fieldIdx)) ++ bytes "'"))

def lblFieldGet : Handler Unit := do
  let fieldIdx ← perform .readIdx
  match ← asStruct (← pop) with
  | none => push .null
  | some (_, a, shape) =>
      match Shape.fieldSlot shape fieldIdx with
      | some i =>
          match a.items[i]? with
          | some v => push v
          | none => perform .fault
      | none =>
          noField shape fieldIdx
          push .null

def lblFieldSet : Handler Unit := do
  let fieldIdx ← perform .readIdx
  let val ← pop
  match ← asStruct (← pop) with
  | none => return
  | some (c, _, shape) =>
      match Shape.fieldSlot shape fieldIdx with
      | some i => perform (.setItem c i val)
      | none => noField shape fieldIdx

def lblCheckShape : Handler Unit := do
  let nameIdx ← perform .readIdx
  let v ← pop
  if ← isInstance v nameIdx then push v
  else
    errorNull (bytes "Expected a '" ++ (← perform (.nameText nameIdx)) ++ bytes "', got a '" ++
      (← perform (.typeName v)) ++ bytes "'")

/-! Iteration. -/

/-- Leave a loop: drop its `n` iterator slots and jump behind it. -/
def leaveLoop (n endAddr : Nat) : Handler Unit := do
  perform (.drop n)
  perform (.setIp endAddr)

/-- Advance the cursor of a loop to behind position `i`. -/
def advance (i : Nat) : Handler Unit := do
  perform (.poke 0 (← perform (.newInt (i + 1))))

def lblIterNext : Handler Unit := do
  let endAddr ← perform .readIdx
  let idx := (← perform (.asInt (← perform (.peek 0)))).toNat
  match ← perform (.peek 1) with
  | .array c =>
      match (← perform (.array c)).items[idx]? with
      | none => leaveLoop 2 endAddr
      | some v =>
          advance idx
          push v
  | .dict c =>
      match (← perform (.dict c)).nextEntry idx with
      | none => leaveLoop 2 endAddr
      | some (i, key, _) =>
          advance i
          push (← perform (.newString key))
  | .string c =>
      match (← perform (.string c))[idx]? with
      | none => leaveLoop 2 endAddr
      | some ch =>
          advance idx
          push (← perform (.newString [ch]))
  | _ =>
      perform (.error (bytes "Cannot iterate over this type"))
      leaveLoop 2 endAddr

def lblIterNextPair : Handler Unit := do
  let endAddr ← perform .readIdx
  let idx := (← perform (.asInt (← perform (.peek 0)))).toNat
  match ← perform (.peek 1) with
  | .dict c =>
      match (← perform (.dict c)).nextEntry idx with
      | none => leaveLoop 2 endAddr
      | some (i, key, v) =>
          advance i
          push (← perform (.newString key))
          push v
  | _ =>
      perform (.error (bytes "for k, v requires a dict"))
      leaveLoop 2 endAddr

/-- The direction follows from the cursor and the end, anew in every iteration. -/
def lblIterRange : Handler Unit := do
  let endAddr ← perform .readIdx
  let curV ← perform (.peek 2)
  let endV ← perform (.peek 1)
  let stepV ← perform (.peek 0)
  if curV.type ≠ .integer ∨ endV.type ≠ .integer ∨ stepV.type ≠ .integer then
    perform (.error (bytes "Range bounds and step must be integers"))
    leaveLoop 3 endAddr
  else
    let cur ← perform (.asInt curV)
    let rngEnd ← perform (.asInt endV)
    let step ← perform (.asInt stepV)
    if step ≤ 0 then
      perform (.error (bytes ("Range step must be a positive integer " ++
        "(direction is inferred from the bounds, not the step's sign)")))
      leaveLoop 3 endAddr
    else
      let ascending : Bool := cur < rngEnd
      if (if ascending then rngEnd ≤ cur else cur ≤ rngEnd) then leaveLoop 3 endAddr
      else
        push curV
        perform (.poke 3 (← perform (.newInt (wrap64 (cur + if ascending then step else -step)))))

/-! Conversions and the rest. -/

def lblToStr : Handler Unit := do
  push (← vmToStr (← pop))

def lblCast : Handler Unit := do
  let target ← perform .read
  push (← vmCast target (← pop))

def lblPop : Handler Unit := do
  let _ ← pop

/-- The handler the dispatch table gives an opcode. -/
def handler : Opcode → Handler Unit
  | .push => lblPush
  | .load => lblLoad
  | .store => lblStore
  | .define => lblDefine
  | .loadLocal => lblLoadLocal
  | .storeLocal => lblStoreLocal
  | .defineLocal => lblDefineLocal
  | .compoundNameConst => lblCompoundNameConst
  | .compoundNameName => lblCompoundNameName
  | .compoundLocalConst => lblCompoundLocalConst
  | .compoundLocalLocal => lblCompoundLocalLocal
  | .compoundLocalName => lblCompoundLocalName
  | .compoundNameLocal => lblCompoundNameLocal
  | .negate => lblNegate
  | .not => lblNot
  | .bitwiseNot => lblBitwiseNot
  | .jump => lblJump
  | .jumpIfFalse => lblJumpIf false
  | .jumpIfTrue => lblJumpIf true
  | .pushScope => lblPushScope
  | .popScope => lblPopScope
  | .call => lblCall false
  | .tailCall => lblCall true
  | .callValue => lblCallValue
  | .ret => lblReturn
  | .deferPush => lblDeferPush
  | .arrayNew => lblArrayNew
  | .dictNew => lblDictNew
  | .indexGet => lblIndexGet
  | .indexGetLocalConst => lblIndexGetLocalConst
  | .indexGetLocalLocal => lblIndexGetLocalLocal
  | .indexGetLocalName => lblIndexGetLocalName
  | .indexGetNameConst => lblIndexGetNameConst
  | .indexGetNameLocal => lblIndexGetNameLocal
  | .indexGetNameName => lblIndexGetNameName
  | .indexSet => lblIndexSet
  | .sliceGet => lblSliceGet
  | .unpack => lblUnpack
  | .iterNext => lblIterNext
  | .iterNextPair => lblIterNextPair
  | .iterRange => lblIterRange
  | .defineStruct => lblDefineStruct
  | .fieldGet => lblFieldGet
  | .fieldSet => lblFieldSet
  | .checkShape => lblCheckShape
  | .capture => lblCapture
  | .makeClosure => lblMakeClosure
  | .loadUpvalue => lblLoadUpvalue
  | .storeUpvalue => lblStoreUpvalue
  | .callModule => lblCallModule
  | .printRepl => lblPrintRepl
  | .pop => lblPop
  | .toStr => lblToStr
  | .cast => lblCast
  | .halt => perform .halt
  | op => lblBinary op

end Aer.Machine
