import Aer.Compiler.Emit

set_option linter.all false

/-! The parser of expressions. The recursive calls are parameters; the tree of calls
is closed in the module of the whole parser. -/
namespace Aer.Compiler

open Aer.Data Aer.Machine

/-- Precedence and opcode of the binary operators. -/
def binaryOperator : TokenType → Option (Nat × Opcode)
  | .or => some (1, .or)
  | .pipe => some (1, .pipe)
  | .and => some (2, .and)
  | .bitwiseOr => some (3, .bitwiseOr)
  | .bitwiseXor => some (4, .bitwiseXor)
  | .bitwiseAnd => some (5, .bitwiseAnd)
  | .equal => some (6, .eq)
  | .notEqual => some (6, .neq)
  | .less => some (7, .lt)
  | .greater => some (7, .gt)
  | .lessEqual => some (7, .lte)
  | .greaterEqual => some (7, .gte)
  | .isIn => some (7, .isIn)
  | .leftShift => some (8, .lshift)
  | .rightShift => some (8, .rshift)
  | .add => some (9, .add)
  | .subtract => some (9, .sub)
  | .multiply => some (10, .mul)
  | .divide => some (10, .div)
  | .modulo => some (10, .mod)
  | .floorDivide => some (10, .floorDiv)
  | .as => some (11, .cast)
  | _ => none

def nestedCall : String := "Function calls are not allowed inside a pipe's arguments"

def bareModule : String :=
  "A module can't be used as a value on its own — call a function on it, e.g. 'module.function(...)'"

/-- Whether the current token names a module imported earlier. -/
def atModuleName : P Bool := do
  if ← equal .identifier then perform (.isImported (← perform .tokenText)) else return false

/-- Run `p` unless a call is forbidden here. -/
def unlessForbidden (p : P Unit) : P Unit := do
  if (← context).pipeForbidCalls then errorAt nestedCall else p

section Expressions
variable (r : Parsers)

/-- One or more expressions with commas between them; answers how many. -/
def parseList : P Nat :=
  loop (fun n => do
    r.binary 0
    if ← consume .comma then return .inl (n + 1) else return .inr (n + 1)) r.fuel 0

def parseArgList : P Nat := do
  let n ← if ← equal .closeParenthese then pure 0 else parseList r
  require .closeParenthese "expected ')' after arguments"
  return n

def emitCall (name argCount : Nat) : P Unit := do
  emitOp .call
  emitNat name
  emitNat argCount
  emitNat (← addAddrCache)

def emitCallModule (module fn argCount : Nat) : P Unit := do
  emitOp .callModule
  emitNat module
  emitNat fn
  emitNat argCount

def parseCallArgs (name : Nat) : P Unit := do
  let n ← parseArgList r
  unlessForbidden do
    emitCall name n
    let stop ← count
    modify fun c => { c with lastBareCallEnd := some stop }

/-- The module and the function of a qualified name, up to the open parenthesis. -/
def parseModuleName (missing : String) : P (Option (Nat × Nat)) := do
  let module ← poolToken
  lex
  if ← consume .dot then
    if ← equal .identifier then
      let fn ← poolToken
      lex
      require .openParenthese missing
      return some (module, fn)
    else
      errorAt "Expected a function name after '.'"
      return none
  else
    errorAt bareModule
    return none

def parseModuleCall : P Unit := do
  match ← parseModuleName "expected '(' after module function name" with
  | none => return
  | some (module, fn) =>
      let n ← parseArgList r
      unlessForbidden (emitCallModule module fn n)

/-- The arguments of a piped call, in which no other call may stand; `emitTarget` is
given their number. -/
def parsePipeArgs (emitTarget : Nat → P Unit) : P Bool := do
  let outer := (← context).pipeForbidCalls
  modify fun c => { c with pipeForbidCalls := true }
  let n ← parseArgList r
  modify fun c => { c with pipeForbidCalls := outer }
  if outer then
    errorAt nestedCall
    return false
  else
    emitTarget (n + 1)
    return true

/-- The target of a pipe. -/
def parsePipe : P Bool := do
  if ← equal .identifier then
    if ← atModuleName then
      match ← parseModuleName "expected '(' after module function name" with
      | none => return false
      | some (module, fn) => parsePipeArgs r (emitCallModule module fn)
    else
      let name ← poolToken
      lex
      require .openParenthese "expected '(' after piped function name"
      parsePipeArgs r (emitCall name)
  else
    errorAt "Expected a function name after '|>'"
    return false

/-- `&&` and `||`: the right side is not evaluated when the left side decides. -/
def parseShortCircuit (branch : Opcode) (decided : Bool) (prec : Nat) : P Bool := do
  let lhs ← emitJump branch
  r.binary prec
  let rhs ← emitJump branch
  emitPush (aerBool !decided)
  let stop ← emitJump .jump
  patchHere lhs
  patchHere rhs
  emitPush (aerBool decided)
  patchHere stop
  return true

/-- The instruction for a cast to the type of this name. -/
def emitCast (name : Bytes) (type : Nat) : P Unit := do
  if name = bytes "string" then emitOp .toStr
  else if name = bytes "integer" then
    emitOp .cast
    emit castInteger
  else if name = bytes "float" then
    emitOp .cast
    emit castFloat
  else if name = bytes "boolean" then
    emitOp .cast
    emit castBoolean
  else
    emitOp .checkShape
    emitNat type

def parseCast : P Bool := do
  if ← equal .identifier then
    let type ← poolToken
    let name ← perform .tokenText
    lex
    emitCast name type
    return true
  else
    errorAt "Expected a type name after 'as'"
    return false

/-- The right side of an operator whose left side is on the stack; answers whether the
expression may go on. -/
def parseOperand (prec : Nat) (op : Opcode) : P Bool :=
  match op with
  | .and => parseShortCircuit r .jumpIfFalse false prec
  | .or => parseShortCircuit r .jumpIfTrue true prec
  | .pipe => parsePipe r
  | .cast => parseCast
  | op => do
      r.binary prec
      emitOp op
      return true

/-- Operator climbing. -/
def parseBinaryOps (minPrec : Nat) : P Unit :=
  loop (fun _ => do
    match binaryOperator (← perform .token) with
    | none => return .inr ()
    | some (prec, op) =>
        if prec ≤ minPrec then return .inr ()
        else
          lex
          if ← parseOperand r prec op then return .inl () else return .inr ()) r.fuel ()

def parseBinary (minPrec : Nat) : P Unit := do
  r.unary
  parseBinaryOps r minPrec

/-! Strings. -/

def unescapeByte (c : UInt8) : Bytes :=
  if c = byte 'n' then [10]
  else if c = byte 't' then [9]
  else if c = byte '\\' ∨ c = byte '"' ∨ c = byte '\x7b' then [c]
  else [byte '\\', c]

def unescape : Bytes → Bytes
  | [] => []
  | [c] => [c]
  | c :: d :: rest => if c = byte '\\' then unescapeByte d ++ unescape rest else c :: unescape (d :: rest)

/-- The pool entry of a piece of a string literal. -/
def poolEscapedString (s : Bytes) : P Nat := do
  if s.length < 4096 then addPool (← perform (.makeString (unescape s)))
  else
    errorAt "String literal too long (max 4095 bytes)"
    addPool (← perform (.makeString []))

/-- The length of the text up to the next brace that is not escaped. -/
def segmentLength : Bytes → Nat
  | [] => 0
  | [c] => if c = byte '\x7b' then 0 else 1
  | c :: d :: rest =>
      if c = byte '\\' then segmentLength rest + 2
      else if c = byte '\x7b' then 0
      else segmentLength (d :: rest) + 1

/-- Count a part of an interpolated string and join it to the parts before it. -/
def joinPart (parts : Nat) : P Nat := do
  if 0 < parts then emitOp .add
  return parts + 1

/-- The part of an interpolated string up to the end of its next name. -/
def parseStringPart : Bytes × Nat → P ((Bytes × Nat) ⊕ Nat)
  | (s, parts) => do
      let seg := s.take (segmentLength s)
      let parts ← if seg.isEmpty then pure parts else do
        emitOp .push
        emitNat (← poolEscapedString seg)
        joinPart parts
      match s.drop (segmentLength s) with
      | [] => return .inr parts
      | _ :: behind =>
          let name := behind.takeWhile (· ≠ byte '\x7d')
          match behind.dropWhile (· ≠ byte '\x7d') with
          | [] =>
              errorAt "Unclosed '\x7b' in string"
              return .inr parts
          | _ :: rest =>
              if name.isEmpty then
                errorAt "Empty '\x7b\x7d' in string"
                return .inl (rest, parts)
              else
                emitLoad (← addPool (← perform (.makeString name)))
                emitOp .toStr
                return .inl (rest, ← joinPart parts)

def parseString : P Unit := do
  let s ← perform .tokenText
  if segmentLength s < s.length then
    let parts ← loop parseStringPart r.fuel (s, 0)
    if parts = 0 then emitPush (← perform (.makeString []))
  else
    emitOp .push
    emitNat (← poolEscapedString s)
  lex

/-! Primary expressions. -/

/-- Behind an open bracket: an index, or a slice whose missing bounds are null. -/
def parseIndexOrSlice : P Unit := do
  let hasStart := !(← equal .colon)
  if hasStart then r.binary 0
  if ← consume .colon then
    unless hasStart do emitPush .null
    if ← equal .closeBracket then emitPush .null else r.binary 0
    require .closeBracket "expected ']' after slice"
    emitOp .sliceGet
  else
    require .closeBracket "expected ']' after index"
    emitOp .indexGet

/-- Indexes, calls and fields behind a value; answers whether no error ended them. -/
def parsePostfix : P Bool :=
  loop (fun _ => do
    if ← consume .openBracket then
      parseIndexOrSlice r
      return .inl ()
    else if ← consume .openParenthese then
      let n ← parseArgList r
      if (← context).pipeForbidCalls then
        errorAt nestedCall
        return .inr false
      else
        emitOp .callValue
        emitNat n
        return .inl ()
    else if ← consume .dot then
      if ← equal .identifier then
        let field ← poolToken
        lex
        emitOp .fieldGet
        emitNat field
        return .inl ()
      else
        errorAt "Expected field name after '.'"
        return .inr false
    else return .inr true) r.fuel ()

/-- A name followed by an index, fused when both are simple. -/
def parseIndexedName (name : Nat) : P Unit := do
  let arrStart ← count
  emitLoad name
  let idxStart ← count
  parseIndexOrSlice r
  let stop ← count
  if (← perform (.segment (stop - 1) stop)) = [Opcode.indexGet.word] then
    let arr := classifyOperand (← perform (.segment arrStart idxStart))
    let idx := classifyOperand (← perform (.segment idxStart (stop - 1)))
    match indexGetWords arr idx with
    | some ws => reemit arrStart ws
    | none => return

def parseName : P Unit := do
  let name ← poolToken
  lex
  if ← consume .openParenthese then parseCallArgs r name
  else if ← consume .openBracket then parseIndexedName r name
  else emitLoad name
  let _ ← parsePostfix r

/-- The inline `if cond: value else: value`. -/
def parseIfExpr : P Unit := do
  r.binary 0
  require .colon "expected ':' after if condition"
  let jif ← emitJump .jumpIfFalse
  r.binary 0
  let jmp ← emitJump .jump
  patchHere jif
  if ← consume .else then
    require .colon "expected ':' after else"
    r.binary 0
  else emitPush .null
  patchHere jmp

def parseArray : P Unit := do
  let n ← if ← equal .closeBracket then pure 0 else parseList r
  require .closeBracket "expected ']' after array elements"
  emitOp .arrayNew
  emitNat n

def parseDict : P Unit := do
  let n ← if ← equal .closeBrace then pure 0 else
    loop (fun n => do
      r.binary 0
      require .colon "expected ':' between key and value"
      r.binary 0
      if ← consume .comma then return .inl (n + 1) else return .inr (n + 1)) r.fuel 0
  require .closeBrace "expected '\x7d' after dict entries"
  emitOp .dictNew
  emitNat n

/-- A literal of one token. -/
def parseConstant (v : AerVal) : P Unit := do
  emitPush v
  lex

/-- Count a level of nesting; answers false, after a report, beyond the limit. -/
def exprDepthEnter : P Bool := do
  if exprDepthMax ≤ (← context).exprDepth then
    errorAt "Expression nested too deeply (max 200 levels)"
    return false
  modify fun c => { c with exprDepth := c.exprDepth + 1 }
  return true

/-- Run `p` one level of nesting deeper. -/
def nested (p : P Unit) : P Unit := do
  if ← exprDepthEnter then
    p
    modify fun c => { c with exprDepth := c.exprDepth - 1 }

/-- A primary expression; `functionExpr` parses a function behind its keyword. -/
def parsePrimaryInner (functionExpr : P Unit) : P Unit := do
  match ← perform .token with
  | .openParenthese =>
      lex
      r.binary 0
      require .closeParenthese "expected ')' after expression"
  | .if =>
      lex
      parseIfExpr r
  | .function =>
      lex
      functionExpr
  | .openBracket =>
      lex
      parseArray r
  | .openBrace =>
      lex
      parseDict r
  | .integer => parseConstant (← perform (.makeInt (← perform .tokenInt)))
  | .real => parseConstant (aerReal (← perform .tokenReal))
  | .true | .false => parseConstant (aerBool (← perform .tokenBool))
  | .null => parseConstant .null
  | .string => parseString r
  | .identifier => if ← atModuleName then parseModuleCall r else parseName r
  | .break | .continue | .return | .defer =>
      errorAt "'break', 'continue', 'return', and 'defer' are statements and cannot be used as expressions"
  | _ => errorAt "Expected a value"

def parsePrimary (functionExpr : P Unit) : P Unit := nested (parsePrimaryInner r functionExpr)

def parseUnaryInner (functionExpr : P Unit) : P Unit := do
  if ← consume .not then
    r.unary
    emitOp .not
  else if ← consume .bitwiseNot then
    r.unary
    emitOp .bitwiseNot
  else if ← consume .subtract then
    r.unary
    emitOp .negate
  else parsePrimary r functionExpr

def parseUnary (functionExpr : P Unit) : P Unit := nested (parseUnaryInner r functionExpr)

end Expressions

end Aer.Compiler
