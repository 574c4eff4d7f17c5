import Aer.Compiler.Expressions

set_option linter.all false

/-! The parser of functions and statements. -/
namespace Aer.Compiler

open Aer.Data Aer.Machine

/-! Blocks and the recovery from errors. -/

/-- Go on to the end of the line or of the block; the tokens `stops` end it too. -/
def skipLine (fuel : Nat) (stops : List TokenType) : P Unit :=
  loop (fun _ => do
    if (.endOfFile :: .newLine :: .dedent :: stops).contains (← perform .token) then return .inr ()
    else
      lex
      return .inl ()) fuel ()

/-- Swallow the indented block that a failed line has introduced. -/
def skipOrphanedBlock (fuel : Nat) : P Unit := do
  if ← consume .newLine then
    if ← equal .indent then
      loop (fun depth => do
        let depth ←
          if ← equal .indent then pure (depth + 1)
          else if ← equal .dedent then pure (depth - 1)
          else pure depth
        lex
        if 0 < depth then
          if ← equal .endOfFile then return .inr () else return .inl depth
        else return .inr ()) fuel 0

/-- Undo the code of a failed statement and go on behind it, unless a nested block has
already got to the next statement. -/
def recover (fuel : Nat) (stops : List TokenType) (saved savedMarks : Nat) : P Unit := do
  perform (.truncate saved savedMarks)
  unless (← context).recoveredAtBoundary do
    skipLine fuel stops
    skipOrphanedBlock fuel

/-- A statement of the file or of a block; answers where its code and its line marks
begin. -/
def parseLine (statement : P Unit) : P (Nat × Nat) := do
  perform .beginStatement
  let saved ← count
  let savedMarks ← perform .markCount
  perform .markLine
  statement
  return (saved, savedMarks)

section Statements
variable (r : Parsers)

def parseCompound : P Unit := do
  require .newLine "expected newline before indented block"
  require .indent "expected indented block"
  loop (fun _ => do
    if [TokenType.endOfFile, .else, .dedent].contains (← perform .token) then return .inr ()
    else if ← consume .newLine then return .inl ()
    else
      let (saved, savedMarks) ← parseLine r.statement
      if ← perform .hadError then recover r.fuel [.else] saved savedMarks
      return .inl ()) r.fuel ()
  let _ ← consume .dedent
  modify fun c => { c with recoveredAtBoundary := true }

/-- A block in a scope of its own. -/
def parseScopedCompound : P Unit := do
  modify fun c => { c with compileScopeDepth := c.compileScopeDepth + 1 }
  emitOp .pushScope
  parseCompound r
  emitOp .popScope
  modify fun c => { c with compileScopeDepth := c.compileScopeDepth - 1 }

/-! Functions. -/

/-- A literal value, negated or not, as the default of a field or a parameter. -/
def parseLiteralDefault : P (Option AerVal) := do
  let negative ← consume .subtract
  let v : Option AerVal ←
    match ← perform .token with
    | .integer => do
        let n ← perform .tokenInt
        pure (some (← perform (.makeInt (if negative then -n else n))))
    | .real => do
        let d ← perform .tokenReal
        pure (some (aerReal (if negative then d.neg else d)))
    | type => do
        if negative then pure none
        else
          match type with
          | .true | .false => pure (some (aerBool (← perform .tokenBool)))
          | .null => pure (some .null)
          | .string => pure (some (← perform (.makeString (← perform .tokenText))))
          | _ => pure none
  if v.isSome then lex
  return v

/-- A parameter list while it is parsed. -/
structure ParamList where
  params : List Nat
  minArity : Nat
  /-- The pool indices of the defaults, of the parameters from `minArity` on. -/
  defaults : List Nat
  receiver : Option Nat

structure FunctionSig where
  funcStart : Nat
  arity : Nat
  minArity : Nat
  defaults : List Nat
  receiver : Option Nat

/-- What a failed signature leaves. -/
def FunctionSig.zero : FunctionSig := ⟨0, 0, 0, [], none⟩

/-- The struct type of the first parameter; `none` after an error. -/
def parseReceiver (l : ParamList) : P (Option (Option Nat)) := do
  if ← consume .as then
    if l.params.length ≠ 0 then
      errorAt "A struct-type parameter ('as Type') is only allowed on the first parameter"
      return none
    else if ← equal .identifier then
      let type ← poolToken
      lex
      return some (some type)
    else
      errorAt "Expected a struct type name after 'as'"
      return none
  else return some l.receiver

/-- The default of a parameter, or its absence; `none` after an error. -/
def parseParamDefault (l : ParamList) : P (Option ParamList) := do
  if ← consume .assign then
    match ← parseLiteralDefault with
    | some dflt =>
        let i ← addPool dflt
        return some { l with defaults := l.defaults ++ [i] }
    | none =>
        errorAt "Parameter defaults must be a literal value"
        return none
  else if l.defaults ≠ [] then
    errorAt "A parameter without a default cannot follow one that has a default"
    return none
  else return some { l with minArity := l.minArity + 1 }

/-- One parameter; `none` after an error. -/
def parseParam (l : ParamList) : P (Option ParamList) := do
  if ← equal .identifier then
    if maxParams ≤ l.params.length then
      errorAt "Too many parameters"
      return none
    else
      let name ← poolToken
      lex
      match ← parseReceiver l with
      | none => return none
      | some receiver =>
          match ← parseParamDefault { l with receiver } with
          | none => return none
          | some l => return some { l with params := l.params ++ [name] }
  else
    errorAt "Expected parameter name"
    return none

def parseParams : P (Option ParamList) := do
  if ← equal .closeParenthese then return some ⟨[], 0, [], none⟩
  else
    loop (fun l => do
      match ← parseParam l with
      | none => return .inr none
      | some l => if ← consume .comma then return .inl l else return .inr (some l))
      r.fuel ⟨[], 0, [], none⟩

/-- Note that a call may be left at the offset `back` words before the end. -/
def noteExit (back : Nat) : P Unit := do
  perform (.note (.exit ((← count) - back) (← context).openSlots))

def emitReturn : P Unit := do
  noteExit 0
  emitOp .ret

/-- The code of a function, behind its parameters; answers where it begins. -/
def parseFunctionCode (params : List Nat) : P Nat := do
  let patch ← emitJump .jump
  let funcStart ← count
  -- A closure sees the locals of the function around it.
  if (← context).functionDepth = 0 then modify fun c => { c with outerLocals := [] }
  let saved ← context
  modify fun c =>
    { c with
      loopFloor := c.loopDepth
      functionDepth := c.functionDepth + 1
      currentParams := []
      compileScopeDepth := c.compileScopeDepth + 1 }
  emitOp .pushScope
  emitDefineParams params.reverse
  parseCompound r
  modify fun c => { c with compileScopeDepth := c.compileScopeDepth - 1 }
  emitPush .null
  emitReturn
  modify fun c =>
    { c with
      currentParams := saved.currentParams
      functionDepth := c.functionDepth - 1
      loopDepth := saved.loopDepth
      loopFloor := saved.loopFloor }
  patchHere patch
  return funcStart

def parseFunctionBody : P FunctionSig := do
  require .openParenthese "expected '(' after function name"
  match ← parseParams r with
  | none => return .zero
  | some l =>
      require .closeParenthese "expected ')' after parameters"
      require .colon "expected ':' after function signature"
      let funcStart ← parseFunctionCode r l.params
      return ⟨funcStart, l.params.length, l.minArity, l.defaults, l.receiver⟩

def poolVals : List Nat → P (List AerVal)
  | [] => return []
  | i :: is => do
      let v ← perform (.poolVal i)
      return v :: (← poolVals is)

def emitPlainFunctionValue (sig : FunctionSig) : P Unit := do
  let v ← perform (.makeFunction
    { codeOffset := sig.funcStart
      arity := sig.arity
      minArity := sig.minArity
      defaults := ← poolVals sig.defaults
      hasReceiver := sig.receiver.isSome
      receiverType := sig.receiver.getD 0
      upvalues := [] })
  emitPush v

def emitCaptures : List Nat → P Unit
  | [] => return
  | name :: names => do
      emitOp .capture
      emitNat name
      emitCaptures names

def emitClosure (sig : FunctionSig) (captured : List Nat) : P Unit := do
  emitCaptures captured
  emitOp .makeClosure
  emitNat sig.funcStart
  emitNat sig.arity
  emitNat sig.minArity
  emitNat (if sig.receiver.isSome then 1 else 0)
  emitNat (sig.receiver.getD 0)
  emitNat captured.length
  emitWords (sig.defaults.map fun i => (i : Int))

/-- Compile with other capture settings, and restore them; `p` answers what it has
captured last. -/
def withCapture {α : Type} (change : Context → Context) (p : P α) : P α := do
  let saved ← context
  modify change
  let a ← p
  modify fun c => { c with capturing := saved.capturing, captureCtx := saved.captureCtx }
  return a

def nestedFunction : String :=
  "Nested named function definitions are not supported — define an anonymous " ++
    "function instead (f = function(...): ...), or define this at the top level."

def parseFunction : P Unit := do
  let isNested := 0 < (← context).functionDepth
  if isNested then errorAt nestedFunction
  if ← equal .identifier then
    let name ← poolToken
    lex
    let sig ← withCapture (fun c => { c with capturing := false }) (parseFunctionBody r)
    if isNested then perform .raise
    else
      emitPlainFunctionValue sig
      emitOp .store
      emitNat name
      emitNat (← addAddrCache)
  else errorAt "Expected function name"

/-- A function expression; only one directly inside a named function, or inside a
function expression of the top level, captures. -/
def parseFunctionExpr : P Unit := do
  let supported : Bool := (← context).functionDepth = 1
  withCapture
    (fun c =>
      { c with
        capturing := supported
        captureCtx := if supported then ⟨[], []⟩ else c.captureCtx })
    (do
      let sig ← parseFunctionBody r
      let captured := (← context).captureCtx.capturedNames
      if supported ∧ captured ≠ [] then emitClosure sig captured
      else emitPlainFunctionValue sig)

def parseDefer : P Unit := do
  if (← context).functionDepth = 0 then errorAt "'defer' outside function"
  else if ← equal .identifier then
    let name ← poolToken
    lex
    require .openParenthese "expected '(' after deferred function name"
    let n ← parseArgList r
    if maxDeferArgs < n then errorAt "Too many arguments to a deferred call (max 8)"
    else
      emitOp .deferPush
      emitNat name
      emitNat n
  else errorAt "Expected a function name after 'defer'"

def parseReturn : P Unit := do
  if (← context).functionDepth = 0 then errorAt "'return' outside function"
  else
    if [TokenType.newLine, .endOfFile, .dedent].contains (← perform .token) then emitPush .null
    else
      let n ← parseList r
      if 1 < n then
        emitOp .arrayNew
        emitNat n
      else
        let stop ← count
        if (← context).lastBareCallEnd = some stop then
          -- The whole expression is one call.
          noteExit 4
          perform (.patch (stop - 4) Opcode.tailCall.word)
    emitReturn

/-! Assignments. -/

/-- The operators of compound assignments. -/
def compoundOperator : TokenType → Option Opcode
  | .addAssign => some .add
  | .subtractAssign => some .sub
  | .multiplyAssign => some .mul
  | .divideAssign => some .div
  | .moduloAssign => some .mod
  | .leftShiftAssign => some .lshift
  | .rightShiftAssign => some .rshift
  | .andAssign => some .bitwiseAnd
  | .orAssign => some .bitwiseOr
  | .xorAssign => some .bitwiseXor
  | .floorDivideAssign => some .floorDiv
  | _ => none

/-- Drop the value of an expression statement, or show it in the shell. -/
def emitDiscard : P Unit := do
  emitOp (if (← perform .mode) = .shell then .printRepl else .pop)

/-- The last step of an access path, which is read or written once it is known. -/
inductive PendingStep
  | index
  | field (idx : Nat)

def PendingStep.emitGet : PendingStep → P Unit
  | index => emitOp .indexGet
  | field idx => do
      emitOp .fieldGet
      emitNat idx

def PendingStep.emitSet : PendingStep → P Unit
  | index => emitOp .indexSet
  | field idx => do
      emitOp .fieldSet
      emitNat idx

/-- One step of an access path; `none` after an error. -/
def parseStep : P (Option PendingStep) := do
  if ← consume .openBracket then
    r.binary 0
    require .closeBracket "expected ']' after index"
    return some .index
  else
    let _ ← consume .dot
    if ← equal .identifier then
      let field ← poolToken
      lex
      return some (.field field)
    else
      errorAt "Expected field name after '.'"
      return none

/-- The steps of an access path up to the last, which stays pending. -/
def parseSteps : P (Option PendingStep) := do
  match ← parseStep r with
  | none => return none
  | some step =>
      loop (fun step => do
        if [TokenType.openBracket, .dot].contains (← perform .token) then
          PendingStep.emitGet step
          match ← parseStep r with
          | none => return .inr none
          | some step => return .inl step
        else return .inr (some step)) r.fuel step

/-- An assignment to an element or a field, or an expression that begins with one. -/
def parsePathStatement (name : Nat) : P Unit := do
  emitLoad name
  match ← parseSteps r with
  | none => return
  | some step =>
      if ← consume .assign then
        r.binary 0
        step.emitSet
      else if [TokenType.openParenthese, .pipe].contains (← perform .token) then
        step.emitGet
        if ← parsePostfix r then
          parseBinaryOps r 0
          emitDiscard
      else
        errorAt
          "Compound assignment to an indexed or field value is not supported; use 'a.x = a.x + 1'"

/-- The further targets of a destructuring; `none` after an error. -/
def parseTargets (first : Nat) : P (Option (List Nat)) :=
  loop (fun names => do
    if ← equal .identifier then
      if maxDestruct ≤ names.length then
        errorAt "Too many destructuring targets"
        return .inr none
      else
        let name ← poolToken
        lex
        if ← consume .comma then return .inl (names ++ [name])
        else return .inr (some (names ++ [name]))
    else
      errorAt "Expected identifier in destructuring"
      return .inr none) r.fuel [first]

def emitUnpack : Nat → List Nat → P Unit
  | _, [] => return
  | i, name :: names => do
      emitOp .unpack
      emitNat i
      emitStore name
      emitUnpack (i + 1) names

def parseDestructuring (first : Nat) : P Unit := do
  match ← parseTargets r first with
  | none => return
  | some names =>
      require .assign "expected '=' after destructuring targets"
      let n ← parseList r
      if 1 < n then
        emitOp .arrayNew
        emitNat n
      emitUnpack 0 names
      emitOp .pop

def parseCompoundAssignment (name : Nat) (op : Opcode) : P Unit := do
  let lhsStart ← count
  emitLoad name
  let rhsStart ← count
  r.binary 0
  let stop ← count
  let lhs := classifyOperand (← perform (.segment lhsStart rhsStart))
  let rhs := classifyOperand (← perform (.segment rhsStart stop))
  match compoundWords op lhs rhs with
  | some ws => reemit lhsStart ws
  | none =>
      emitOp op
      emitStore name

def parseAssignment : P Unit := do
  let name ← poolToken
  lex
  match ← perform .token with
  | .openParenthese =>
      lex
      parseCallArgs r name
      emitDiscard
  | .openBracket | .dot => parsePathStatement r name
  | .comma =>
      lex
      parseDestructuring r name
  | .assign =>
      lex
      r.binary 0
      emitStore name
  | .pipe =>
      emitLoad name
      parseBinaryOps r 0
      emitDiscard
  | type =>
      match compoundOperator type with
      | some op =>
          lex
          parseCompoundAssignment r name op
      | none => errorAt "Expected assignment operator after identifier"

/-! Control flow. -/

def parseIf : P Unit := do
  r.binary 0
  require .colon "expected ':' after if condition"
  let jif ← emitJump .jumpIfFalse
  parseScopedCompound r
  if ← consume .else then
    modify fun c => { c with recoveredAtBoundary := false }
    require .colon "expected ':' after else"
    let jmp ← emitJump .jump
    patchHere jif
    parseScopedCompound r
    patchHere jmp
  else patchHere jif

def patchAll (target : Nat) : List Nat → P Unit
  | [] => return
  | i :: is => do
      perform (.patch i target)
      patchAll target is

/-- Change the context of loop `i`. -/
def modifyLoop (i : Nat) (f : LoopContext → LoopContext) : P Unit :=
  modify fun c => c.setLoop i (f (c.loopStack i))

def leaveLoop : P Unit := modify fun c => { c with loopDepth := c.loopDepth - 1 }

/-- The end of loop `i`: the jump back, and the targets of its exits. -/
def finishLoop (i patchExit : Nat) : P Unit := do
  emitOp .jump
  emitNat ((← context).loopStack i).top
  patchHere patchExit
  patchAll (← count) ((← context).loopStack i).patches
  leaveLoop

/-- Report an error in the header of a loop. -/
def failLoop (msg : String) : P Unit := do
  errorAt msg
  leaveLoop

/-- The collection or the range of a `for` clause; answers the iterator slots, or
`none` after an error. -/
def parseIterator (isPair : Bool) : P (Option Nat) := do
  r.binary 0
  if ← consume .dotDot then
    if isPair then
      failLoop "Range does not support two loop variables"
      return none
    else
      r.binary 0
      if ← consume .dotDot then r.binary 0 else emitPush (← perform (.makeInt 1))
      return some 3
  else
    emitPush (← perform (.makeInt 0))
    return some 2

/-- The loop over a collection, behind `in`. -/
def parseForIn (i name1 : Nat) (name2 : Option Nat) : P Unit := do
  match ← parseIterator r name2.isSome with
  | none => return
  | some slots =>
      require .colon "expected ':' after for clause"
      if ← perform .hadError then leaveLoop
      else
        let top ← count
        modifyLoop i fun l => { l with iterSlots := slots, top := top }
        let patchExit ← emitJump
          (if slots = 3 then .iterRange else if name2.isSome then .iterNextPair else .iterNext)
        match name2 with
        | some name2 =>
            emitDefine name2
            emitDefine name1
        | none => emitDefine name1
        parseScopedCompound r
        finishLoop i patchExit

/-- The body of a loop on a condition. -/
def parseWhileBody (i : Nat) : P Unit := do
  require .colon "expected ':' after while condition"
  if ← perform .hadError then leaveLoop
  else
    let patchExit ← emitJump .jumpIfFalse
    parseCompound r
    finishLoop i patchExit

/-- The loop on a condition that begins with a name. -/
def parseWhileName (i name : Nat) : P Unit := do
  let top ← count
  modifyLoop i fun l => { l with top := top }
  emitLoad name
  -- After an error the loop stays open.
  if ← parsePostfix r then
    parseBinaryOps r 0
    parseWhileBody r i

/-- The second variable of a loop over pairs; `none` after an error. -/
def parseSecondName : P (Option (Option Nat)) := do
  if ← consume .comma then
    if ← equal .identifier then
      let name ← poolToken
      lex
      return some (some name)
    else
      failLoop "Expected identifier after ','"
      return none
  else return some none

def parseFor : P Unit := do
  let i := (← context).loopDepth
  if loopMax ≤ i then errorAt "Too many nested loops"
  else
    modify fun c =>
      { c.setLoop i
          { c.loopStack i with patches := [], scopeDepth := c.compileScopeDepth, iterSlots := 0 } with
        loopDepth := i + 1 }
    if ← equal .isIn then
      failLoop "Expected loop variable name before 'in'; use 'for x in collection:'"
    else if ← equal .identifier then
      let name1 ← poolToken
      lex
      match ← parseSecondName with
      | none => return
      | some name2 =>
          if ← consume .isIn then parseForIn r i name1 name2
          else parseWhileName r i name1
    else
      let top ← count
      modifyLoop i fun l => { l with top := top }
      r.binary 0
      parseWhileBody r i

def emitTimes (o : Opcode) : Nat → P Unit
  | 0 => return
  | n + 1 => do
      emitOp o
      emitTimes o n

def parseBreak : P Unit := do
  let c ← context
  if c.loopDepth = c.loopFloor then errorAt "'break' outside loop"
  else
    let i := c.loopDepth - 1
    emitTimes .popScope (c.compileScopeDepth - c.loop.scopeDepth)
    emitTimes .pop c.loop.iterSlots
    emitOp .jump
    if breakMax ≤ c.loop.patches.length then errorAt "Too many breaks in one loop"
    else
      let patch ← count
      modifyLoop i fun l => { l with patches := l.patches ++ [patch] }
      emitNat 0

def parseContinue : P Unit := do
  let c ← context
  if c.loopDepth = c.loopFloor then errorAt "'continue' outside loop"
  else
    emitTimes .popScope (c.compileScopeDepth - c.loop.scopeDepth)
    emitOp .jump
    emitNat c.loop.top

/-! Structs and imports. -/

/-- The fields of a struct, with their defaults; `none` after an error. -/
def parseFields : P (Option (List (Nat × AerVal))) :=
  loop (fun fields => do
    if [TokenType.endOfFile, .dedent].contains (← perform .token) then return .inr (some fields)
    else if ← consume .newLine then return .inl fields
    else if ← equal .identifier then
      if maxStructFields ≤ fields.length then
        errorAt "Too many struct fields"
        return .inr none
      else
        let name ← poolToken
        lex
        let dflt ← if ← consume .assign then parseLiteralDefault else pure (some .null)
        match dflt with
        | none =>
            errorAt "Struct field defaults must be a literal value"
            return .inr none
        | some dflt =>
            unless [TokenType.dedent, .endOfFile].contains (← perform .token) do
              require .newLine "expected newline after struct field"
            return .inl (fields ++ [(name, dflt)])
    else
      errorAt "Expected field name"
      return .inr none) r.fuel []

def emitFields : List (Nat × AerVal) → P Unit
  | [] => return
  | (name, dflt) :: fields => do
      emitNat name
      emitNat (← addPool dflt)
      emitFields fields

def parseStruct : P Unit := do
  if ← equal .identifier then
    let name ← poolToken
    lex
    require .colon "expected ':' after struct name"
    require .newLine "expected newline before indented struct body"
    require .indent "expected indented struct body"
    match ← parseFields r with
    | none => return
    | some fields =>
        let _ ← consume .dedent
        if fields.isEmpty then errorAt "Struct must have at least one field"
        else
          emitOp .defineStruct
          emitNat name
          emitNat fields.length
          emitFields fields
  else errorAt "Expected struct name"

def importPathMax : Nat := 256

/-- The path of an imported module and its last segment; `none` after an error. -/
def parseImportPath : P (Option (Bytes × Bytes)) :=
  loop (fun path => do
    let seg ← perform .tokenText
    let path := if path.isEmpty then path else path ++ [byte '/']
    if importPathMax ≤ path.length + seg.length then
      errorAt "Import path too long"
      return .inr none
    else
      lex
      if ← consume .dot then
        if ← equal .identifier then return .inl (path ++ seg)
        else
          errorAt "Expected a module name segment after '.'"
          return .inr none
      else return .inr (some (path ++ seg, seg))) r.fuel []

def parseImport : P Unit := do
  if (← context).compileScopeDepth ≠ 0 then
    errorAt
      "'import' is only allowed at the top level of a file, not inside a function, loop, or if block"
  else if ← equal .identifier then
    match ← parseImportPath r with
    | none => return
    | some (path, name) => perform (.addImport name path)
  else errorAt "Expected a module name after 'import'"

/-! Statements. -/

def inStatement : String :=
  "'in' cannot start a statement; use it inside an expression, e.g. 'if x in collection:' or " ++
    "'for x in collection:'"

def parseStatement : P Unit := do
  match ← perform .token with
  | .if =>
      lex
      parseIf r
  | .for =>
      lex
      parseFor r
  | .struct =>
      lex
      parseStruct r
  | .function =>
      lex
      parseFunction r
  | .return =>
      lex
      parseReturn r
  | .break =>
      lex
      parseBreak
  | .continue =>
      lex
      parseContinue
  | .defer =>
      lex
      parseDefer r
  | .import =>
      lex
      parseImport r
  | .identifier =>
      if ← atModuleName then
        parseModuleCall r
        emitDiscard
      else parseAssignment r
  | .isIn => errorAt inStatement
  | _ => errorAt "Expected a statement"

end Statements

/-- The parser with recursive calls nested to a bound. -/
def parsers : Nat → Parsers
  | 0 => ⟨0, stuck, fun _ => stuck, stuck⟩
  | n + 1 =>
      let r := parsers n
      ⟨n + 1, parseStatement r, parseBinary r, parseUnary r (parseFunctionExpr r)⟩

end Aer.Compiler
