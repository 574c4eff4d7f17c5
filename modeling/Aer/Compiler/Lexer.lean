import Aer.Data.Double

set_option linter.all false

/-! The lexer: one token a call, with indentation turned into INDENT and DEDENT. -/
namespace Aer.Compiler

open Aer.Data

/-- The token types, in the order of their numbers; the binary operators come first. -/
inductive TokenType
  | or | pipe | and | bitwiseOr | bitwiseXor | bitwiseAnd | equal | notEqual
  | less | greater | lessEqual | greaterEqual | isIn | leftShift | rightShift
  | add | subtract | multiply | divide | modulo | floorDivide | as
  | assign | addAssign | subtractAssign | multiplyAssign | divideAssign | moduloAssign
  | floorDivideAssign | leftShiftAssign | rightShiftAssign | andAssign | orAssign | xorAssign
  | not | bitwiseNot
  | openParenthese | closeParenthese | openBracket | closeBracket | openBrace | closeBrace
  | colon | dot | dotDot
  | identifier | integer | real | true | false | string
  | if | else | for | struct | function | return | break | continue | null | import | defer | comma
  | indent | dedent | newLine | endOfFile | error
  deriving DecidableEq, Inhabited

/-- What a literal or a name leaves in `token.value`. -/
inductive Literal
  | integer (n : Int)
  | real (d : Double)
  | boolean (b : Bool)
  | string (text : Bytes)

/-- A source text and what is left of it at the cursor. -/
structure File where
  name : Bytes
  start : Bytes
  buffer : Bytes
  deriving Inhabited

structure Lexer where
  file : File
  /-- The open indentation levels, innermost first. -/
  indentStack : List Nat
  pendingDedents : Int
  atLineStart : Bool
  bracketDepth : Nat
  deriving Inhabited

/-- A message, and whether it comes with the source line it is about. -/
structure Report where
  located : Bool
  file : File
  msg : Bytes

/-- The outcome of one call: a missing type or value leaves that of the last token. -/
structure Lexed where
  lexer : Lexer
  type : Option TokenType
  value : Option Literal := none
  reports : List Report := []

/-- The text of a file as it is kept: up to the first NUL, without carriage returns. -/
def normalize (text : Bytes) : Bytes :=
  (cString text).filter (· ≠ byte '\r')

def File.open (name text : Bytes) : File := ⟨name, normalize text, normalize text⟩

namespace File

/-- The text between the start and the cursor. -/
def consumed (f : File) : Bytes := f.start.take (f.start.length - f.buffer.length)

def line (f : File) : Nat := 1 + f.consumed.count (byte '\n')

/-- The line the cursor is in, with the column of the cursor. -/
def sourceLine (f : File) : Bytes × Nat :=
  let before := (f.consumed.reverse.takeWhile (· ≠ byte '\n')).reverse
  (before ++ f.buffer.takeWhile (· ≠ byte '\n'), before.length)

end File

def errorMsgMax : Nat := 2048

/-- The text `error()` and `error_at()` hand to the error callback. -/
def Report.text (r : Report) : Bytes :=
  let (line, col) := r.file.sourceLine
  let context := natText r.file.line ++ bytes " | " ++ line ++ bytes "\n    " ++
    List.replicate col (byte ' ') ++ bytes "^\n"
  ((if r.located then context else []) ++ bytes "Error: " ++ r.msg ++ bytes "\n").take
    (errorMsgMax - 1)

namespace Lexer

/-- A lexer at the start of a file. -/
def start (f : File) : Lexer := ⟨f, [0], 0, Bool.true, 0⟩

def buffer (l : Lexer) : Bytes := l.file.buffer

def char (l : Lexer) (i : Nat) : UInt8 := l.buffer.getD i 0

def setBuffer (l : Lexer) (b : Bytes) : Lexer := { l with file := { l.file with buffer := b } }

def advance (l : Lexer) (n : Nat) : Lexer := l.setBuffer (l.buffer.drop n)

def report (l : Lexer) (msg : Bytes) : Report := ⟨Bool.true, l.file, msg⟩

def emit (l : Lexer) (type : TokenType) (length : Nat) : Lexed :=
  { lexer := l.advance length, type := some type }

def emitValue (l : Lexer) (type : TokenType) (value : Literal) (length : Nat)
    (reports : List Report) : Lexed :=
  { lexer := l.advance length, type := some type, value := some value, reports }

/-! Blanks, comments and newlines that do not end a statement. -/

def isBlank (c : UInt8) : Bool := c == byte ' ' || c == byte '\t'

def skipComment (b : Bytes) : Bytes := b.dropWhile (· ≠ byte '\n')

/-- The text behind a newline that is skipped inside brackets, or behind a comment. -/
def skipOne (inBrackets : Bool) (b : Bytes) : Option Bytes :=
  match b with
  | c :: rest =>
      if c = byte '\n' ∧ inBrackets then some rest
      else if c = byte '#' then some (skipComment b)
      else none
  | [] => none

def skipBlanks (inBrackets : Bool) : Nat → Bytes → Bytes
  | 0, b => b
  | n + 1, b =>
      let b := b.dropWhile isBlank
      match skipOne inBrackets b with
      | some rest => skipBlanks inBrackets n rest
      | none => b

def skipWhitespaceAndComments (l : Lexer) : Lexer :=
  l.setBuffer (skipBlanks (0 < l.bracketDepth) (l.buffer.length + 1) l.buffer)

/-! Numbers. -/

def isWordStart (c : UInt8) : Bool := isAlpha c || c == byte '_'

def isWord (c : UInt8) : Bool := isWordStart c || isDigit c

/-- The value of a literal that fits 64 bits, else the largest one. -/
def saturate (n : Nat) : Int := min (2 ^ 63 - 1) n

/-- The length of an exponent part; without digits it is not part of the number. -/
def expoLength (b : Bytes) : Nat :=
  if (b.getD 0 0 == byte 'e' || b.getD 0 0 == byte 'E') then
    let sign := if (b.getD 1 0 == byte '+' || b.getD 1 0 == byte '-') then 1 else 0
    match ((b.drop (1 + sign)).takeWhile isDigit).length with
    | 0 => 0
    | n => 1 + sign + n
  else 0

/-- The number of bytes `strtod` reads of a text that begins with a digit and is no
hexadecimal number. -/
def realLength (b : Bytes) : Nat :=
  let (whole, part, rest) := Double.splitPoint isDigit b
  let mark := if b.getD whole.length 0 == byte '.' then 1 else 0
  whole.length + mark + part.length + expoLength rest

/-- The reports of an integer literal with these digits and this end. -/
def integerReports (l : Lexer) (n length : Nat) : List Report :=
  (if 2 ^ 63 ≤ n then [l.report (bytes "Integer literal overflow")] else []) ++
    if isWordStart (l.char length) then
      [l.report (bytes "Invalid character after integer literal")] else []

def lexHex (l : Lexer) : Lexed :=
  if isDigitOf 16 (l.char 2) then
    let digits := (l.buffer.drop 2).takeWhile (isDigitOf 16)
    let n := digitsVal 16 digits
    l.emitValue .integer (.integer (saturate n)) (2 + digits.length)
      (l.integerReports n (2 + digits.length))
  else
    { l.emit .error 2 with reports := [l.report (bytes "Expected hex digits after '0x'")] }

def lexNumber (l : Lexer) : Lexed :=
  if l.char 0 = byte '0' ∧ (l.char 1 = byte 'x' ∨ l.char 1 = byte 'X') then l.lexHex
  else
    let digits := l.buffer.takeWhile isDigit
    let n := digitsVal 10 digits
    let intLen := digits.length
    let overflow := if 2 ^ 63 ≤ n then [l.report (bytes "Integer literal overflow")] else []
    if l.char intLen ≠ byte '.' ∨ l.char (intLen + 1) = byte '.' then
      l.emitValue .integer (.integer (saturate n)) intLen (l.integerReports n intLen)
    else
      let len := realLength l.buffer
      l.emitValue .real (.real (.strtod l.buffer)) len
        (overflow ++
          (if len ≤ intLen + 1 then [l.report (bytes "Expected digit after '.'")] else []) ++
          if isWordStart (l.char len) then
            [l.report (bytes "Invalid character after float literal")] else [])

/-! Names, keywords and strings. -/

def keywords : List (Bytes × TokenType) :=
  [(bytes "if", .if), (bytes "else", .else), (bytes "for", .for), (bytes "in", .isIn),
    (bytes "as", .as), (bytes "struct", .struct), (bytes "function", .function),
    (bytes "return", .return), (bytes "break", .break), (bytes "continue", .continue),
    (bytes "null", .null), (bytes "import", .import), (bytes "defer", .defer)]

def lexIdentifier (l : Lexer) : Lexed :=
  let word := l.buffer.takeWhile isWord
  if word = bytes "true" then l.emitValue .true (.boolean Bool.true) 4 []
  else if word = bytes "false" then l.emitValue .false (.boolean Bool.false) 5 []
  else
    match keywords.find? fun k => k.1 == word with
    | some (_, type) => l.emit type word.length
    | none => l.emitValue .identifier (.string word) word.length []

/-- The length of a string literal's text: up to a quote, a newline or the end. -/
def stringLength : Bytes → Nat
  | [] => 0
  | c :: rest =>
      if c = byte '"' ∨ c = byte '\n' then 0
      else if c = byte '\\' then
        match rest with
        | _ :: rest => stringLength rest + 2
        | [] => 1
      else stringLength rest + 1

def lexString (l : Lexer) : Lexed :=
  let l := l.advance 1
  let length := stringLength l.buffer
  let stop := l.advance length
  if stop.char 0 = byte '"' then
    { lexer := stop.advance 1, type := some .string, value := some (.string (l.buffer.take length)) }
  else
    { lexer := stop, type := none, reports := [stop.report (bytes "Unterminated string")] }

/-- The length of a triple-quoted string's text, and whether its end was found. -/
def multilineLength : Bytes → Nat × Bool
  | [] => (0, Bool.false)
  | c :: rest =>
      if c = byte '"' ∧ rest.getD 0 0 = byte '"' ∧ rest.getD 1 0 = byte '"' then (0, Bool.true)
      else
        let (n, found) := multilineLength rest
        (n + 1, found)

def lexMultilineString (l : Lexer) : Lexed :=
  let l := l.advance 3
  let (length, found) := multilineLength l.buffer
  let stop := l.advance length
  if found then
    { lexer := stop.advance 3, type := some .string, value := some (.string (l.buffer.take length)) }
  else
    { lexer := stop, type := none, reports := [stop.report (bytes "Unterminated multi-line string")] }

/-! Operators and punctuation. -/

/-- Longer operators stand before their prefixes. -/
def operators : List (Bytes × TokenType) :=
  [(bytes ",", .comma), (bytes "(", .openParenthese), (bytes ")", .closeParenthese),
    (bytes "[", .openBracket), (bytes "]", .closeBracket), (bytes "\x7b", .openBrace),
    (bytes "\x7d", .closeBrace), (bytes ":", .colon), (bytes "..", .dotDot), (bytes ".", .dot),
    (bytes "~", .bitwiseNot), (bytes "*=", .multiplyAssign), (bytes "*", .multiply),
    (bytes "//=", .floorDivideAssign), (bytes "//", .floorDivide), (bytes "/=", .divideAssign),
    (bytes "/", .divide), (bytes "%=", .moduloAssign), (bytes "%", .modulo),
    (bytes "+=", .addAssign), (bytes "+", .add), (bytes "-=", .subtractAssign),
    (bytes "-", .subtract), (bytes "!=", .notEqual), (bytes "!", .not), (bytes "==", .equal),
    (bytes "=", .assign), (bytes "<<=", .leftShiftAssign), (bytes "<<", .leftShift),
    (bytes "<=", .lessEqual), (bytes "<", .less), (bytes ">>=", .rightShiftAssign),
    (bytes ">>", .rightShift), (bytes ">=", .greaterEqual), (bytes ">", .greater),
    (bytes "&&", .and), (bytes "&=", .andAssign), (bytes "&", .bitwiseAnd), (bytes "||", .or),
    (bytes "|>", .pipe), (bytes "|=", .orAssign), (bytes "|", .bitwiseOr),
    (bytes "^=", .xorAssign), (bytes "^", .bitwiseXor)]

/-- The bracket depth behind a token. -/
def bracketAfter (depth : Nat) : TokenType → Nat
  | .openParenthese | .openBracket | .openBrace => depth + 1
  | .closeParenthese | .closeBracket | .closeBrace => depth - 1
  | _ => depth

def lexEnd (l : Lexer) : Lexed :=
  match l.indentStack with
  | _ :: outer :: rest =>
      -- No trailing newline: the open levels are flushed.
      { lexer := { l with pendingDedents := (outer :: rest).length - 1, indentStack := [0] }
        type := some .dedent }
  | _ => l.emit .endOfFile 0

/-- The token behind blanks and comments. -/
def lexToken (l : Lexer) : Lexed :=
  match l.buffer with
  | [] => l.lexEnd
  | c :: _ =>
      if isDigit c then l.lexNumber
      else if isWordStart c then l.lexIdentifier
      else if c = byte '"' then
        if l.char 1 = byte '"' ∧ l.char 2 = byte '"' then l.lexMultilineString else l.lexString
      else if c = byte '\n' then ({ l with atLineStart := Bool.true } : Lexer).emit .newLine 1
      else
        match operators.find? fun o => o.1.isPrefixOf l.buffer with
        | some (text, type) =>
            ({ l with bracketDepth := bracketAfter l.bracketDepth type } : Lexer).emit type text.length
        | none =>
            { l.emit .error 1 with
              reports := [l.report (bytes "Unknown character: '" ++ [c] ++ bytes "'")] }

/-! Indentation. -/

def isSpaceChar (c : UInt8) : Bool := c == byte ' '

/-- The text behind a line that is blank or holds only a comment. -/
def skipLine (b : Bytes) : Option Bytes :=
  let p := b.dropWhile isSpaceChar
  match (if p.getD 0 0 = byte '#' then skipComment p else p) with
  | c :: rest => if c = byte '\n' then some rest else none
  | [] => none

def skipLines : Nat → Bytes → Bytes
  | 0, b => b
  | n + 1, b =>
      match skipLine b with
      | some rest => skipLines n rest
      | none => b

def indentMax : Nat := 64

/-- The levels left when those deeper than `spaces` are closed; the bottom one stays. -/
def closeLevels (spaces : Nat) : List Nat → List Nat
  | top :: outer :: rest => if spaces < top then closeLevels spaces (outer :: rest) else top :: outer :: rest
  | stack => stack

/-- Close the levels deeper than `spaces`. -/
def dedentTo (l : Lexer) (spaces : Nat) : Lexed :=
  let stack := closeLevels spaces l.indentStack
  let pops : Int := (l.indentStack.length : Int) - stack.length
  let atEnd := l.buffer.isEmpty
  if !atEnd ∧ 1 < stack.length ∧ stack.headD 0 ≠ spaces then
    let l := { l with indentStack := stack }
    { lexer := l, type := none,
      reports := [l.report (bytes "Indentation does not match any outer level")] }
  else
    { lexer := { l with indentStack := if atEnd then [0] else stack, pendingDedents := pops - 1 }
      type := some .dedent }

/-- Compare the indentation of a line with the open levels. -/
def lexIndent (l : Lexer) : Lexed :=
  let spaces := (l.buffer.takeWhile isSpaceChar).length
  let behind := l.advance spaces
  let top := l.indentStack.headD 0
  if behind.char 0 = byte '\t' then
    { lexer := l, type := none, reports := [l.report (bytes "Tabs not allowed for indentation")] }
  else if !behind.buffer.isEmpty ∧ top < spaces then
    if indentMax ≤ l.indentStack.length then
      { lexer := l, type := none, reports := [⟨Bool.false, l.file, bytes "Indentation too deep"⟩] }
    else
      { lexer := { behind with indentStack := spaces :: l.indentStack }, type := some .indent }
  else if spaces < top ∨ behind.buffer.isEmpty ∧ 1 < l.indentStack.length then
    behind.dedentTo spaces
  else behind.skipWhitespaceAndComments.lexToken

def lex (l : Lexer) : Lexed :=
  if 0 < l.pendingDedents then
    { lexer := { l with pendingDedents := l.pendingDedents - 1 }, type := some .dedent }
  else if l.atLineStart then
    ({ l with atLineStart := Bool.false } : Lexer).setBuffer
      (skipLines (l.buffer.length + 1) l.buffer) |>.lexIndent
  else l.skipWhitespaceAndComments.lexToken

/-- The next `n` token types, a repeated one where the lexer sets none. -/
def types : Nat → Lexer → List (Option TokenType)
  | 0, _ => []
  | n + 1, l => l.lex.type :: types n l.lex.lexer

example : (start (.open [] (bytes "if x:\n  y=1\n"))).types 10 =
    [some .if, some .identifier, some .colon, some .newLine, some .indent, some .identifier,
      some .assign, some .integer, some .newLine, some .dedent] := by decide

end Lexer

end Aer.Compiler
