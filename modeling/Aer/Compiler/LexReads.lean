import Aer.Compiler.Indentation
import Aer.Lib.Scan
import Mathlib.Data.List.GetD
import Mathlib.Tactic.Tauto

set_option linter.all false

/-! The lexer read by read. A pointer into the source is the text from there on, which
a NUL ends; a read behind that NUL, or a move past it, is an overrun. None happens, and
what the reads come to is the lexer of the other modules. -/
namespace Aer.Compiler.Reads

open Aer.Data Aer.Lib.Scan Aer.Compiler.Lexer

/-- `p[i]` -/
def peek (p : Bytes) (i : Nat) : Outcome UInt8 :=
  if i ≤ p.length then .ok (p.getD i 0) else .error .overrun

/-- `p + n` -/
def move (p : Bytes) (n : Nat) : Outcome Bytes :=
  if n ≤ p.length then .ok (p.drop n) else .error .overrun

/-- `while (test(*p)) p++;` -/
def scanTurn (test : UInt8 → Bool) (p : Bytes) : Outcome (Bytes ⊕ Bytes) := do
  if test (← peek p 0) then return .inl (← move p 1) else return .inr p

def scanWhile (test : UInt8 → Bool) (p : Bytes) : Outcome Bytes :=
  iterate (scanTurn test) (p.length + 1) p

def skipWhitespace (p : Bytes) : Outcome Bytes := scanWhile isBlank p

def skipComment (p : Bytes) : Outcome Bytes := scanWhile (fun c => c != byte '\n' && c != 0) p

def blanksTurn (inBrackets : Bool) (p : Bytes) : Outcome (Bytes ⊕ Bytes) := do
  let p ← skipWhitespace p
  let c ← peek p 0
  if c = byte '\n' ∧ inBrackets then return .inl (← move p 1)
  else if c ≠ byte '#' then return .inr p
  else return .inl (← skipComment p)

def skipWhitespaceAndComments (l : Lexer) : Outcome Lexer := do
  return l.setBuffer (← iterate (blanksTurn (0 < l.bracketDepth)) (l.buffer.length + 1) l.buffer)

/-- `error_at()`, which reads on to the end of the line. -/
def errorAt (l : Lexer) (msg : Bytes) : Outcome Report := do
  let _ ← skipComment l.buffer
  return l.report msg

def errorIf (l : Lexer) (c : Bool) (msg : Bytes) : Outcome (List Report) := do
  if c then return [← errorAt l msg] else return []

def emit (l : Lexer) (type : TokenType) (length : Nat) : Outcome Lexed := do
  return { lexer := l.setBuffer (← move l.buffer length), type := some type }

def emitValue (l : Lexer) (type : TokenType) (value : Literal) (length : Nat)
    (reports : List Report) : Outcome Lexed := do
  let r ← emit l type length
  return { r with value := some value, reports }

/-! Numbers. -/

/-- A literal, read by `strtoll` in a base from behind the first `mark` bytes on. -/
def lexInteger (l : Lexer) (base mark : Nat) : Outcome (Nat × Nat) := do
  let start ← move l.buffer mark
  let stop ← scanWhile (isDigitOf base) start
  let length := start.length - stop.length
  return (digitsVal base (start.take length), mark + length)

/-- The end of an integer literal, with the report of its overflow. -/
def emitInteger (l : Lexer) (n length : Nat) (overflow : List Report) : Outcome Lexed := do
  let behind ← errorIf l (isWordStart (← peek l.buffer length))
    (bytes "Invalid character after integer literal")
  emitValue l .integer (.integer (saturate n)) length (overflow ++ behind)

def lexHex (l : Lexer) : Outcome Lexed := do
  if isDigitOf 16 (← peek l.buffer 2) then
    let (n, length) ← lexInteger l 16 2
    let overflow ← errorIf l (2 ^ 63 ≤ n) (bytes "Integer literal overflow")
    emitInteger l n length overflow
  else
    let report ← errorAt l (bytes "Expected hex digits after '0x'")
    let r ← emit l .error 2
    return { r with reports := [report] }

def lexDecimal (l : Lexer) : Outcome Lexed := do
  let (n, intLen) ← lexInteger l 10 0
  let overflow ← errorIf l (2 ^ 63 ≤ n) (bytes "Integer literal overflow")
  if (← peek l.buffer intLen) ≠ byte '.' then emitInteger l n intLen overflow
  else if (← peek l.buffer (intLen + 1)) = byte '.' then emitInteger l n intLen overflow
  else
    -- `strtod` stops in front of the first byte that is not of its subject.
    let len := realLength l.buffer
    let digit ← errorIf l (len ≤ intLen + 1) (bytes "Expected digit after '.'")
    let behind ← errorIf l (isWordStart (← peek l.buffer len))
      (bytes "Invalid character after float literal")
    emitValue l .real (.real (.strtod l.buffer)) len (overflow ++ digit ++ behind)

def lexNumber (l : Lexer) : Outcome Lexed := do
  if (← peek l.buffer 0) ≠ byte '0' then lexDecimal l
  else
    let c ← peek l.buffer 1
    if c = byte 'x' ∨ c = byte 'X' then lexHex l else lexDecimal l

/-! Names and strings. -/

/-- `strncmp(b, word, length) == 0` for a word of this length. -/
def sameText (b word : Bytes) : Outcome Bool := do
  let _ ← move b word.length
  return word.isPrefixOf b

def lexKeyword (l : Lexer) (length : Nat) : List (Bytes × TokenType) → Outcome (Option TokenType)
  | [] => return none
  | (word, type) :: words => do
      if word.length = length then
        if ← sameText l.buffer word then return some type
      lexKeyword l length words

def lexIdentifier (l : Lexer) : Outcome Lexed := do
  let stop ← scanWhile isWord l.buffer
  let length := l.buffer.length - stop.length
  let booleans := [(bytes "true", TokenType.true), (bytes "false", TokenType.false)]
  match ← lexKeyword l length booleans with
  | some type => emitValue l type (.boolean (type == .true)) length []
  | none =>
      match ← lexKeyword l length keywords with
      | some type => emit l type length
      | none => emitValue l .identifier (.string (l.buffer.take length)) length []

def stringTurn (p : Bytes) : Outcome (Bytes ⊕ Bytes) := do
  let c ← peek p 0
  if c = byte '"' ∨ c = 0 ∨ c = byte '\n' then return .inr p
  else if c = byte '\\' then
    if (← peek p 1) ≠ 0 then
      let p ← move p 1
      return .inl (← move p 1)
    else return .inl (← move p 1)
  else return .inl (← move p 1)

def lexString (l : Lexer) : Outcome Lexed := do
  let start ← move l.buffer 1
  let stop ← iterate stringTurn (start.length + 1) start
  let behind := l.setBuffer stop
  if (← peek stop 0) ≠ byte '"' then
    return { lexer := behind, type := none, reports := [← errorAt behind (bytes "Unterminated string")] }
  else
    return {
      lexer := behind.setBuffer (← move stop 1), type := some .string
      value := some (.string (start.take (start.length - stop.length))) }

/-- Whether three quotes stand at `p`. -/
def atQuotes (p : Bytes) : Outcome Bool := do
  if (← peek p 0) = byte '"' then
    if (← peek p 1) = byte '"' then return (← peek p 2) = byte '"' else return false
  else return false

def multilineTurn (p : Bytes) : Outcome (Bytes ⊕ Bytes) := do
  if (← peek p 0) = 0 then return .inr p
  else if ← atQuotes p then return .inr p
  else return .inl (← move p 1)

def lexMultilineString (l : Lexer) : Outcome Lexed := do
  let start ← move l.buffer 3
  let stop ← iterate multilineTurn (start.length + 1) start
  let behind := l.setBuffer stop
  if (← peek stop 0) ≠ byte '"' then
    return {
      lexer := behind, type := none
      reports := [← errorAt behind (bytes "Unterminated multi-line string")] }
  else
    return {
      lexer := behind.setBuffer (← move stop 3), type := some .string
      value := some (.string (start.take (start.length - stop.length))) }

/-! Operators and punctuation. -/

/-- What follows the first byte of an operator: a second byte with its token, and, tested
within it, a third one. -/
abbrev Second := UInt8 × TokenType × Option (UInt8 × TokenType)

/-- The cases of the `switch` that only emit. -/
def switchCases : List (UInt8 × TokenType × List Second) :=
  [(byte ',', .comma, []), (byte '(', .openParenthese, []), (byte ')', .closeParenthese, []),
    (byte '[', .openBracket, []), (byte ']', .closeBracket, []), (byte '\x7b', .openBrace, []),
    (byte '\x7d', .closeBrace, []), (byte ':', .colon, []),
    (byte '.', .dot, [(byte '.', .dotDot, none)]), (byte '~', .bitwiseNot, []),
    (byte '*', .multiply, [(byte '=', .multiplyAssign, none)]),
    (byte '/', .divide, [(byte '/', .floorDivide, some (byte '=', .floorDivideAssign)),
      (byte '=', .divideAssign, none)]),
    (byte '%', .modulo, [(byte '=', .moduloAssign, none)]),
    (byte '+', .add, [(byte '=', .addAssign, none)]),
    (byte '-', .subtract, [(byte '=', .subtractAssign, none)]),
    (byte '!', .not, [(byte '=', .notEqual, none)]),
    (byte '=', .assign, [(byte '=', .equal, none)]),
    (byte '<', .less, [(byte '<', .leftShift, some (byte '=', .leftShiftAssign)),
      (byte '=', .lessEqual, none)]),
    (byte '>', .greater, [(byte '>', .rightShift, some (byte '=', .rightShiftAssign)),
      (byte '=', .greaterEqual, none)]),
    (byte '&', .bitwiseAnd, [(byte '&', .and, none), (byte '=', .andAssign, none)]),
    (byte '|', .bitwiseOr, [(byte '|', .or, none), (byte '>', .pipe, none),
      (byte '=', .orAssign, none)]),
    (byte '^', .bitwiseXor, [(byte '=', .xorAssign, none)])]

/-- The longest operator at `p`, whose first byte alone is `type`. -/
def lexSecond (p : Bytes) (type : TokenType) : List Second → Outcome (TokenType × Nat)
  | [] => return (type, 1)
  | (c, second, third) :: more => do
      if (← peek p 1) = c then
        match third with
        | none => return (second, 2)
        | some (c, third) => if (← peek p 2) = c then return (third, 3) else return (second, 2)
      else lexSecond p type more

/-! Tokens and lines. -/

def lexEnd (l : Lexer) : Outcome Lexed :=
  match l.indentStack with
  | _ :: outer :: rest =>
      .ok
        { lexer := { l with pendingDedents := (outer :: rest).length - 1, indentStack := [0] }
          type := some .dedent }
  | _ => emit l .endOfFile 0

def lexToken (l : Lexer) : Outcome Lexed := do
  let c ← peek l.buffer 0
  if isDigit c then lexNumber l
  else if isWordStart c then lexIdentifier l
  else if c = byte '"' then
    if ← atQuotes l.buffer then lexMultilineString l else lexString l
  else if c = byte '\n' then emit { l with atLineStart := Bool.true } .newLine 1
  else if c = 0 then lexEnd l
  else
    match switchCases.find? (·.1 == c) with
    | some (_, first, seconds) =>
        let (type, length) ← lexSecond l.buffer first seconds
        emit { l with bracketDepth := bracketAfter l.bracketDepth type } type length
    | none =>
        let report ← errorAt l (bytes "Unknown character: '" ++ [c] ++ bytes "'")
        let r ← emit l .error 1
        return { r with reports := [report] }

/-- A turn of the loop over blank lines. -/
def lineTurn (p : Bytes) : Outcome (Bytes ⊕ Bytes) := do
  let q ← scanWhile isSpaceChar p
  let q ← if (← peek q 0) = byte '#' then skipComment q else pure q
  if (← peek q 0) ≠ byte '\n' then return .inr p else return .inl (← move q 1)

def lexIndent (l : Lexer) : Outcome Lexed := do
  let p ← scanWhile isSpaceChar l.buffer
  let spaces := l.buffer.length - p.length
  let behind := l.setBuffer p
  let top := l.indentStack.headD 0
  let c ← peek p 0
  if c = byte '\t' then
    return {
      lexer := l, type := none
      reports := [← errorAt l (bytes "Tabs not allowed for indentation")] }
  else if c ≠ 0 ∧ top < spaces then
    if indentMax ≤ l.indentStack.length then
      return { lexer := l, type := none, reports := [⟨Bool.false, l.file, bytes "Indentation too deep"⟩] }
    else return { lexer := { behind with indentStack := spaces :: l.indentStack }, type := some .indent }
  else if spaces < top ∨ c = 0 ∧ 1 < l.indentStack.length then
    let stack := closeLevels spaces l.indentStack
    let pops : Int := (l.indentStack.length : Int) - stack.length
    if c ≠ 0 ∧ 1 < stack.length ∧ stack.headD 0 ≠ spaces then
      let l := { behind with indentStack := stack }
      return {
        lexer := l, type := none
        reports := [← errorAt l (bytes "Indentation does not match any outer level")] }
    else
      let stack := if c = 0 then [0] else stack
      return {
        lexer := { behind with indentStack := stack, pendingDedents := pops - 1 }
        type := some .dedent }
  else lexToken (← skipWhitespaceAndComments behind)

def lex (l : Lexer) : Outcome Lexed := do
  if 0 < l.pendingDedents then
    return { lexer := { l with pendingDedents := l.pendingDedents - 1 }, type := some .dedent }
  else if l.atLineStart then
    let p ← iterate lineTurn (l.buffer.length + 1) l.buffer
    lexIndent (({ l with atLineStart := Bool.false } : Lexer).setBuffer p)
  else lexToken (← skipWhitespaceAndComments l)

/-! What the reads come to. A text is `p` where no NUL is in it: the one that ends it is
the first. -/

@[simp] theorem pure_ok {α : Type} (a : α) : (pure a : Outcome α) = .ok a := rfl

theorem peek_of_le {p : Bytes} {i : Nat} (h : i ≤ p.length) : peek p i = .ok (p.getD i 0) :=
  if_pos h

@[simp] theorem peek_zero (p : Bytes) : peek p 0 = .ok (p.getD 0 0) := peek_of_le (Nat.zero_le _)

theorem move_of_le {p : Bytes} {n : Nat} (h : n ≤ p.length) : move p n = .ok (p.drop n) := if_pos h

/-- A byte that is not the NUL has a byte behind it. -/
theorem lt_length_of_getD {p : Bytes} {i : Nat} {c : UInt8} (hc : c ≠ 0) (h : p.getD i 0 = c) :
    i < p.length := by
  by_contra hi
  exact hc (h ▸ List.getD_eq_default p 0 (Nat.le_of_not_lt hi))

theorem getD_ne_zero {p : Bytes} (hp : 0 ∉ p) {i : Nat} (hi : i < p.length) : p.getD i 0 ≠ 0 := by
  intro h
  rw [List.getD_eq_getElem p 0 hi] at h
  exact hp (h ▸ List.getElem_mem hi)

theorem scanWhile_eq {test : UInt8 → Bool} (htest : test 0 = Bool.false) (p : Bytes) :
    scanWhile test p = .ok (p.dropWhile test) := by
  suffices ∀ n, p.length < n → iterate (scanTurn test) n p = .ok (p.dropWhile test) from
    this _ (Nat.lt_succ_self _)
  intro n
  induction n generalizing p with
  | zero => exact fun h => absurd h (Nat.not_lt_zero _)
  | succ n ih =>
    intro hn
    cases p with
    | nil =>
      apply iterate_leave
      simp [scanTurn, htest]
    | cons c p =>
      cases hc : test c with
      | false =>
        rw [List.dropWhile_cons_of_neg (by simp [hc])]
        apply iterate_leave
        simp [scanTurn, hc]
      | true =>
        have hturn : scanTurn test (c :: p) = .ok (.inl p) := by
          simp [scanTurn, hc, move]
        rw [iterate_again hturn, ih p (by simpa using hn), List.dropWhile_cons_of_pos hc]

theorem length_sub_dropWhile (test : UInt8 → Bool) (p : Bytes) :
    p.length - (p.dropWhile test).length = (p.takeWhile test).length := by
  have h := congrArg List.length (List.takeWhile_append_dropWhile (p := test) (l := p))
  rw [List.length_append] at h
  omega

theorem take_takeWhile (test : UInt8 → Bool) (p : Bytes) :
    p.take (p.takeWhile test).length = p.takeWhile test := by
  have h := @List.take_left _ (p.takeWhile test) (p.dropWhile test)
  rwa [List.takeWhile_append_dropWhile] at h

theorem skipComment_eq {p : Bytes} (hp : 0 ∉ p) : skipComment p = .ok (Lexer.skipComment p) := by
  rw [skipComment, scanWhile_eq (by decide), Lexer.skipComment]
  congr 1
  induction p with
  | nil => rfl
  | cons c p ih =>
    obtain ⟨hc, hp⟩ : ¬ 0 = c ∧ 0 ∉ p := by simpa using hp
    by_cases hline : c = byte '\n'
    · rw [List.dropWhile_cons_of_neg (by simp [hline]), List.dropWhile_cons_of_neg (by simp [hline])]
    · rw [List.dropWhile_cons_of_pos (by simp [hline, Ne.symm hc]),
        List.dropWhile_cons_of_pos (by simp [hline]), ih hp]

theorem not_mem_of_suffix {p q : Bytes} (hq : q <:+ p) (hp : (0 : UInt8) ∉ p) : 0 ∉ q :=
  fun h => hp (hq.mem h)

theorem errorAt_eq {l : Lexer} (hl : 0 ∉ l.buffer) (msg : Bytes) :
    errorAt l msg = .ok (l.report msg) := by
  rw [errorAt, skipComment_eq hl]
  rfl

theorem errorIf_eq {l : Lexer} (hl : 0 ∉ l.buffer) (c : Bool) (msg : Bytes) :
    errorIf l c msg = .ok (if c then [l.report msg] else []) := by
  cases c with
  | false => rfl
  | true =>
    rw [errorIf, if_pos rfl, errorAt_eq hl]
    rfl

theorem emit_eq {l : Lexer} {length : Nat} (type : TokenType) (h : length ≤ l.buffer.length) :
    emit l type length = .ok (l.emit type length) := by
  rw [emit, move_of_le h]
  rfl

theorem emitValue_eq {l : Lexer} {length : Nat} (type : TokenType) (v : Literal)
    (reports : List Report) (h : length ≤ l.buffer.length) :
    emitValue l type v length reports = .ok (l.emitValue type v length reports) := by
  rw [emitValue, emit_eq type h]
  rfl

/-! Blanks. -/

theorem suffix_skipOne {inBrackets : Bool} {p q : Bytes} (h : skipOne inBrackets p = some q) :
    q <:+ p ∧ q.length < p.length := by
  unfold skipOne at h
  split at h
  · next c rest =>
    split_ifs at h with hline hcomment
    · cases h
      exact ⟨List.suffix_cons c _, Nat.lt_succ_self _⟩
    · cases h
      rw [Lexer.skipComment, List.dropWhile_cons_of_pos (by simp [hcomment]; decide)]
      exact ⟨(List.dropWhile_suffix _).trans (List.suffix_cons c _),
        Nat.lt_succ_of_le (List.dropWhile_suffix _).length_le⟩
  · cases h

theorem blanks_eq {inBrackets : Bool} {p : Bytes} {n : Nat} (hp : 0 ∉ p) (hn : p.length < n) :
    iterate (blanksTurn inBrackets) n p = .ok (skipBlanks inBrackets n p) := by
  induction n generalizing p with
  | zero => exact absurd hn (Nat.not_lt_zero _)
  | succ n ih =>
    have hsuffix : p.dropWhile isBlank <:+ p := List.dropWhile_suffix _
    have hturn : blanksTurn inBrackets p =
        .ok ((skipOne inBrackets (p.dropWhile isBlank)).elim (.inr (p.dropWhile isBlank)) .inl) := by
      have hq := not_mem_of_suffix hsuffix hp
      rw [blanksTurn, skipWhitespace, scanWhile_eq (by decide)]
      generalize p.dropWhile isBlank = q at hq
      rw [ok_bind, peek_zero, ok_bind, skipComment_eq hq]
      cases q with
      | nil => simp [skipOne, byte]
      | cons c q =>
        simp only [skipOne, List.getD_cons_zero]
        split_ifs <;> simp_all [move]
    rw [skipBlanks]
    cases hone : skipOne inBrackets (p.dropWhile isBlank) with
    | none =>
      rw [hone] at hturn
      exact iterate_leave hturn n
    | some q =>
      rw [hone] at hturn
      obtain ⟨hq, hlt⟩ := suffix_skipOne hone
      rw [iterate_again hturn n]
      exact ih (not_mem_of_suffix (hq.trans hsuffix) hp) (by have := hsuffix.length_le; omega)

theorem skipWhitespaceAndComments_eq {l : Lexer} (hl : 0 ∉ l.buffer) :
    skipWhitespaceAndComments l = .ok l.skipWhitespaceAndComments := by
  rw [skipWhitespaceAndComments, blanks_eq hl (Nat.lt_succ_self _)]
  rfl

/-! Strings. -/

theorem stringLength_stop {c : UInt8} {p : Bytes} (h : c = byte '"' ∨ c = byte '\n') :
    stringLength (c :: p) = 0 := by
  rw [stringLength.eq_def]
  exact if_pos h

theorem stringLength_escape (c : UInt8) (p : Bytes) :
    stringLength (byte '\\' :: c :: p) = stringLength p + 2 := by
  rw [stringLength.eq_def]
  rfl

theorem stringLength_backslash : stringLength [byte '\\'] = 1 := rfl

theorem stringLength_cons {c : UInt8} {p : Bytes} (hstop : ¬ (c = byte '"' ∨ c = byte '\n'))
    (hc : c ≠ byte '\\') : stringLength (c :: p) = stringLength p + 1 := by
  rw [stringLength.eq_def]
  simp only [hstop, hc, if_false]

theorem stringLength_le (p : Bytes) : stringLength p ≤ p.length := by
  induction p using stringLength.induct with
  | case1 => exact le_rfl
  | case2 c p h => simp [stringLength_stop h]
  | case3 c p _ ih =>
    rw [stringLength_escape, List.length_cons, List.length_cons]
    omega
  | case4 => exact le_rfl
  | case5 c p hstop hc ih =>
    rw [stringLength_cons hstop hc, List.length_cons]
    omega

theorem stringTurn_cons {c : UInt8} {p : Bytes} (hp : 0 ∉ c :: p) :
    stringTurn (c :: p) =
      if c = byte '"' ∨ c = byte '\n' then .ok (.inr (c :: p))
      else if c = byte '\\' ∧ p ≠ [] then .ok (.inl (p.drop 1))
      else .ok (.inl p) := by
  have hc : c ≠ 0 := fun h => hp (h ▸ List.mem_cons_self)
  unfold stringTurn
  rw [peek_zero, ok_bind, List.getD_cons_zero]
  by_cases hstop : c = byte '"' ∨ c = byte '\n'
  · rw [if_pos hstop, if_pos (by tauto)]
    rfl
  · rw [if_neg hstop, if_neg (by tauto)]
    by_cases hslash : c = byte '\\'
    · cases p with
      | nil => simp [hslash, peek, move]
      | cons d p =>
        have hd : d ≠ 0 := fun h => hp (h ▸ List.mem_cons_of_mem _ List.mem_cons_self)
        simp [hslash, peek, move, hd]
    · simp [hslash, move]

theorem string_eq {p : Bytes} {n : Nat} (hp : 0 ∉ p) (hn : p.length < n) :
    iterate stringTurn n p = .ok (p.drop (stringLength p)) := by
  induction n generalizing p with
  | zero => exact absurd hn (Nat.not_lt_zero _)
  | succ n ih =>
    cases p with
    | nil => exact iterate_leave rfl n
    | cons c p =>
      have hturn := stringTurn_cons hp
      by_cases hstop : c = byte '"' ∨ c = byte '\n'
      · rw [if_pos hstop] at hturn
        rw [iterate_leave hturn, stringLength_stop hstop, List.drop_zero]
      · rw [if_neg hstop] at hturn
        rw [List.length_cons] at hn
        by_cases hslash : c = byte '\\'
        · subst hslash
          cases p with
          | nil =>
            rw [iterate_again (t := []) (by simpa using hturn), stringLength_backslash]
            exact ih (by simp) (by simpa using hn)
          | cons d p =>
            rw [iterate_again (t := p) (by simpa using hturn), stringLength_escape,
              ih (fun h => hp (by simp [h])) (by rw [List.length_cons] at hn; omega)]
            rfl
        · rw [if_neg (fun h => hslash h.1)] at hturn
          rw [iterate_again hturn, stringLength_cons hstop hslash,
            ih (fun h => hp (List.mem_cons_of_mem _ h)) (by omega)]
          rfl

/-- The bytes at `p` are three quotes. -/
def Quotes (p : Bytes) : Prop :=
  p.getD 0 0 = byte '"' ∧ p.getD 1 0 = byte '"' ∧ p.getD 2 0 = byte '"'

instance (p : Bytes) : Decidable (Quotes p) := inferInstanceAs (Decidable (_ ∧ _))

theorem Quotes.three_le {p : Bytes} (h : Quotes p) : 3 ≤ p.length :=
  lt_length_of_getD (by decide) h.2.2

theorem atQuotes_eq (p : Bytes) : atQuotes p = .ok (decide (Quotes p)) := by
  unfold atQuotes Quotes
  rw [peek_zero, ok_bind]
  by_cases h0 : p.getD 0 0 = byte '"'
  · rw [if_pos h0, peek_of_le (lt_length_of_getD (by decide) h0), ok_bind]
    by_cases h1 : p.getD 1 0 = byte '"'
    · rw [if_pos h1, peek_of_le (lt_length_of_getD (by decide) h1), ok_bind]
      simp only [pure_ok, h0, h1, true_and]
    · rw [if_neg h1]
      simp only [pure_ok, h1, false_and, and_false, decide_false]
  · rw [if_neg h0]
    simp only [pure_ok, h0, false_and, decide_false]

theorem multilineLength_le (p : Bytes) : (multilineLength p).1 ≤ p.length := by
  induction p with
  | nil => exact le_rfl
  | cons c p ih =>
    rw [multilineLength]
    split
    · exact Nat.zero_le _
    · exact Nat.succ_le_succ ih

/-- The end of a triple-quoted text is found where three quotes stand behind it. -/
theorem quotes_multiline (p : Bytes) :
    (multilineLength p).2 = Bool.true ∧ Quotes (p.drop (multilineLength p).1) ∨
      (multilineLength p).2 = Bool.false ∧ p.drop (multilineLength p).1 = [] := by
  induction p with
  | nil => exact .inr ⟨rfl, rfl⟩
  | cons c p ih =>
    rw [multilineLength]
    split
    · next h => exact .inl ⟨rfl, h⟩
    · exact ih

theorem multiline_eq {p : Bytes} {n : Nat} (hp : 0 ∉ p) (hn : p.length < n) :
    iterate multilineTurn n p = .ok (p.drop (multilineLength p).1) := by
  induction n generalizing p with
  | zero => exact absurd hn (Nat.not_lt_zero _)
  | succ n ih =>
    cases p with
    | nil => exact iterate_leave rfl n
    | cons c p =>
      have hc : c ≠ 0 := fun h => hp (h ▸ List.mem_cons_self)
      have hturn : multilineTurn (c :: p) =
          if Quotes (c :: p) then .ok (.inr (c :: p)) else .ok (.inl p) := by
        simp [multilineTurn, atQuotes_eq, hc, move]
      rw [multilineLength]
      by_cases hquotes : Quotes (c :: p)
      · rw [if_pos hquotes] at hturn
        rw [iterate_leave hturn, if_pos (show c = _ ∧ p.getD 0 0 = _ ∧ p.getD 1 0 = _ from hquotes), List.drop_zero]
      · rw [if_neg hquotes] at hturn
        rw [iterate_again hturn, if_neg (show ¬ (c = _ ∧ p.getD 0 0 = _ ∧ p.getD 1 0 = _) from hquotes),
          ih (fun h => hp (List.mem_cons_of_mem _ h)) (by simpa using hn)]
        rfl

theorem take_sub_drop {p : Bytes} {n : Nat} (h : n ≤ p.length) :
    p.take (p.length - (p.drop n).length) = p.take n := by
  rw [List.length_drop]
  congr 1
  omega

theorem lexString_eq {l : Lexer} (hl : 0 ∉ l.buffer) (hquote : l.buffer ≠ []) :
    lexString l = .ok l.lexString := by
  have hone : 1 ≤ l.buffer.length := List.length_pos_iff.mpr hquote
  have hstart : 0 ∉ l.buffer.drop 1 := not_mem_of_suffix (List.drop_suffix 1 _) hl
  have hstop := not_mem_of_suffix (List.drop_suffix (stringLength (l.buffer.drop 1)) _) hstart
  have hle := stringLength_le (l.buffer.drop 1)
  unfold lexString Lexer.lexString
  rw [move_of_le hone, ok_bind, string_eq hstart (Nat.lt_succ_self _), ok_bind, peek_zero, ok_bind,
    take_sub_drop hle]
  change _ = Except.ok (if ((l.buffer.drop 1).drop (stringLength (l.buffer.drop 1))).getD 0 0 = _
    then _ else _)
  by_cases hend : ((l.buffer.drop 1).drop (stringLength (l.buffer.drop 1))).getD 0 0 = byte '"'
  · rw [if_neg (not_not.mpr hend), if_pos hend, move_of_le (lt_length_of_getD (by decide) hend)]
    rfl
  · rw [if_pos hend, if_neg hend, errorAt_eq (l := l.setBuffer _) hstop]
    rfl

theorem lexMultilineString_eq {l : Lexer} (hl : 0 ∉ l.buffer) (hquotes : Quotes l.buffer) :
    lexMultilineString l = .ok l.lexMultilineString := by
  have hstart : 0 ∉ l.buffer.drop 3 := not_mem_of_suffix (List.drop_suffix 3 _) hl
  have hstop := not_mem_of_suffix (List.drop_suffix (multilineLength (l.buffer.drop 3)).1 _) hstart
  have hle := multilineLength_le (l.buffer.drop 3)
  unfold lexMultilineString Lexer.lexMultilineString
  rw [move_of_le hquotes.three_le, ok_bind, multiline_eq hstart (Nat.lt_succ_self _), ok_bind,
    peek_zero, ok_bind, take_sub_drop hle]
  change _ = Except.ok (if (multilineLength (l.buffer.drop 3)).2 = Bool.true then _ else _)
  rcases quotes_multiline (l.buffer.drop 3) with ⟨hfound, hend⟩ | ⟨hfound, hend⟩
  · rw [if_neg (not_not.mpr hend.1), if_pos hfound, move_of_le hend.three_le]
    rfl
  · rw [if_pos (by rw [hend]; decide), if_neg (by simp [hfound]), errorAt_eq (l := l.setBuffer _) hstop]
    rfl

/-! Numbers. -/

theorem isDigitOf_ten (c : UInt8) : isDigitOf 10 c = isDigit c := by
  unfold isDigitOf digitVal
  split_ifs with hdigit halpha
  · have hlt : (c - byte '0').toNat < 10 := by
      simp only [isDigit, Bool.and_eq_true, decide_eq_true_eq] at hdigit
      obtain ⟨hlo, hhi⟩ := hdigit
      rw [UInt8.toNat_sub_of_le _ _ hlo]
      have := UInt8.le_iff_toNat_le.mp hhi
      have := UInt8.le_iff_toNat_le.mp hlo
      change c.toNat ≤ 57 at *
      change c.toNat - 48 < 10
      omega
    rw [hdigit]
    exact decide_eq_true hlt
  · rw [Bool.eq_false_iff.mpr hdigit]
    simp
  · rw [Bool.eq_false_iff.mpr hdigit]
    simp

theorem lexInteger_eq {base : Nat} (hbase : isDigitOf base 0 = Bool.false) (l : Lexer) {mark : Nat}
    (h : mark ≤ l.buffer.length) :
    lexInteger l base mark =
      .ok (digitsVal base ((l.buffer.drop mark).takeWhile (isDigitOf base)),
        mark + ((l.buffer.drop mark).takeWhile (isDigitOf base)).length) := by
  unfold lexInteger
  rw [move_of_le h, ok_bind, scanWhile_eq hbase, ok_bind, length_sub_dropWhile]
  dsimp only
  rw [take_takeWhile]
  rfl

theorem mark_add_le {p : Bytes} {mark : Nat} (test : UInt8 → Bool) (h : mark ≤ p.length) :
    mark + ((p.drop mark).takeWhile test).length ≤ p.length := by
  have := (List.takeWhile_prefix test (l := p.drop mark)).length_le
  rw [List.length_drop] at this
  omega

theorem emitInteger_eq {l : Lexer} (hl : 0 ∉ l.buffer) {n length : Nat}
    (h : length ≤ l.buffer.length) :
    (do
      let overflow ← errorIf l (2 ^ 63 ≤ n) (bytes "Integer literal overflow")
      emitInteger l n length overflow) =
      .ok (l.emitValue .integer (.integer (saturate n)) length (l.integerReports n length)) := by
  simp only [emitInteger, errorIf_eq hl, ok_bind, peek_of_le h, emitValue_eq _ _ _ h,
    decide_eq_true_eq]
  rfl

theorem lexHex_eq {l : Lexer} (hl : 0 ∉ l.buffer) (h : 2 ≤ l.buffer.length) :
    lexHex l = .ok l.lexHex := by
  unfold lexHex Lexer.lexHex
  rw [peek_of_le h, ok_bind]
  change (if isDigitOf 16 (l.char 2) = Bool.true then _ else _) = _
  split
  · rw [lexInteger_eq (by decide) l h, ok_bind]
    exact emitInteger_eq hl (mark_add_le (isDigitOf 16) h)
  · rw [errorAt_eq hl, ok_bind, emit_eq _ h]
    rfl

theorem expoLength_le (p : Bytes) : expoLength p ≤ p.length := by
  have hdigits (n : Nat) := (List.takeWhile_prefix isDigit (l := p.drop n)).length_le
  unfold expoLength
  dsimp only
  split
  · generalize 1 + (if (p.getD 1 0 == byte '+' || p.getD 1 0 == byte '-') = Bool.true then 1
      else 0) = mark
    have hlen := hdigits mark
    rw [List.length_drop] at hlen
    cases hn : ((p.drop mark).takeWhile isDigit).length with
    | zero => exact Nat.zero_le _
    | succ n =>
      change mark + (n + 1) ≤ p.length
      omega
  · exact Nat.zero_le _

/-- The parts of a number, with its point, make up the text. -/
theorem splitPoint_length (p : Bytes) :
    let (whole, part, rest) := Double.splitPoint isDigit p
    whole.length + (if p.getD whole.length 0 == byte '.' then 1 else 0) + part.length +
      rest.length = p.length := by
  have hsplit := congrArg List.length (List.takeWhile_append_dropWhile (p := isDigit) (l := p))
  have hpoint : p.getD (p.takeWhile isDigit).length 0 = (p.dropWhile isDigit).getD 0 0 := by
    have h := List.getD_append_right (p.takeWhile isDigit) (p.dropWhile isDigit) 0 _ le_rfl
    rwa [List.takeWhile_append_dropWhile, Nat.sub_self] at h
  rw [List.length_append] at hsplit
  unfold Double.splitPoint
  cases hrest : p.dropWhile isDigit with
  | nil =>
    rw [hrest] at hpoint hsplit
    dsimp only
    rw [hpoint, if_neg (by decide)]
    simpa using hsplit
  | cons c rest =>
    have hparts := congrArg List.length (List.takeWhile_append_dropWhile (p := isDigit) (l := rest))
    rw [List.length_append] at hparts
    rw [hrest] at hpoint hsplit
    rw [List.length_cons] at hsplit
    dsimp only
    split
    · next hc =>
      rw [hpoint, if_pos (by simp [hc])]
      dsimp only
      omega
    · next hc =>
      dsimp only
      rw [hpoint, if_neg (by simpa using hc)]
      simp only [List.length_nil, List.length_cons]
      omega

theorem realLength_le (p : Bytes) : realLength p ≤ p.length := by
  have h := splitPoint_length p
  unfold realLength
  revert h
  rcases Double.splitPoint isDigit p with ⟨whole, part, rest⟩
  intro h
  have := expoLength_le rest
  dsimp only at h ⊢
  omega

theorem lexDecimal_eq {l : Lexer} (hl : 0 ∉ l.buffer)
    (hhex : ¬ (l.char 0 = byte '0' ∧ (l.char 1 = byte 'x' ∨ l.char 1 = byte 'X'))) :
    lexDecimal l = .ok l.lexNumber := by
  have hle := mark_add_le isDigit (Nat.zero_le l.buffer.length)
  rw [Nat.zero_add, List.drop_zero] at hle
  have hdigits : isDigitOf 10 = isDigit := funext isDigitOf_ten
  unfold lexDecimal Lexer.lexNumber
  rw [if_neg hhex, lexInteger_eq (by decide) l (Nat.zero_le _), ok_bind, hdigits, List.drop_zero,
    Nat.zero_add]
  dsimp only
  generalize (l.buffer.takeWhile isDigit).length = intLen at hle ⊢
  generalize digitsVal 10 (l.buffer.takeWhile isDigit) = n
  have hinteger := emitInteger_eq hl (n := n) hle
  rw [errorIf_eq hl, ok_bind] at hinteger ⊢
  simp only [decide_eq_true_eq] at hinteger ⊢
  generalize (if 2 ^ 63 ≤ n then [l.report (bytes "Integer literal overflow")] else []) = overflow
    at hinteger ⊢
  rw [peek_of_le hle, ok_bind]
  change (if l.char intLen ≠ byte '.' then _ else _) = _
  by_cases hpoint : l.char intLen = byte '.'
  · rw [if_neg (not_not.mpr hpoint), peek_of_le (lt_length_of_getD (by decide) hpoint), ok_bind]
    change (if l.char (intLen + 1) = byte '.' then _ else _) = _
    by_cases hrange : l.char (intLen + 1) = byte '.'
    · rw [if_pos hrange, if_pos (.inr hrange)]
      exact hinteger
    · rw [if_neg hrange, if_neg (fun h => h.elim (absurd hpoint) (absurd · hrange))]
      simp only [errorIf_eq hl, ok_bind, peek_of_le (realLength_le l.buffer),
        emitValue_eq _ _ _ (realLength_le l.buffer), decide_eq_true_eq]
      rfl
  · rw [if_pos hpoint, if_pos (.inl hpoint)]
    exact hinteger

theorem lexNumber_eq {l : Lexer} (hl : 0 ∉ l.buffer) : lexNumber l = .ok l.lexNumber := by
  unfold lexNumber
  rw [peek_zero, ok_bind]
  change (if l.char 0 ≠ byte '0' then _ else _) = _
  by_cases hzero : l.char 0 = byte '0'
  · rw [if_neg (not_not.mpr hzero), peek_of_le (lt_length_of_getD (by decide) hzero), ok_bind]
    change (if l.char 1 = byte 'x' ∨ l.char 1 = byte 'X' then _ else _) = _
    by_cases hx : l.char 1 = byte 'x' ∨ l.char 1 = byte 'X'
    · have htwo : 2 ≤ l.buffer.length := by
        rcases hx with hx | hx
        · exact lt_length_of_getD (by decide) hx
        · exact lt_length_of_getD (by decide) hx
      rw [if_pos hx, lexHex_eq hl htwo, Lexer.lexNumber, if_pos ⟨hzero, hx⟩]
    · rw [if_neg hx, lexDecimal_eq hl (fun h => hx h.2)]
  · rw [if_pos hzero, lexDecimal_eq hl (fun h => hzero h.1)]

/-! Names. -/

theorem lexKeyword_eq {l : Lexer} {length : Nat} (h : length ≤ l.buffer.length)
    (words : List (Bytes × TokenType)) :
    lexKeyword l length words =
      .ok ((words.find? (·.1 == l.buffer.take length)).map Prod.snd) := by
  induction words with
  | nil => rfl
  | cons w words ih =>
    obtain ⟨word, type⟩ := w
    rw [lexKeyword, List.find?_cons]
    by_cases hlen : word.length = length
    · subst hlen
      rw [if_pos rfl, sameText, move_of_le h, ok_bind, pure_ok, ok_bind]
      by_cases hword : word = l.buffer.take word.length
      · have hstarts : word.isPrefixOf l.buffer = Bool.true :=
          List.isPrefixOf_iff_prefix.mpr (List.prefix_iff_eq_take.mpr hword)
        rw [if_pos hstarts, beq_iff_eq.mpr hword]
        rfl
      · have hstarts : word.isPrefixOf l.buffer = Bool.false := by
          rw [Bool.eq_false_iff]
          exact fun h => hword (List.prefix_iff_eq_take.mp (List.isPrefixOf_iff_prefix.mp h))
        rw [hstarts, if_neg Bool.false_ne_true, beq_eq_false_iff_ne.mpr hword]
        exact ih
    · have hword : word ≠ l.buffer.take length := by
        rintro rfl
        exact hlen (List.length_take_of_le h)
      rw [if_neg hlen, beq_eq_false_iff_ne.mpr hword]
      exact ih

theorem lexIdentifier_eq {l : Lexer} : lexIdentifier l = .ok l.lexIdentifier := by
  have hle := (List.takeWhile_prefix isWord (l := l.buffer)).length_le
  unfold lexIdentifier Lexer.lexIdentifier
  rw [scanWhile_eq (by decide), ok_bind, length_sub_dropWhile]
  dsimp only
  rw [lexKeyword_eq hle, ok_bind, lexKeyword_eq hle, ok_bind, take_takeWhile]
  generalize l.buffer.takeWhile isWord = word at hle ⊢
  by_cases htrue : word = bytes "true"
  · subst htrue
    rw [if_pos rfl]
    exact emitValue_eq _ _ _ hle
  · rw [if_neg htrue]
    by_cases hfalse : word = bytes "false"
    · subst hfalse
      rw [if_pos rfl]
      exact emitValue_eq _ _ _ hle
    · rw [if_neg hfalse, List.find?_cons, beq_eq_false_iff_ne.mpr (Ne.symm htrue),
        List.find?_cons, beq_eq_false_iff_ne.mpr (Ne.symm hfalse)]
      dsimp only [List.find?_nil, Option.map_none]
      cases keywords.find? (·.1 == word) with
      | none => exact emitValue_eq _ _ _ hle
      | some k => exact emit_eq _ hle

/-! Operators. -/

/-- The operators of a case, longer ones before their prefixes. -/
def caseOperators (c : UInt8) (first : TokenType) (seconds : List Second) : List (Bytes × TokenType) :=
  seconds.flatMap (fun s =>
    (match s.2.2 with
      | some (e, third) => [([c, s.1, e], third)]
      | none => []) ++ [([c, s.1], s.2.1)]) ++ [([c], first)]

theorem operators_eq :
    operators = switchCases.flatMap fun k => caseOperators k.1 k.2.1 k.2.2 := by decide +kernel

/-- No byte of a case is the NUL. -/
def Printing (seconds : List Second) : Prop :=
  ∀ s ∈ seconds, s.1 ≠ 0 ∧ ∀ t ∈ s.2.2, t.1 ≠ 0

theorem isPrefixOf_two {c d : UInt8} {rest : Bytes} (hd : d ≠ 0) :
    [c, d].isPrefixOf (c :: rest) = decide (rest.getD 0 0 = d) := by
  rw [List.isPrefixOf, beq_self_eq_true, Bool.true_and]
  cases rest with
  | nil => exact (decide_eq_false (Ne.symm hd)).symm
  | cons r rest =>
    rw [List.isPrefixOf, List.isPrefixOf, Bool.and_true]
    exact decide_eq_decide.mpr eq_comm

theorem isPrefixOf_three {c d e : UInt8} {rest : Bytes} (he : e ≠ 0) :
    [c, d, e].isPrefixOf (c :: d :: rest) = decide (rest.getD 0 0 = e) := by
  rw [List.isPrefixOf, beq_self_eq_true, Bool.true_and]
  exact isPrefixOf_two he

/-- The reads of a case find its longest operator. -/
theorem lexSecond_eq {c : UInt8} {rest : Bytes} {first : TokenType} {seconds : List Second}
    (h : Printing seconds) :
    ∃ text type, (caseOperators c first seconds).find? (·.1.isPrefixOf (c :: rest)) =
        some (text, type) ∧
      lexSecond (c :: rest) first seconds = .ok (type, text.length) ∧
      text.length ≤ (c :: rest).length := by
  induction seconds with
  | nil => exact ⟨[c], first, by simp [caseOperators], rfl, by simp⟩
  | cons s seconds ih =>
    obtain ⟨d, second, third⟩ := s
    obtain ⟨⟨hd, hthird⟩, hmore⟩ : (d ≠ 0 ∧ ∀ t ∈ third, t.1 ≠ 0) ∧ Printing seconds :=
      List.forall_mem_cons.mp h
    have hcons : caseOperators c first ((d, second, third) :: seconds) =
        ((match third with
          | some (e, third) => [([c, d, e], third)]
          | none => []) ++ [([c, d], second)]) ++ caseOperators c first seconds := by
      cases third <;> simp [caseOperators]
    unfold lexSecond
    rw [hcons, peek_of_le (by simp), ok_bind]
    change ∃ text type, _ ∧ (if rest.getD 0 0 = d then _ else _) = _ ∧ _
    by_cases hnext : rest.getD 0 0 = d
    · rw [if_pos hnext]
      obtain ⟨rest, rfl⟩ : ∃ r, rest = d :: r := by
        cases rest with
        | nil => exact absurd hnext (Ne.symm hd)
        | cons r rest => exact ⟨rest, by rw [← hnext]; rfl⟩
      cases third with
      | none =>
        refine ⟨[c, d], second, ?_, rfl, by simp⟩
        simp [isPrefixOf_two hd]
      | some t =>
        obtain ⟨e, third⟩ := t
        have he : e ≠ 0 := hthird _ rfl
        dsimp only
        rw [peek_of_le (by simp), ok_bind]
        change ∃ text type, _ ∧ (if rest.getD 0 0 = e then _ else _) = _ ∧ _
        by_cases hlast : rest.getD 0 0 = e
        · rw [if_pos hlast]
          refine ⟨[c, d, e], third, ?_, rfl, ?_⟩
          · simp only [List.cons_append, List.find?_cons, isPrefixOf_three he, hlast, decide_true]
          · exact Nat.succ_le_succ (lt_length_of_getD he (i := 1) hlast)
        · rw [if_neg hlast]
          refine ⟨[c, d], second, ?_, rfl, by simp⟩
          simp only [List.cons_append, List.nil_append, List.find?_cons, isPrefixOf_three he, hlast,
            decide_false, isPrefixOf_two hd, List.getD_cons_zero, decide_true]
    · rw [if_neg hnext]
      obtain ⟨text, type, hfind, hlex, hle⟩ := ih hmore
      refine ⟨text, type, ?_, hlex, hle⟩
      have htwo : [c, d].isPrefixOf (c :: rest) = Bool.false := by
        rw [isPrefixOf_two hd, decide_eq_false hnext]
      cases third with
      | none => simpa [List.find?_cons, htwo] using hfind
      | some t =>
        obtain ⟨e, third⟩ := t
        have hthree : [c, d, e].isPrefixOf (c :: rest) = Bool.false := by
          rw [Bool.eq_false_iff] at htwo ⊢
          intro h
          exact htwo (List.isPrefixOf_iff_prefix.mpr
            ((List.prefix_append [c, d] [e]).trans (List.isPrefixOf_iff_prefix.mp h)))
        simpa [List.find?_cons, htwo, hthree] using hfind

/-- An operator of another case does not begin the text. -/
theorem find_caseOperators_none {c k : UInt8} {rest : Bytes} {first : TokenType}
    {seconds : List Second} (h : k ≠ c) :
    (caseOperators k first seconds).find? (·.1.isPrefixOf (c :: rest)) = none := by
  rw [List.find?_eq_none]
  intro o ho
  obtain ⟨text, htext⟩ : ∃ text, o.1 = k :: text := by
    simp only [caseOperators, List.mem_append, List.mem_flatMap, List.mem_singleton] at ho
    rcases ho with ⟨⟨d, second, third⟩, -, ho | rfl⟩ | rfl
    · cases third with
      | none => cases ho
      | some t =>
        rw [List.mem_singleton.mp ho]
        exact ⟨_, rfl⟩
    · exact ⟨_, rfl⟩
    · exact ⟨_, rfl⟩
  simp [htext, List.isPrefixOf, h]

theorem find_operators (c : UInt8) (rest : Bytes) (cases : List (UInt8 × TokenType × List Second)) :
    (cases.flatMap fun k => caseOperators k.1 k.2.1 k.2.2).find? (·.1.isPrefixOf (c :: rest)) =
      (cases.find? (·.1 == c)).bind fun k =>
        (caseOperators c k.2.1 k.2.2).find? (·.1.isPrefixOf (c :: rest)) := by
  induction cases with
  | nil => rfl
  | cons k cases ih =>
    obtain ⟨k, first, seconds⟩ := k
    rw [List.flatMap_cons, List.find?_append, List.find?_cons]
    by_cases hk : k = c
    · subst hk
      rw [beq_self_eq_true]
      have hfound : ((caseOperators k first seconds).find? (·.1.isPrefixOf (k :: rest))).isSome := by
        rw [List.find?_isSome]
        exact ⟨([k], first), by simp [caseOperators], by simp⟩
      obtain ⟨o, ho⟩ := Option.isSome_iff_exists.mp hfound
      simp only [Option.bind_some]
      rw [ho, Option.some_or]
    · rw [find_caseOperators_none hk, Option.none_or, ih, beq_eq_false_iff_ne.mpr hk]

instance (seconds : List Second) : Decidable (Printing seconds) :=
  inferInstanceAs (Decidable (∀ s ∈ seconds, s.1 ≠ 0 ∧ ∀ t ∈ s.2.2, t.1 ≠ 0))

theorem switchCases_printing : ∀ k ∈ switchCases, Printing k.2.2 := by decide +kernel

/-! Tokens and lines. -/

theorem lexEnd_eq (l : Lexer) : lexEnd l = .ok l.lexEnd := by
  unfold lexEnd Lexer.lexEnd
  rcases l.indentStack with _ | ⟨top, _ | ⟨outer, rest⟩⟩
  · exact emit_eq _ (Nat.zero_le _)
  · exact emit_eq _ (Nat.zero_le _)
  · rfl

theorem lexOperator_eq {l : Lexer} {c : UInt8} {rest : Bytes} (hl : 0 ∉ l.buffer)
    (hbuffer : l.buffer = c :: rest) :
    (match switchCases.find? (·.1 == c) with
      | some (_, first, seconds) => do
        let (type, length) ← lexSecond l.buffer first seconds
        emit { l with bracketDepth := bracketAfter l.bracketDepth type } type length
      | none => do
        let report ← errorAt l (bytes "Unknown character: '" ++ [c] ++ bytes "'")
        let r ← emit l .error 1
        return { r with reports := [report] }) =
      .ok (match operators.find? fun o => o.1.isPrefixOf l.buffer with
        | some (text, type) =>
            ({ l with bracketDepth := bracketAfter l.bracketDepth type } : Lexer).emit type text.length
        | none =>
            { l.emit .error 1 with
              reports := [l.report (bytes "Unknown character: '" ++ [c] ++ bytes "'")] }) := by
  rw [hbuffer, operators_eq, find_operators]
  cases hcase : switchCases.find? (·.1 == c) with
  | none =>
    dsimp only [Option.bind_none]
    rw [errorAt_eq hl, ok_bind, emit_eq _ (by simp [hbuffer])]
    rfl
  | some k =>
    obtain ⟨text, type, hfind, hlex, hle⟩ := @lexSecond_eq c rest k.2.1 k.2.2
      (switchCases_printing k (List.mem_of_find?_eq_some hcase))
    dsimp only [Option.bind_some]
    rw [hfind, hlex, ok_bind]
    exact emit_eq _ (hbuffer ▸ hle)

theorem lexToken_eq {l : Lexer} (hl : 0 ∉ l.buffer) : lexToken l = .ok l.lexToken := by
  unfold lexToken Lexer.lexToken
  rw [peek_zero, ok_bind]
  cases hbuffer : l.buffer with
  | nil => exact lexEnd_eq l
  | cons c rest =>
    have hc : c ≠ 0 := fun h => hl (by rw [hbuffer, h]; exact List.mem_cons_self)
    have hpos : 1 ≤ l.buffer.length := by simp [hbuffer]
    rw [List.getD_cons_zero]
    dsimp only
    split
    · exact lexNumber_eq hl
    · split
      · exact lexIdentifier_eq
      · split
        · next hquote =>
          have hfirst : l.buffer.getD 0 0 = byte '"' := by rw [hbuffer, ← hquote]; rfl
          have hiff : Quotes l.buffer ↔ l.char 1 = byte '"' ∧ l.char 2 = byte '"' :=
            ⟨fun h => h.2, fun h => ⟨hfirst, h⟩⟩
          rw [← hbuffer, atQuotes_eq, ok_bind]
          by_cases hquotes : Quotes l.buffer
          · rw [decide_eq_true hquotes, if_pos rfl, if_pos (hiff.mp hquotes)]
            exact lexMultilineString_eq hl hquotes
          · rw [decide_eq_false hquotes, if_neg Bool.false_ne_true, if_neg (mt hiff.mpr hquotes)]
            exact lexString_eq hl (by simp [hbuffer])
        · split
          · exact emit_eq (l := { l with atLineStart := Bool.true }) _ hpos
          · rw [← hbuffer]
            exact lexOperator_eq hl hbuffer

theorem lineTurn_eq {p : Bytes} (hp : 0 ∉ p) :
    lineTurn p = .ok ((skipLine p).elim (.inr p) .inl) := by
  have hq := not_mem_of_suffix (List.dropWhile_suffix isSpaceChar) hp
  unfold lineTurn skipLine
  rw [scanWhile_eq (by decide), ok_bind, peek_zero, ok_bind, skipComment_eq hq]
  generalize p.dropWhile isSpaceChar = q
  have hrest (r : Bytes) :
      (do if (← peek r 0) ≠ byte '\n' then return .inr p else return .inl (← move r 1)) =
        (.ok (if r.head? = some (byte '\n') then .inl r.tail else .inr p) : Outcome (Bytes ⊕ Bytes)) := by
    cases r with
    | nil => simp [byte]
    | cons c r =>
      by_cases hc : c = byte '\n'
      · simp [hc, move]
      · simp [hc]
  by_cases hhash : q.getD 0 0 = byte '#'
  · simp only [if_pos hhash]
    refine (hrest (Lexer.skipComment q)).trans ?_
    cases Lexer.skipComment q with
    | nil => rfl
    | cons c r => by_cases hc : c = byte '\n' <;> simp [hc]
  · simp only [if_neg hhash]
    refine (hrest q).trans ?_
    cases q with
    | nil => rfl
    | cons c r => by_cases hc : c = byte '\n' <;> simp [hc]

theorem suffix_skipLine {p q : Bytes} (h : skipLine p = some q) : q <:+ p ∧ q.length < p.length := by
  have hsuffix : (if (p.dropWhile isSpaceChar).getD 0 0 = byte '#' then
      Lexer.skipComment (p.dropWhile isSpaceChar) else p.dropWhile isSpaceChar) <:+ p := by
    split
    · exact (List.dropWhile_suffix _).trans (List.dropWhile_suffix _)
    · exact List.dropWhile_suffix _
  unfold skipLine at h
  dsimp only at h
  generalize (if (p.dropWhile isSpaceChar).getD 0 0 = byte '#' then
      Lexer.skipComment (p.dropWhile isSpaceChar) else p.dropWhile isSpaceChar) = line at h hsuffix
  cases line with
  | nil => cases h
  | cons c rest =>
    dsimp only at h
    split at h
    · cases h
      exact ⟨(List.suffix_cons c _).trans hsuffix, hsuffix.length_le⟩
    · cases h

theorem lines_eq {p : Bytes} {n : Nat} (hp : 0 ∉ p) (hn : p.length < n) :
    iterate lineTurn n p = .ok (skipLines n p) := by
  induction n generalizing p with
  | zero => exact absurd hn (Nat.not_lt_zero _)
  | succ n ih =>
    have hturn := lineTurn_eq hp
    rw [skipLines]
    cases hline : skipLine p with
    | none =>
      rw [hline] at hturn
      exact iterate_leave hturn n
    | some q =>
      rw [hline] at hturn
      obtain ⟨hq, hlt⟩ := suffix_skipLine hline
      rw [iterate_again hturn n]
      exact ih (not_mem_of_suffix hq hp) (by omega)

/-- The NUL stands at the end of the text only. -/
theorem getD_eq_zero {p : Bytes} (hp : 0 ∉ p) : p.getD 0 0 = 0 ↔ p.isEmpty = Bool.true := by
  cases p with
  | nil => simp
  | cons c p =>
    have hc : c ≠ 0 := fun h => hp (h ▸ List.mem_cons_self)
    simp [hc]

theorem suffix_skipLines (n : Nat) (p : Bytes) : skipLines n p <:+ p := by
  induction n generalizing p with
  | zero => exact List.suffix_rfl
  | succ n ih =>
    rw [skipLines]
    cases hline : skipLine p with
    | none => exact List.suffix_rfl
    | some q => exact (ih q).trans (suffix_skipLine hline).1

theorem suffix_skipBlanks (inBrackets : Bool) (n : Nat) (p : Bytes) :
    skipBlanks inBrackets n p <:+ p := by
  induction n generalizing p with
  | zero => exact List.suffix_rfl
  | succ n ih =>
    rw [skipBlanks]
    cases hone : skipOne inBrackets (p.dropWhile isBlank) with
    | none => exact List.dropWhile_suffix _
    | some q => exact ((ih q).trans (suffix_skipOne hone).1).trans (List.dropWhile_suffix _)

theorem lexIndent_eq {l : Lexer} (hl : 0 ∉ l.buffer) : lexIndent l = .ok l.lexIndent := by
  have hbehind : l.advance (l.buffer.takeWhile isSpaceChar).length =
      l.setBuffer (l.buffer.dropWhile isSpaceChar) := congrArg l.setBuffer (behind_spaces l.buffer)
  have hp := not_mem_of_suffix (List.dropWhile_suffix isSpaceChar) hl
  unfold lexIndent Lexer.lexIndent
  rw [scanWhile_eq (by decide), ok_bind, length_sub_dropWhile]
  dsimp only
  rw [hbehind]
  generalize l.buffer.dropWhile isSpaceChar = p at hp
  generalize (l.buffer.takeWhile isSpaceChar).length = spaces
  have hend := getD_eq_zero hp
  have hbuffer : (l.setBuffer p).buffer = p := rfl
  have hstack : (l.setBuffer p).indentStack = l.indentStack := rfl
  have hmismatch := errorAt_eq (l := { l.setBuffer p with indentStack := closeLevels spaces l.indentStack })
    hp (bytes "Indentation does not match any outer level")
  have hmore : (do lexToken (← skipWhitespaceAndComments (l.setBuffer p))) =
      .ok (l.setBuffer p).skipWhitespaceAndComments.lexToken := by
    rw [skipWhitespaceAndComments_eq (l := l.setBuffer p) hp, ok_bind]
    exact lexToken_eq (not_mem_of_suffix (suffix_skipBlanks _ _ p) hp)
  rw [peek_zero, ok_bind, errorAt_eq hl, hmore, dedentTo, hmismatch, hbuffer, hstack]
  change _ = Except.ok (if p.getD 0 0 = byte '\t' then _ else _)
  cases hempty : p.isEmpty with
  | true =>
    simp only [hend.mpr hempty, ne_eq, not_true_eq_false, false_and, if_false, Bool.not_true,
      Bool.false_eq_true, true_and, if_true]
    split_ifs <;> rfl
  | false =>
    have hc : p.getD 0 0 ≠ 0 := fun h => by simp [hend.mp h] at hempty
    simp only [hc, ne_eq, not_false_eq_true, true_and, Bool.not_false, false_and, or_false, if_false,
      Bool.false_eq_true, ok_bind, pure_ok]
    split_ifs <;> rfl

/-- The reads of a call are inside the text, and come to the call's outcome. -/
theorem lex_eq {l : Lexer} (hl : 0 ∉ l.buffer) : lex l = .ok l.lex := by
  unfold lex Lexer.lex
  split
  · rfl
  · split
    · rw [lines_eq hl (Nat.lt_succ_self _), ok_bind]
      exact lexIndent_eq (not_mem_of_suffix (suffix_skipLines _ l.buffer) hl)
    · rw [skipWhitespaceAndComments_eq hl, ok_bind]
      exact lexToken_eq (not_mem_of_suffix (suffix_skipBlanks _ _ l.buffer) hl)

end Aer.Compiler.Reads
