import Aer.Json.Grammar
import Aer.Lib.Scan
import Aer.Memory.Heap

set_option linter.all false

/-! The decoder of JSON text. Every read of the text is checked against its length,
as the C code does not, and every loop and call is bounded. -/
namespace Aer.Json

open Aer.Data Aer.Memory Aer.Lib.Scan

/-- The parser's own fields, and the pools of the process. -/
structure JsonParser where
  s : Bytes
  pos : Nat
  err : Option Bytes
  heap : Heap

namespace JsonParser

def len (p : JsonParser) : Nat := p.s.length

/-- `p->s[i]` -/
def read (p : JsonParser) (i : Nat) : Outcome UInt8 :=
  match p.s[i]? with
  | some b => .ok b
  | none => .error .overrun

/-- The `n` bytes from `p->s + i` on. -/
def readMany (p : JsonParser) (i n : Nat) : Outcome Bytes :=
  if i + n ≤ p.len then .ok ((p.s.drop i).take n) else .error .overrun

/-- Every increment follows a test that the bytes passed over are there, so none wraps. -/
def skip (p : JsonParser) (n : Nat) : JsonParser :=
  { p with pos := p.pos + n }

/-- `p->pos < p->len && test(p->s[p->pos])` -/
def looksAt (p : JsonParser) (test : UInt8 → Bool) : Outcome Bool :=
  if p.pos < p.len then do
    let ch ← p.read p.pos
    return test ch
  else return false

/-- `json_set_error`, which keeps the first error. -/
def setError (p : JsonParser) (msg : Bytes) : JsonParser :=
  if p.err.isSome then p else { p with err := some msg }

end JsonParser

open JsonParser

/-- One turn of a `while` loop that passes over the bytes of a kind. -/
def skipTurn (test : UInt8 → Bool) (p : JsonParser) : Outcome (JsonParser ⊕ JsonParser) :=
  if p.pos < p.len then do
    let ch ← p.read p.pos
    if test ch then return .inl (p.skip 1) else return .inr p
  else return .inr p

def skipWhile (test : UInt8 → Bool) (n : Nat) (p : JsonParser) : Outcome JsonParser :=
  iterate (skipTurn test) n p

def isJsonSpace (ch : UInt8) : Bool :=
  !(ch != byte ' ' && ch != byte '\t' && ch != byte '\n' && ch != byte '\r')

def jsonSkipWs (n : Nat) (p : JsonParser) : Outcome JsonParser :=
  skipWhile isJsonSpace n p

def jsonMatchLiteral (p : JsonParser) (lit : Bytes) : Outcome (Bool × JsonParser) :=
  if p.len < p.pos + lit.length then return (false, p)
  else do
    let text ← p.readMany p.pos lit.length
    if text = lit then return (true, p.skip lit.length) else return (false, p)

/-! Strings. -/

/-- `strtoul(hex, NULL, 16)` of a buffer of four bytes, as an `unsigned int`. -/
def strtoul16 (hex : Bytes) : Nat :=
  let (neg, text) := splitSign hex
  let digits := text.takeWhile (isDigitOf 16)
  let prefixed := text.take 2 = bytes "0x" ∨ text.take 2 = bytes "0X"
  let more := (text.drop 2).takeWhile (isDigitOf 16)
  let n := digitsVal 16 (if prefixed ∧ more ≠ [] then more else digits)
  if neg then (2 ^ 32 - n) % 2 ^ 32 else n

/-- The bytes a code is stored as, each cut to a `char`. -/
def jsonCodeBytes (code : Nat) : Bytes :=
  if code < 0x80 then [code.toUInt8]
  else if code < 0x800 then
    [(0xC0 ||| (code >>> 6)).toUInt8, (0x80 ||| (code &&& 0x3F)).toUInt8]
  else
    [(0xE0 ||| (code >>> 12)).toUInt8, (0x80 ||| ((code >>> 6) &&& 0x3F)).toUInt8,
      (0x80 ||| (code &&& 0x3F)).toUInt8]

def jsonShortEscape (esc : UInt8) : Option UInt8 :=
  if esc = byte '"' then some (byte '"')
  else if esc = byte '\\' then some (byte '\\')
  else if esc = byte '/' then some (byte '/')
  else if esc = byte 'n' then some (byte '\n')
  else if esc = byte 't' then some (byte '\t')
  else if esc = byte 'r' then some (byte '\r')
  else if esc = byte 'b' then some 8
  else if esc = byte 'f' then some 12
  else none

/-- A turn of the string loop: the buffer and the parser, or what the function returns. -/
abbrev StringTurn := (Bytes × JsonParser) ⊕ (AerVal × JsonParser)

/-- From the byte after a backslash on. -/
def jsonEscape (b : Bytes) (p : JsonParser) : Outcome StringTurn :=
  if p.len ≤ p.pos then
    return .inr (.null, p.setError (bytes "Unterminated escape in JSON string"))
  else do
    let esc ← p.read p.pos
    match jsonShortEscape esc with
    | some ch => return .inl (b ++ [ch], p.skip 1)
    | none =>
      if esc = byte 'u' then
        -- The sum is an `unsigned int`.
        if p.len ≤ (p.pos + 4) % 2 ^ 32 then
          return .inr (.null, p.setError (bytes "Invalid \\u escape in JSON string"))
        else
          let hex ← p.readMany (p.pos + 1) 4
          return .inl (b ++ jsonCodeBytes (strtoul16 hex), p.skip 5)
      else return .inr (.null, p.setError (bytes "Invalid escape sequence in JSON string"))

/-- The end of the loop, at the closing quote or at the end of the text. -/
def jsonStringEnd (b : Bytes) (p : JsonParser) : AerVal × JsonParser :=
  if p.len ≤ p.pos then (.null, p.setError (bytes "Unterminated string in JSON"))
  else
    let (v, heap) := p.heap.aerMakeString b
    (v, { p.skip 1 with heap })

def jsonStringTurn (x : Bytes × JsonParser) : Outcome StringTurn :=
  let (b, p) := x
  if p.pos < p.len then do
    let ch ← p.read p.pos
    if ch = byte '"' then return .inr (jsonStringEnd b p)
    else if ch ≠ byte '\\' then return .inl (b ++ [ch], p.skip 1)
    else jsonEscape b (p.skip 1)
  else return .inr (jsonStringEnd b p)

def jsonParseStringRaw (n : Nat) (p : JsonParser) : Outcome (AerVal × JsonParser) :=
  iterate jsonStringTurn n ([], p.skip 1)

/-! Numbers. -/

/-- The digits that must stand here; whether they did. -/
def jsonDigits (n : Nat) (p : JsonParser) : Outcome (Bool × JsonParser) := do
  if ← p.looksAt isDigit then
    let p ← skipWhile isDigit n p
    return (true, p)
  else return (false, p.setError (bytes "Invalid number in JSON"))

def jsonIntegerPart (n : Nat) (p : JsonParser) : Outcome (Bool × JsonParser) := do
  if ← p.looksAt isDigit then
    let ch ← p.read p.pos
    if ch = byte '0' then return (true, p.skip 1)
    else
      let p ← skipWhile isDigit n p
      return (true, p)
  else return (false, p.setError (bytes "Invalid number in JSON"))

/-- Whether there was no error, and whether there is a fraction. -/
def jsonFraction (n : Nat) (p : JsonParser) : Outcome (Bool × Bool × JsonParser) := do
  if ← p.looksAt (· == byte '.') then
    let (ok, p) ← jsonDigits n (p.skip 1)
    return (ok, true, p)
  else return (true, false, p)

def jsonExponent (n : Nat) (p : JsonParser) : Outcome (Bool × Bool × JsonParser) := do
  if ← p.looksAt (fun ch => ch == byte 'e' || ch == byte 'E') then
    let p := p.skip 1
    let sign ← p.looksAt (fun ch => ch == byte '+' || ch == byte '-')
    let (ok, p) ← jsonDigits n (if sign then p.skip 1 else p)
    return (ok, true, p)
  else return (true, false, p)

/-- The conversion of the literal from `start` on, cut to 63 bytes. -/
def jsonNumberValue (start : Nat) (isReal : Bool) (p : JsonParser) :
    Outcome (AerVal × JsonParser) := do
  let n := p.pos - start
  let buf ← p.readMany start (if 64 ≤ n then 63 else n)
  if isReal then return (aerReal (Double.strtod buf), p)
  else
    let (v, heap) := p.heap.aerInt (strtoll buf)
    return (v, { p with heap })

def jsonParseNumber (n : Nat) (p : JsonParser) : Outcome (AerVal × JsonParser) := do
  let start := p.pos
  let sign ← p.looksAt (· == byte '-')
  let (ok, p) ← jsonIntegerPart n (if sign then p.skip 1 else p)
  if !ok then return (.null, p)
  else
    let (ok, fraction, p) ← jsonFraction n p
    if !ok then return (.null, p)
    else
      let (ok, exponent, p) ← jsonExponent n p
      if !ok then return (.null, p)
      else jsonNumberValue start (fraction || exponent) p

/-! Arrays and objects, given the parser of values. -/

abbrev ValueParser := JsonParser → Outcome (AerVal × JsonParser)

abbrev ContainerTurn := JsonParser ⊕ (AerVal × JsonParser)

/-- `r->items[r->count++] = v`, with the capacity doubled when it is used up. -/
def JsonParser.pushItem (p : JsonParser) (c : Nat) (v : AerVal) : JsonParser :=
  let r := p.heap.arrays.data c
  let capacity := if r.capacity ≤ r.items.length then r.capacity * 2 else r.capacity
  { p with heap := p.heap.setArray c { r with items := r.items ++ [v], capacity } }

def jsonArrayTurn (value : ValueParser) (n c : Nat) (p : JsonParser) : Outcome ContainerTurn := do
  let (v, p) ← value p
  if p.err.isSome then return .inr (.null, p)
  else
    let p ← jsonSkipWs n (p.pushItem c v)
    if p.len ≤ p.pos then
      return .inr (.null, p.setError (bytes "Unterminated array in JSON"))
    else
      let ch ← p.read p.pos
      if ch = byte ',' then
        let p ← jsonSkipWs n (p.skip 1)
        return .inl p
      else if ch = byte ']' then return .inr (.array c, p.skip 1)
      else return .inr (.null, p.setError (bytes "Expected ',' or ']' in JSON array"))

def jsonParseArray (value : ValueParser) (n : Nat) (p : JsonParser) :
    Outcome (AerVal × JsonParser) := do
  let empty : AerArray := { items := [], capacity := 4, shape := none }
  let c := (p.heap.arrays.alloc empty).1
  let p := { p.skip 1 with heap := (p.heap.newArray empty).2 }
  let p ← jsonSkipWs n p
  if ← p.looksAt (· == byte ']') then return (.array c, p.skip 1)
  else iterate (jsonArrayTurn value n c) n p

/-- `dictmap_put(&d->map, k, val)` -/
def JsonParser.putMember (p : JsonParser) (c : Nat) (k : Bytes) (v : AerVal) : JsonParser :=
  { p with heap := p.heap.setDict c ((p.heap.dicts.data c).put k v) }

/-- The bytes of the string just made. -/
def JsonParser.stringBytes (p : JsonParser) : AerVal → Bytes
  | .string c => p.heap.strings.data c
  | _ => []

def jsonObjectTurn (value : ValueParser) (n c : Nat) (p : JsonParser) : Outcome ContainerTurn := do
  let p ← jsonSkipWs n p
  if !(← p.looksAt (· == byte '"')) then
    return .inr (.null, p.setError (bytes "Expected string key in JSON object"))
  else
    let (key, p) ← jsonParseStringRaw n p
    if p.err.isSome then return .inr (.null, p)
    else
      let p ← jsonSkipWs n p
      if !(← p.looksAt (· == byte ':')) then
        return .inr (.null, p.setError (bytes "Expected ':' in JSON object"))
      else
        let p ← jsonSkipWs n (p.skip 1)
        let (v, p) ← value p
        if p.err.isSome then return .inr (.null, p)
        else
          let p ← jsonSkipWs n (p.putMember c (p.stringBytes key) v)
          if p.len ≤ p.pos then
            return .inr (.null, p.setError (bytes "Unterminated object in JSON"))
          else
            let ch ← p.read p.pos
            if ch = byte ',' then return .inl (p.skip 1)
            else if ch = byte '}' then return .inr (.dict c, p.skip 1)
            else return .inr (.null, p.setError (bytes "Expected ',' or '\x7d' in JSON object"))

def jsonParseObject (value : ValueParser) (n : Nat) (p : JsonParser) :
    Outcome (AerVal × JsonParser) := do
  let c := (p.heap.dicts.alloc HashTable.empty).1
  let p := { p.skip 1 with heap := (p.heap.newDict HashTable.empty).2 }
  let p ← jsonSkipWs n p
  if ← p.looksAt (· == byte '}') then return (.dict c, p.skip 1)
  else iterate (jsonObjectTurn value n c) n p

/-! Values. -/

def jsonLiteral (p : JsonParser) (lit : Bytes) (v : AerVal) : Outcome (AerVal × JsonParser) := do
  let (ok, p) ← jsonMatchLiteral p lit
  if ok then return (v, p) else return (.null, p.setError (bytes "Invalid literal in JSON"))

/-- The choice by the byte a value starts with. -/
def jsonParseAt (value : ValueParser) (n : Nat) (ch : UInt8) (p : JsonParser) :
    Outcome (AerVal × JsonParser) :=
  if ch = byte '"' then jsonParseStringRaw n p
  else if ch = byte '{' then jsonParseObject value n p
  else if ch = byte '[' then jsonParseArray value n p
  else if ch = byte 't' then jsonLiteral p (bytes "true") (aerBool true)
  else if ch = byte 'f' then jsonLiteral p (bytes "false") (aerBool false)
  else if ch = byte 'n' then jsonLiteral p (bytes "null") .null
  else if ch = byte '-' ∨ isDigit ch then jsonParseNumber n p
  else return (.null, p.setError (bytes "Unexpected character in JSON"))

/-- `json_parse_value`, with its recursive calls as a parameter. -/
def jsonParseValueWith (value : ValueParser) (n : Nat) (p : JsonParser) :
    Outcome (AerVal × JsonParser) := do
  let p ← jsonSkipWs n p
  if p.len ≤ p.pos then
    return (.null, p.setError (bytes "Unexpected end of JSON input"))
  else
    let ch ← p.read p.pos
    jsonParseAt value n ch p

def jsonParseValue : Nat → ValueParser
  | 0, _ => .error .outOfFuel
  | n + 1, p => jsonParseValueWith (jsonParseValue n) (n + 1) p

/-- The value and the parser at the end, with the error if there is one. -/
def jsonDecode (n : Nat) (heap : Heap) (input : Bytes) : Outcome (AerVal × JsonParser) := do
  let (result, p) ← jsonParseValue n { s := input, pos := 0, err := none, heap }
  let p ←
    if p.err.isNone then do
      let p ← jsonSkipWs n p
      if p.pos ≠ p.len then
        pure (p.setError (bytes "Trailing data after JSON value"))
      else pure p
    else pure p
  return (if p.err.isSome then .null else result, p)

end Aer.Json
