import Aer.Json.Grammar
import Aer.Memory.Heap

set_option linter.all false

/-! The encoder of values as JSON text. -/
namespace Aer.Json

open Aer.Data Aer.Memory

def hexDigit (n : Nat) : UInt8 :=
  if n < 10 then byte '0' + n.toUInt8 else byte 'a' + (n - 10).toUInt8

/-- `%04x` of a byte. -/
def hexText4 (ch : UInt8) : Bytes :=
  [byte '0', byte '0', hexDigit (ch.toNat / 16), hexDigit (ch.toNat % 16)]

def jsonEncodeByte (ch : UInt8) : Bytes :=
  if ch = byte '"' then bytes "\\\""
  else if ch = byte '\\' then bytes "\\\\"
  else if ch = byte '\n' then bytes "\\n"
  else if ch = byte '\r' then bytes "\\r"
  else if ch = byte '\t' then bytes "\\t"
  else if ch = 8 then bytes "\\b"
  else if ch = 12 then bytes "\\f"
  else if ch < 0x20 then bytes "\\u" ++ hexText4 ch
  else [ch]

/-- `json_encode_string`, appending to the buffer `b`. -/
def jsonEncodeString (b s : Bytes) : Bytes :=
  b ++ byte '"' :: s.flatMap jsonEncodeByte ++ [byte '"']

/-- A step of the encoder: whether it went well, and the buffer. No result stands for a
read of freed memory and for a value nested deeper than the bound. -/
abbrev EncodeResult := Option (Bool × Bytes)

/-- The elements of a container with commas between them. -/
def encodeAll {α : Type} (f : α → Bytes → EncodeResult) : Bool → List α → Bytes → EncodeResult
  | _, [], b => some (true, b)
  | first, x :: xs, b =>
      match f x (if first then b else b ++ [byte ',']) with
      | some (true, b) => encodeAll f false xs b
      | r => r

def closeWith (close : UInt8) : EncodeResult → EncodeResult
  | some (true, b) => some (true, b ++ [close])
  | r => r

/-- `json_encode_value`; `names` are the strings of the chunk's pool. A function value
is the one that cannot be encoded. -/
def jsonEncodeValue (names : Nat → Bytes) (h : Heap) : Nat → AerVal → Bytes → EncodeResult
  | _, .null, b => some (true, b ++ bytes "null")
  | _, .boolean v, b => some (true, b ++ if v then bytes "true" else bytes "false")
  | _, .integer n, b => some (true, b ++ intText n.val)
  | _, .long c, b =>
      if h.longs.Live c then some (true, b ++ intText (h.longs.data c)) else none
  | _, .real d, b => some (true, b ++ d.formatG)
  | _, .string c, b =>
      if h.strings.Live c then some (true, jsonEncodeString b (h.strings.data c)) else none
  | _, .function _, b => some (false, b)
  | 0, .array _, _ => none
  | 0, .dict _, _ => none
  | depth + 1, .array c, b =>
      if h.arrays.Live c then
        let a := h.arrays.data c
        match a.shape with
        | some id =>
            match h.shapes[id]? with
            | none => none
            | some shape =>
                closeWith (byte '}') <| encodeAll (fun f b =>
                    match a.items[f.2]? with
                    | none => none
                    | some v =>
                        jsonEncodeValue names h depth v (jsonEncodeString b (names f.1) ++ [byte ':']))
                  true (shape.fields.map Prod.fst).zipIdx (b ++ [byte '{'])
        | none =>
            closeWith (byte ']') <|
              encodeAll (jsonEncodeValue names h depth) true a.items (b ++ [byte '['])
      else none
  | depth + 1, .dict c, b =>
      if h.dicts.Live c then
        closeWith (byte '}') <| encodeAll (fun e b =>
            jsonEncodeValue names h depth e.2 (jsonEncodeString b e.1 ++ [byte ':']))
          true (h.dicts.data c).entries (b ++ [byte '{'])
      else none

example : jsonEncodeValue (fun _ => []) .init 0 (.integer ⟨-12, by decide⟩) [] =
    some (true, bytes "-12") := by decide

end Aer.Json
