import Aer.Data.Bytes

set_option linter.all false

/-! The JSON grammar of RFC 8259 over bytes. A derivation relates a text to what it
denotes and to what is left of it. The grammar is read in a dialect, which says what may
stand in a string, what a `\u` escape denotes and which integers there are. -/
namespace Aer.Json

open Aer.Data

inductive Tree
  | null
  | boolean (b : Bool)
  | integer (n : Int)
  | real (literal : Bytes)
  | string (b : Bytes)
  | array (items : List Tree)
  | object (members : List (Bytes × Tree))

structure Dialect where
  /-- The bytes that stand for themselves in a string. -/
  plain : UInt8 → Prop
  /-- What `\u` and four bytes stand for. -/
  unit : Bytes → Option Bytes
  /-- The value of an integer literal. -/
  integer : Bytes → Option Int

def quote : UInt8 := byte '"'
def backslash : UInt8 := byte '\\'

def isWs (b : UInt8) : Bool :=
  b == byte ' ' || b == byte '\t' || b == byte '\n' || b == byte '\r'

/-- The letters after a backslash, but for `u`. -/
def shortEscapes : List (UInt8 × UInt8) :=
  [(quote, quote), (backslash, backslash), (byte '/', byte '/'), (byte 'b', 8), (byte 'f', 12),
    (byte 'n', 10), (byte 'r', 13), (byte 't', 9)]

/-! Numbers. -/

def AllDigits (ds : Bytes) : Prop := ∀ d ∈ ds, isDigit d = true

inductive IsInteger : Bytes → Prop
  | zero : IsInteger [byte '0']
  | digits {d : UInt8} {ds : Bytes} (hd : isDigit d = true) (hne : d ≠ byte '0')
      (hds : AllDigits ds) : IsInteger (d :: ds)

inductive IsSigned : Bytes → Prop
  | plus {i : Bytes} (h : IsInteger i) : IsSigned i
  | minus {i : Bytes} (h : IsInteger i) : IsSigned (byte '-' :: i)

inductive IsFraction : Bytes → Prop
  | mk {ds : Bytes} (hne : ds ≠ []) (hds : AllDigits ds) : IsFraction (byte '.' :: ds)

inductive IsExponent : Bytes → Prop
  | mk {e : UInt8} {s ds : Bytes} (he : e = byte 'e' ∨ e = byte 'E')
      (hs : s = [] ∨ s = [byte '+'] ∨ s = [byte '-'])
      (hne : ds ≠ []) (hds : AllDigits ds) : IsExponent (e :: (s ++ ds))

/-- A number with a fraction, an exponent or both. -/
inductive IsReal : Bytes → Prop
  | fraction {i f : Bytes} (hi : IsSigned i) (hf : IsFraction f) : IsReal (i ++ f)
  | exponent {i e : Bytes} (hi : IsSigned i) (he : IsExponent e) : IsReal (i ++ e)
  | both {i f e : Bytes} (hi : IsSigned i) (hf : IsFraction f) (he : IsExponent e) :
      IsReal (i ++ f ++ e)

/-- The integer a literal names. -/
def integerValue (literal : Bytes) : Int :=
  match literal with
  | [] => 0
  | c :: ds => if c = byte '-' then -digitsVal 10 ds else digitsVal 10 (c :: ds)

/-! The grammar. -/

inductive Ws : Bytes → Bytes → Prop
  | none (r : Bytes) : Ws r r
  | more {b : UInt8} {t r : Bytes} (hb : isWs b = true) (ht : Ws t r) : Ws (b :: t) r

theorem Ws.trans {t u r : Bytes} (h : Ws t u) (h' : Ws u r) : Ws t r := by
  induction h with
  | none => exact h'
  | more hb _ ih => exact .more hb (ih h')

/-- The characters of a string after its opening quote, to its closing one. -/
inductive Chars (d : Dialect) : Bytes → Bytes → Bytes → Prop
  | close (r : Bytes) : Chars d (quote :: r) [] r
  | plain {b : UInt8} {t m r : Bytes} (hq : b ≠ quote) (hb : b ≠ backslash) (hp : d.plain b)
      (h : Chars d t m r) : Chars d (b :: t) (b :: m) r
  | escape {e b : UInt8} {t m r : Bytes} (he : (e, b) ∈ shortEscapes) (h : Chars d t m r) :
      Chars d (backslash :: e :: t) (b :: m) r
  | unit {q u t m r : Bytes} (hq : q.length = 4) (hu : d.unit q = some u) (h : Chars d t m r) :
      Chars d (backslash :: byte 'u' :: (q ++ t)) (u ++ m) r

/-- What a derivation is of: a value, the items of an array up to its closing bracket,
or the members of an object up to its closing brace. -/
inductive Phrase
  | value (j : Tree)
  | items (js : List Tree)
  | members (ms : List (Bytes × Tree))

inductive Derives (d : Dialect) : Phrase → Bytes → Bytes → Prop
  | null (r : Bytes) : Derives d (.value .null) (bytes "null" ++ r) r
  | true (r : Bytes) : Derives d (.value (.boolean true)) (bytes "true" ++ r) r
  | false (r : Bytes) : Derives d (.value (.boolean false)) (bytes "false" ++ r) r
  | integer {l : Bytes} {n : Int} (hl : IsSigned l) (hn : d.integer l = some n) (r : Bytes) :
      Derives d (.value (.integer n)) (l ++ r) r
  | real {l : Bytes} (hl : IsReal l) (r : Bytes) : Derives d (.value (.real l)) (l ++ r) r
  | string {t m r : Bytes} (h : Chars d t m r) : Derives d (.value (.string m)) (quote :: t) r
  | emptyArray {t r : Bytes} (h : Ws t (byte ']' :: r)) :
      Derives d (.value (.array [])) (byte '[' :: t) r
  | array {t r : Bytes} {js : List Tree} (h : Derives d (.items js) t r) :
      Derives d (.value (.array js)) (byte '[' :: t) r
  | emptyObject {t r : Bytes} (h : Ws t (byte '}' :: r)) :
      Derives d (.value (.object [])) (byte '{' :: t) r
  | object {t r : Bytes} {ms : List (Bytes × Tree)} (h : Derives d (.members ms) t r) :
      Derives d (.value (.object ms)) (byte '{' :: t) r
  | lastItem {t t₁ t₂ r : Bytes} {j : Tree} (h₁ : Ws t t₁) (hj : Derives d (.value j) t₁ t₂)
      (h₂ : Ws t₂ (byte ']' :: r)) : Derives d (.items [j]) t r
  | nextItem {t t₁ t₂ t₃ r : Bytes} {j : Tree} {js : List Tree} (h₁ : Ws t t₁)
      (hj : Derives d (.value j) t₁ t₂) (h₂ : Ws t₂ (byte ',' :: t₃))
      (hjs : Derives d (.items js) t₃ r) : Derives d (.items (j :: js)) t r
  | lastMember {t t₁ t₂ t₃ t₄ t₅ r k : Bytes} {j : Tree} (h₁ : Ws t (quote :: t₁))
      (hk : Chars d t₁ k t₂) (h₂ : Ws t₂ (byte ':' :: t₃)) (h₃ : Ws t₃ t₄)
      (hj : Derives d (.value j) t₄ t₅) (h₄ : Ws t₅ (byte '}' :: r)) :
      Derives d (.members [(k, j)]) t r
  | nextMember {t t₁ t₂ t₃ t₄ t₅ t₆ r k : Bytes} {j : Tree} {ms : List (Bytes × Tree)}
      (h₁ : Ws t (quote :: t₁)) (hk : Chars d t₁ k t₂) (h₂ : Ws t₂ (byte ':' :: t₃))
      (h₃ : Ws t₃ t₄) (hj : Derives d (.value j) t₄ t₅) (h₄ : Ws t₅ (byte ',' :: t₆))
      (hms : Derives d (.members ms) t₆ r) : Derives d (.members ((k, j) :: ms)) t r

abbrev Value (d : Dialect) (j : Tree) (t r : Bytes) : Prop := Derives d (.value j) t r

/-- A JSON text: a value with nothing around it but blanks. -/
def Text (d : Dialect) (text : Bytes) (j : Tree) : Prop :=
  ∃ t r, Ws text t ∧ Value d j t r ∧ Ws r []

/-! One dialect within another. -/

structure Dialect.Within (d e : Dialect) : Prop where
  plain : ∀ b, d.plain b → e.plain b
  unit : ∀ q u, q.length = 4 → d.unit q = some u → e.unit q = some u
  integer : ∀ l n, IsSigned l → d.integer l = some n → e.integer l = some n

theorem Dialect.Within.refl (d : Dialect) : d.Within d :=
  ⟨fun _ h => h, fun _ _ _ h => h, fun _ _ _ h => h⟩

theorem Chars.within {d e : Dialect} (hd : d.Within e) {t m r : Bytes} (h : Chars d t m r) :
    Chars e t m r := by
  induction h with
  | close r => exact .close r
  | plain hq hb hp _ ih => exact .plain hq hb (hd.plain _ hp) ih
  | escape he _ ih => exact .escape he ih
  | unit hq hu _ ih => exact .unit hq (hd.unit _ _ hq hu) ih

theorem Derives.within {d e : Dialect} (hd : d.Within e) {x : Phrase} {t r : Bytes}
    (h : Derives d x t r) : Derives e x t r := by
  induction h with
  | null r => exact .null r
  | true r => exact .true r
  | false r => exact .false r
  | integer hl hn r => exact .integer hl (hd.integer _ _ hl hn) r
  | real hl r => exact .real hl r
  | string h => exact .string (h.within hd)
  | emptyArray h => exact .emptyArray h
  | array _ ih => exact .array ih
  | emptyObject h => exact .emptyObject h
  | object _ ih => exact .object ih
  | lastItem h₁ _ h₂ ih => exact .lastItem h₁ ih h₂
  | nextItem h₁ _ h₂ _ ihj ihs => exact .nextItem h₁ ihj h₂ ihs
  | lastMember h₁ hk h₂ h₃ _ h₄ ih => exact .lastMember h₁ (hk.within hd) h₂ h₃ ih h₄
  | nextMember h₁ hk h₂ h₃ _ h₄ _ ihj ihs =>
      exact .nextMember h₁ (hk.within hd) h₂ h₃ ihj h₄ ihs

theorem Text.within {d e : Dialect} (hd : d.Within e) {text : Bytes} {j : Tree}
    (h : Text d text j) : Text e text j := by
  obtain ⟨t, r, h₁, hj, h₂⟩ := h
  exact ⟨t, r, h₁, hj.within hd, h₂⟩

/-! RFC 8259. -/

def isHex (b : UInt8) : Bool := isDigitOf 16 b

/-- The UTF-8 form of a code unit. -/
def utf8 (code : Nat) : Bytes :=
  if code < 0x80 then [code.toUInt8]
  else if code < 0x800 then [(0xC0 + code / 64).toUInt8, (0x80 + code % 64).toUInt8]
  else [(0xE0 + code / 4096).toUInt8, (0x80 + code / 64 % 64).toUInt8,
    (0x80 + code % 64).toUInt8]

def hexUnit (q : Bytes) : Option Bytes :=
  if q.all isHex then some (utf8 (digitsVal 16 q)) else none

def rfc8259 : Dialect where
  plain b := 0x20 ≤ b
  unit := hexUnit
  integer l := some (integerValue l)

/-- JSON whose integers fit 64 bits. -/
def rfc8259Long : Dialect where
  plain b := 0x20 ≤ b
  unit := hexUnit
  integer l :=
    let n := integerValue l
    if -2 ^ 63 ≤ n ∧ n < 2 ^ 63 then some n else none

theorem rfc8259Long_within : rfc8259Long.Within rfc8259 where
  plain _ h := h
  unit _ _ _ h := h
  integer l n _ h := by
    simp only [rfc8259Long, Option.ite_none_right_eq_some] at h
    exact h.2

end Aer.Json
