import Aer.Data.Value
import Mathlib.Data.BitVec

set_option linter.all false

/-! The 64-bit word of a value. A word is a double unless its top thirteen bits are those of a
positive quiet NaN; then the next three are a type and the low 48 its payload. -/
namespace Aer.Data.ValueBox

/-- The bits of an `AerVal`. -/
abbrev Word := BitVec 64

/-- An address of the process, or null. -/
abbrev Pointer := BitVec 64

/-- The 64-bit integers behind the addresses of the pool of them. -/
abbrev LongPool := Pointer → BitVec 64

def boxedMask : Word := 0xFFF8000000000000
def boxedTest : Word := 0x7FF8000000000000
def tagShift : Nat := 48
def payloadMask : Word := 0x0000FFFFFFFFFFFF
def bigFlagBit : Word := 1 <<< 47
def int47Mask : Word := 0x00007FFFFFFFFFFF
def int47SignBit : Word := 1 <<< 46

def tagOf (t : ValueType) : Word := BitVec.ofNat 64 t.ctorIdx

/-- The conversion of three bits to `ValueType`. -/
def typeOf (tag : Word) : ValueType :=
  match tag.toNat with
  | 0 => .null
  | 1 => .boolean
  | 2 => .integer
  | 3 => .real
  | 4 => .string
  | 5 => .function
  | 6 => .array
  | _ => .dict

def aerIsBoxed (v : Word) : Bool := v &&& boxedMask == boxedTest

def aerType (v : Word) : ValueType :=
  if !aerIsBoxed v then .real else typeOf (v >>> tagShift &&& 7)

def aerNull : Word := boxedTest ||| tagOf .null <<< tagShift

def aerBool (b : Bool) : Word :=
  boxedTest ||| tagOf .boolean <<< tagShift ||| if b then 1 else 0

def aerReal (d : Double) : Word :=
  if d.isNaN then boxedTest ||| tagOf .real <<< tagShift else d.word

def aerBoxPtr (tag : ValueType) (p : Pointer) : Word :=
  boxedTest ||| tagOf tag <<< tagShift ||| p &&& payloadMask

/-- `aer_int`, where the pool hands out the cell at `box` if one is needed. -/
def aerInt (longs : LongPool) (box : Pointer) (n : BitVec 64) : Word × LongPool :=
  if -2 ^ 46 ≤ n.toInt ∧ n.toInt ≤ 2 ^ 46 - 1 then
    (boxedTest ||| tagOf .integer <<< tagShift ||| n &&& int47Mask, longs)
  else
    (boxedTest ||| tagOf .integer <<< tagShift ||| bigFlagBit ||| box &&& int47Mask,
      Function.update longs box n)

def aerAsBool (v : Word) : Bool := v &&& 1 != 0

def aerAsReal (v : Word) : Double := if !aerIsBoxed v then ⟨v⟩ else ⟨boxedTest⟩

def aerPayloadPtr (v : Word) : Pointer := v &&& payloadMask

def aerIntIsBoxed (v : Word) : Bool := aerType v == .integer && v &&& bigFlagBit != 0

def aerIntBoxPtr (v : Word) : Pointer := v &&& int47Mask

def aerAsInt (longs : LongPool) (v : Word) : BitVec 64 :=
  if aerIntIsBoxed v then longs (aerIntBoxPtr v)
  else
    let p47 := v &&& int47Mask
    if p47 &&& int47SignBit != 0 then p47 ||| ~~~int47Mask else p47

/-- The public `Value`; its data are the eight bytes of the union. -/
structure Value where
  type : ValueType
  data : BitVec 64

namespace Value

/-- The `char` of the union is its low byte. -/
def ofBoolean (b : Bool) : BitVec 64 := if b then 1 else 0

def boolean (data : BitVec 64) : Bool := data &&& 0xFF != 0

end Value

def aerValToPublic (longs : LongPool) (v : Word) : Value :=
  match aerType v with
  | .null => ⟨.null, 0⟩
  | .boolean => ⟨.boolean, Value.ofBoolean (aerAsBool v)⟩
  | .integer => ⟨.integer, aerAsInt longs v⟩
  | .real => ⟨.real, (aerAsReal v).word⟩
  | t => ⟨t, aerPayloadPtr v⟩

def aerValFromPublic (longs : LongPool) (box : Pointer) (v : Value) : Word × LongPool :=
  match v.type with
  | .null => (aerNull, longs)
  | .boolean => (aerBool (Value.boolean v.data), longs)
  | .integer => aerInt longs box v.data
  | .real => (aerReal ⟨v.data⟩, longs)
  | t => (aerBoxPtr t v.data, longs)

/-! What a value is: its type and its payload. -/

inductive Payload
  | null
  | boolean (b : Bool)
  | integer (n : BitVec 64)
  | real (d : Double)
  | string (p : Pointer)
  | function (p : Pointer)
  | array (p : Pointer)
  | dict (p : Pointer)
  deriving DecidableEq

namespace Payload

def type : Payload → ValueType
  | null => .null
  | boolean _ => .boolean
  | integer _ => .integer
  | real _ => .real
  | string _ => .string
  | function _ => .function
  | array _ => .array
  | dict _ => .dict

/-- Every NaN is the same one. -/
def canonical : Payload → Payload
  | real d => real (if d.isNaN then ⟨boxedTest⟩ else d)
  | p => p

/-- A pointer has 48 bits. -/
def Fits : Payload → Prop
  | string p | function p | array p | dict p => p.toNat < 2 ^ 48
  | _ => True

instance (p : Payload) : Decidable p.Fits := by cases p <;> unfold Fits <;> infer_instance

end Payload

/-- The word that the constructor of the payload's type makes. -/
def make (longs : LongPool) (box : Pointer) : Payload → Word × LongPool
  | .null => (aerNull, longs)
  | .boolean b => (aerBool b, longs)
  | .integer n => aerInt longs box n
  | .real d => (aerReal d, longs)
  | .string p => (aerBoxPtr .string p, longs)
  | .function p => (aerBoxPtr .function p, longs)
  | .array p => (aerBoxPtr .array p, longs)
  | .dict p => (aerBoxPtr .dict p, longs)

/-- What the accessor of the word's type reads. -/
def read (longs : LongPool) (v : Word) : Payload :=
  match aerType v with
  | .null => .null
  | .boolean => .boolean (aerAsBool v)
  | .integer => .integer (aerAsInt longs v)
  | .real => .real (aerAsReal v)
  | .string => .string (aerPayloadPtr v)
  | .function => .function (aerPayloadPtr v)
  | .array => .array (aerPayloadPtr v)
  | .dict => .dict (aerPayloadPtr v)

/-! Masks and shifts in arithmetic. -/

theorem toNat_and_payloadMask (v : Word) : (v &&& payloadMask).toNat = v.toNat % 2 ^ 48 := by
  rw [BitVec.toNat_and]
  exact Nat.and_two_pow_sub_one_eq_mod v.toNat 48

theorem toNat_and_int47Mask (v : Word) : (v &&& int47Mask).toNat = v.toNat % 2 ^ 47 := by
  rw [BitVec.toNat_and]
  exact Nat.and_two_pow_sub_one_eq_mod v.toNat 47

theorem and_twoPow_bne_zero (v : Word) {i : Nat} (hi : i < 64) :
    (v &&& BitVec.twoPow 64 i != 0) = decide (v.toNat / 2 ^ i % 2 = 1) := by
  have hne : BitVec.twoPow 64 i ≠ 0 := by
    intro h
    have := congrArg BitVec.toNat h
    rw [BitVec.toNat_twoPow_of_lt hi] at this
    exact absurd this (Nat.two_pow_pos i).ne'
  rw [BitVec.and_twoPow, BitVec.getLsbD, Nat.testBit_eq_decide_div_mod_eq]
  split
  · next h => rw [h, bne_iff_ne]; exact hne
  · next h => rw [Bool.not_eq_true] at h; rw [h]; rfl

theorem aerIsBoxed_iff (v : Word) : aerIsBoxed v = true ↔ v.toNat / 2 ^ 51 = 0xFFF := by
  have hmask : boxedMask = BitVec.allOnes 64 <<< 51 := rfl
  unfold aerIsBoxed
  rw [hmask, ← BitVec.shiftLeft_ushiftRight, beq_iff_eq, ← BitVec.toNat_inj, BitVec.toNat_shiftLeft, BitVec.toNat_ushiftRight,
    Nat.shiftRight_eq_div_pow, Nat.shiftLeft_eq]
  have hv := v.isLt
  have htest : boxedTest.toNat = 0xFFF * 2 ^ 51 := rfl
  omega

/-- The word of a type and a payload of 48 bits. -/
theorem toNat_box (t : ValueType) {p : Word} (hp : p.toNat < 2 ^ 48) :
    (boxedTest ||| tagOf t <<< tagShift ||| p).toNat =
      (0x7FF8 + t.ctorIdx) * 2 ^ 48 + p.toNat := by
  have htop : (boxedTest ||| tagOf t <<< tagShift).toNat = (0x7FF8 + t.ctorIdx) <<< 48 := by
    cases t <;> rfl
  rw [BitVec.toNat_or, htop, ← Nat.shiftLeft_add_eq_or_of_lt hp, Nat.shiftLeft_eq]

theorem typeOf_ctorIdx (t : ValueType) {tag : Word} (h : tag.toNat = t.ctorIdx) : typeOf tag = t := by
  unfold typeOf
  rw [h]
  cases t <;> rfl

theorem aerIsBoxed_box (t : ValueType) {p : Word} (hp : p.toNat < 2 ^ 48) :
    aerIsBoxed (boxedTest ||| tagOf t <<< tagShift ||| p) = true := by
  rw [aerIsBoxed_iff, toNat_box t hp]
  have ht : t.ctorIdx < 8 := by cases t <;> decide
  omega

theorem aerType_box (t : ValueType) {p : Word} (hp : p.toNat < 2 ^ 48) :
    aerType (boxedTest ||| tagOf t <<< tagShift ||| p) = t := by
  unfold aerType
  rw [aerIsBoxed_box t hp]
  refine typeOf_ctorIdx t ?_
  have ht : t.ctorIdx < 8 := by cases t <;> decide
  have hand (v : Word) : (v &&& 7).toNat = v.toNat % 2 ^ 3 := by
    rw [BitVec.toNat_and]
    exact Nat.and_two_pow_sub_one_eq_mod v.toNat 3
  rw [hand, BitVec.toNat_ushiftRight, Nat.shiftRight_eq_div_pow, toNat_box t hp]
  unfold tagShift
  omega

/-! Integers. -/

theorem bigFlag_iff (v : Word) : (v &&& bigFlagBit != 0) = decide (v.toNat / 2 ^ 47 % 2 = 1) :=
  and_twoPow_bne_zero v (i := 47) (by decide)

theorem toNat_sext (v : Word) (hv : v.toNat < 2 ^ 47) :
    (v ||| ~~~int47Mask).toNat = (2 ^ 17 - 1) * 2 ^ 47 + v.toNat := by
  have hmask : (~~~int47Mask).toNat = (2 ^ 17 - 1) <<< 47 := rfl
  rw [BitVec.toNat_or, hmask, Nat.or_comm, ← Nat.shiftLeft_add_eq_or_of_lt hv, Nat.shiftLeft_eq]

/-- An integer that is held inline, by its 47 bits. -/
theorem aerAsInt_inline (longs : LongPool) {v n : Word} (hlow : v.toNat % 2 ^ 48 = n.toNat % 2 ^ 47)
    (hn : -2 ^ 46 ≤ n.toInt ∧ n.toInt ≤ 2 ^ 46 - 1) : aerAsInt longs v = n := by
  have hflag : aerIntIsBoxed v = false := by
    unfold aerIntIsBoxed
    rw [bigFlag_iff, decide_eq_false (by omega), Bool.and_false]
  have hp47 := toNat_and_int47Mask v
  have hsign := and_twoPow_bne_zero (v &&& int47Mask) (i := 46) (by decide)
  have hint := BitVec.toInt_eq_toNat_cond n
  have hlt := n.isLt
  unfold aerAsInt
  rw [hflag, if_neg Bool.false_ne_true]
  apply BitVec.eq_of_toNat_eq
  change (if (v &&& int47Mask &&& int47SignBit != 0) = true then
    v &&& int47Mask ||| ~~~int47Mask else v &&& int47Mask).toNat = _
  rw [show (v &&& int47Mask &&& int47SignBit != 0) = _ from hsign]
  split at hint
  · rw [if_neg (by rw [decide_eq_true_iff]; omega)]
    omega
  · rw [if_pos (by rw [decide_eq_true_iff]; omega), toNat_sext _ (by omega)]
    omega

/-- An integer that the pool holds. -/
theorem aerAsInt_boxed (longs : LongPool) {v : Word} {box : Pointer} (hv : aerType v = .integer)
    (hlow : v.toNat % 2 ^ 48 = 2 ^ 47 + box.toNat) : aerAsInt longs v = longs box := by
  have hlt := v.isLt
  have hflag : aerIntIsBoxed v = true := by
    unfold aerIntIsBoxed
    rw [bigFlag_iff, decide_eq_true (by omega), hv]
    rfl
  have hptr : aerIntBoxPtr v = box := by
    apply BitVec.eq_of_toNat_eq
    rw [aerIntBoxPtr, toNat_and_int47Mask]
    have := box.isLt
    omega
  unfold aerAsInt
  rw [hflag, if_pos rfl, hptr]

/-- A double that is not a NaN is its own word. -/
theorem aerIsBoxed_of_not_isNaN {d : Double} (hd : d.isNaN = false) : aerIsBoxed d.word = false := by
  rw [Bool.eq_false_iff, ne_eq, aerIsBoxed_iff]
  intro h
  refine Bool.eq_false_iff.mp hd ?_
  have hexpo : d.expo = 2047 := by
    unfold Double.expo
    omega
  have hfrac : d.frac ≠ 0 := by
    unfold Double.frac
    omega
  unfold Double.isNaN
  rw [hexpo, beq_self_eq_true, Bool.true_and, bne_iff_ne]
  exact hfrac

/-! The constructors. -/

/-- The word has the type and the payload. -/
structure Boxes (longs : LongPool) (v : Word) (p : Payload) : Prop where
  type : aerType v = p.type
  payload : read longs v = p.canonical

section Make
variable (longs : LongPool)

theorem boxes_null : Boxes longs aerNull .null := ⟨rfl, rfl⟩

theorem boxes_bool (b : Bool) : Boxes longs (aerBool b) (.boolean b) := by
  have hlt : (if b then 1 else 0 : Word).toNat < 2 ^ 48 := by cases b <;> decide
  have htype : aerType (aerBool b) = .boolean := aerType_box .boolean hlt
  have hbool : aerAsBool (aerBool b) = b := by
    have hbit := and_twoPow_bne_zero (aerBool b) (i := 0) (by decide)
    refine hbit.trans ?_
    rw [aerBool, toNat_box .boolean hlt]
    cases b <;> decide
  refine ⟨htype, ?_⟩
  unfold read
  rw [htype]
  exact congrArg Payload.boolean hbool

theorem boxes_real (d : Double) : Boxes longs (aerReal d) (.real d) := by
  unfold aerReal
  split
  · next hnan => exact ⟨rfl, congrArg Payload.real (if_pos hnan).symm⟩
  · next hnan =>
    have hboxed := aerIsBoxed_of_not_isNaN (Bool.eq_false_iff.mpr hnan)
    have htype : aerType d.word = .real := by
      unfold aerType
      rw [hboxed]
      rfl
    have hreal : aerAsReal d.word = d := by
      unfold aerAsReal
      rw [hboxed]
      rfl
    refine ⟨htype, ?_⟩
    unfold read
    rw [htype]
    exact congrArg Payload.real (hreal.trans (if_neg hnan).symm)

theorem aerType_boxPtr (t : ValueType) (p : Pointer) : aerType (aerBoxPtr t p) = t :=
  aerType_box t (by rw [toNat_and_payloadMask]; omega)

theorem aerPayloadPtr_boxPtr (t : ValueType) {p : Pointer} (hp : p.toNat < 2 ^ 48) :
    aerPayloadPtr (aerBoxPtr t p) = p := by
  have hmask := toNat_and_payloadMask p
  apply BitVec.eq_of_toNat_eq
  rw [aerPayloadPtr, toNat_and_payloadMask, aerBoxPtr, toNat_box t (by omega)]
  omega

theorem boxes_integer {v : Word} {n : BitVec 64} (htype : aerType v = .integer)
    (hread : aerAsInt longs v = n) : Boxes longs v (.integer n) := by
  refine ⟨htype, ?_⟩
  unfold read
  rw [htype]
  exact congrArg Payload.integer hread

theorem boxes_inline {n : BitVec 64} (hn : -2 ^ 46 ≤ n.toInt ∧ n.toInt ≤ 2 ^ 46 - 1) :
    Boxes longs (boxedTest ||| tagOf .integer <<< tagShift ||| n &&& int47Mask) (.integer n) := by
  have hmask := toNat_and_int47Mask n
  refine boxes_integer longs (aerType_box .integer (by omega)) (aerAsInt_inline longs ?_ hn)
  rw [toNat_box .integer (by omega)]
  omega

theorem boxes_big {box : Pointer} (hbox : box.toNat < 2 ^ 47) {n : BitVec 64}
    (hcell : longs box = n) :
    Boxes longs (boxedTest ||| tagOf .integer <<< tagShift ||| bigFlagBit ||| box &&& int47Mask)
      (.integer n) := by
  have hbig : (bigFlagBit ||| box &&& int47Mask).toNat = 2 ^ 47 + box.toNat := by
    have hmask := toNat_and_int47Mask box
    have hflag : bigFlagBit.toNat = 1 <<< 47 := rfl
    rw [BitVec.toNat_or, hflag, ← Nat.shiftLeft_add_eq_or_of_lt (by omega), Nat.shiftLeft_eq]
    omega
  have htype := aerType_box .integer (p := bigFlagBit ||| box &&& int47Mask) (by omega)
  have hlow : (boxedTest ||| tagOf .integer <<< tagShift |||
      (bigFlagBit ||| box &&& int47Mask)).toNat % 2 ^ 48 = 2 ^ 47 + box.toNat := by
    rw [toNat_box .integer (by omega)]
    omega
  rw [BitVec.or_assoc]
  exact boxes_integer longs htype ((aerAsInt_boxed longs htype hlow).trans hcell)

theorem boxes_int {box : Pointer} (hbox : box.toNat < 2 ^ 47) {n : BitVec 64} {before : LongPool}
    (hkeep : longs box = (aerInt before box n).2 box) :
    Boxes longs (aerInt before box n).1 (.integer n) := by
  unfold aerInt at hkeep ⊢
  split at hkeep
  · next hn =>
    rw [if_pos hn]
    exact boxes_inline longs hn
  · next hn =>
    rw [if_neg hn]
    exact boxes_big longs hbox (hkeep.trans (Function.update_self ..))

/-- A payload is read back as long as the cell that it may have been given is left alone. -/
theorem boxes_make {box : Pointer} (hbox : box.toNat < 2 ^ 47) {p : Payload} (hp : p.Fits)
    {before : LongPool} (hkeep : longs box = (make before box p).2 box) :
    Boxes longs (make before box p).1 p := by
  cases p with
  | null => exact boxes_null longs
  | boolean b => exact boxes_bool longs b
  | integer n => exact boxes_int longs hbox hkeep
  | real d => exact boxes_real longs d
  | string p | function p | array p | dict p =>
    refine ⟨aerType_boxPtr _ p, ?_⟩
    unfold make read
    rw [aerType_boxPtr, aerPayloadPtr_boxPtr _ hp]
    rfl

end Make

/-! The public seam. -/

theorem aerPayloadPtr_lt (v : Word) : (aerPayloadPtr v).toNat < 2 ^ 48 := by
  rw [aerPayloadPtr, toNat_and_payloadMask]
  omega

theorem read_fits (longs : LongPool) (v : Word) : (read longs v).Fits := by
  unfold read
  split
  all_goals first | exact trivial | exact aerPayloadPtr_lt v

/-- Out to the public value and back is to make the payload that the word has anew. -/
theorem aerValFromPublic_toPublic (longs longs' : LongPool) (box : Pointer) (v : Word) :
    aerValFromPublic longs' box (aerValToPublic longs v) = make longs' box (read longs v) := by
  unfold aerValToPublic read
  generalize aerType v = t
  cases t with
  | boolean =>
    have hbyte (b : Bool) : Value.boolean (Value.ofBoolean b) = b := by cases b <;> decide
    exact congrArg (fun b => (aerBool b, longs')) (hbyte _)
  | _ => rfl

theorem type_toPublic (longs : LongPool) (v : Word) : (aerValToPublic longs v).type = aerType v := by
  unfold aerValToPublic
  generalize aerType v = t
  cases t <;> rfl

theorem canonical_canonical (p : Payload) : p.canonical.canonical = p.canonical := by
  cases p with
  | real d =>
    have hnan : (⟨boxedTest⟩ : Double).isNaN = true := by decide
    have hreal (d : Double) : (Payload.real d).canonical =
        .real (if d.isNaN then ⟨boxedTest⟩ else d) := rfl
    rw [hreal]
    split
    · rw [hreal, if_pos hnan]
    · next hd => rw [hreal, if_neg hd]
  | _ => rfl

/-- The boxing of values is exact. A word made of a payload has its type and reads as that
payload while the pool keeps the integer; it goes through a public `Value` unchanged; and two
words of different payloads are different and are read as different. -/
theorem boxing_exact {longs before : LongPool} {box : Pointer} {p : Payload}
    (hbox : box.toNat < 2 ^ 47) (hp : p.Fits) (hkeep : longs box = (make before box p).2 box) :
    Boxes longs (make before box p).1 p ∧
    (∀ fresh : Pointer, fresh.toNat < 2 ^ 47 →
      let out := aerValToPublic longs (make before box p).1
      let again := aerValFromPublic longs fresh out
      out.type = p.type ∧ Boxes again.2 again.1 p) ∧
    ∀ (before' : LongPool) (box' : Pointer) (q : Payload), box'.toNat < 2 ^ 47 → q.Fits →
      longs box' = (make before' box' q).2 box' → p.canonical ≠ q.canonical →
      (make before box p).1 ≠ (make before' box' q).1 ∧
      read longs (make before box p).1 ≠ read longs (make before' box' q).1 := by
  have hfirst := boxes_make longs hbox hp hkeep
  refine ⟨hfirst, fun fresh hfresh => ?_, fun before' box' q hbox' hq hkeep' hne => ?_⟩
  · dsimp only
    rw [aerValFromPublic_toPublic, hfirst.payload]
    have hfits : p.canonical.Fits := by
      rw [← hfirst.payload]
      exact read_fits longs _
    have hagain : Boxes (make longs fresh p.canonical).2 (make longs fresh p.canonical).1
        p.canonical := boxes_make _ hfresh hfits rfl
    refine ⟨(type_toPublic longs _).trans hfirst.type, ?_, ?_⟩
    · rw [hagain.type]
      cases p <;> rfl
    · rw [hagain.payload, canonical_canonical]
  · have hsecond := boxes_make longs hbox' hq hkeep'
    have hread : read longs (make before box p).1 ≠ read longs (make before' box' q).1 := by
      rw [hfirst.payload, hsecond.payload]
      exact hne
    exact ⟨fun hword => hread (congrArg (read longs) hword), hread⟩

/-- An integer that needs a cell of the pool, beside the string whose address has the same low
bits. -/
theorem boxing_exact_big :
    let p := Payload.integer (2 ^ 62)
    let q := Payload.string (2 ^ 47 + 4096)
    let made := make (fun _ => 0) 4096 p
    Boxes made.2 made.1 p ∧
    (∀ fresh : Pointer, fresh.toNat < 2 ^ 47 →
      let out := aerValToPublic made.2 made.1
      let again := aerValFromPublic made.2 fresh out
      out.type = p.type ∧ Boxes again.2 again.1 p) ∧
    made.1 ≠ (make (fun _ => 0) 8192 q).1 ∧
      read made.2 made.1 ≠ read made.2 (make (fun _ => 0) 8192 q).1 := by
  have hp : (Payload.integer (2 ^ 62)).Fits := by decide
  have hq : (Payload.string (2 ^ 47 + 4096)).Fits := by decide
  obtain ⟨hbox, hseam, hapart⟩ := @boxing_exact (make (fun _ => 0) 4096 (.integer (2 ^ 62))).2
    (fun _ => 0) 4096 (.integer (2 ^ 62)) (by decide) hp rfl
  exact ⟨hbox, hseam, hapart (fun _ => 0) 8192 _ (by decide) hq (by decide +kernel)
    (by decide)⟩

/-! The values of the machine as words: a cell is the address that a pool has given it. -/

structure Layout where
  long : Nat → Pointer
  string : Nat → Pointer
  function : Nat → Pointer
  array : Nat → Pointer
  dict : Nat → Pointer
  long_lt : ∀ c, (long c).toNat < 2 ^ 47
  fits : ∀ c, (string c).toNat < 2 ^ 48 ∧ (function c).toNat < 2 ^ 48 ∧ (array c).toNat < 2 ^ 48 ∧
    (dict c).toNat < 2 ^ 48

namespace Layout
variable (l : Layout)

/-- The word of a value of the machine. -/
def word : AerVal → Word
  | .null => aerNull
  | .boolean b => aerBool b
  | .integer n => boxedTest ||| tagOf .integer <<< tagShift ||| BitVec.ofInt 64 n.val &&& int47Mask
  | .long c => boxedTest ||| tagOf .integer <<< tagShift ||| bigFlagBit ||| l.long c &&& int47Mask
  | .real d => ValueBox.aerReal d
  | .string c => aerBoxPtr .string (l.string c)
  | .function c => aerBoxPtr .function (l.function c)
  | .array c => aerBoxPtr .array (l.array c)
  | .dict c => aerBoxPtr .dict (l.dict c)

/-- The long pool in which the cells of the integers hold what the heap's do. -/
def Holds (longs : LongPool) (data : Nat → Int) : Prop :=
  ∀ c, longs (l.long c) = BitVec.ofInt 64 (data c)

/-- What a value is, by the data of the integers. -/
def payload (data : Nat → Int) : AerVal → Payload
  | .null => .null
  | .boolean b => .boolean b
  | .integer n => .integer (BitVec.ofInt 64 n.val)
  | .long c => .integer (BitVec.ofInt 64 (data c))
  | .real d => .real d
  | .string c => .string (l.string c)
  | .function c => .function (l.function c)
  | .array c => .array (l.array c)
  | .dict c => .dict (l.dict c)

theorem toInt_ofInt_of_isInt47 {n : Int} (hn : IsInt47 n) : (BitVec.ofInt 64 n).toInt = n := by
  unfold IsInt47 at hn
  rw [BitVec.toInt_ofInt]
  apply Int.bmod_eq_of_le <;> omega

/-- A value is read from its word as what it is. -/
theorem boxes_word {longs : LongPool} {data : Nat → Int} (h : l.Holds longs data) (v : AerVal) :
    Boxes longs (l.word v) (l.payload data v) := by
  have hmake (p : Payload) (hp : p.Fits) (hpool : (make longs 0 p).2 = longs) :
      Boxes longs (make longs 0 p).1 p :=
    boxes_make longs (by decide) hp (congrFun hpool 0).symm
  cases v with
  | null => exact boxes_null longs
  | boolean b => exact boxes_bool longs b
  | integer n => exact boxes_inline longs ((toInt_ofInt_of_isInt47 n.inRange).symm ▸ n.inRange)
  | long c => exact boxes_big longs (l.long_lt c) (h c)
  | real d => exact boxes_real longs d
  | string c => exact hmake (.string _) (l.fits c).1 rfl
  | function c => exact hmake (.function _) (l.fits c).2.1 rfl
  | array c => exact hmake (.array _) (l.fits c).2.2.1 rfl
  | dict c => exact hmake (.dict _) (l.fits c).2.2.2 rfl

end Layout

end Aer.Data.ValueBox
