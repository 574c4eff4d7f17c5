import Aer.Json.Decode
import Mathlib.Data.List.Infix

set_option linter.all false

/-! The position of the parser against the text that is left. -/
namespace Aer.Json

open Aer.Data Aer.Memory Aer.Lib.Scan

namespace JsonParser

variable {p q r : JsonParser}

/-- What is left of the text. -/
def rest (p : JsonParser) : Bytes := p.s.drop p.pos

/-- The bytes that are left. -/
def left (p : JsonParser) : Nat := p.len - p.pos

/-- `q` is `p` further on in the same text. -/
structure Reaches (p q : JsonParser) : Prop where
  text : q.s = p.s
  forward : p.pos ≤ q.pos
  inside : q.pos ≤ q.len

theorem Reaches.refl (h : p.pos ≤ p.len) : p.Reaches p := ⟨rfl, le_refl _, h⟩

theorem Reaches.trans (h : p.Reaches q) (h' : q.Reaches r) : p.Reaches r :=
  ⟨h'.text.trans h.text, h.forward.trans h'.forward, h'.inside⟩

theorem Reaches.len_eq (h : p.Reaches q) : q.len = p.len := by
  unfold len
  rw [h.text]

theorem Reaches.left_le (h : p.Reaches q) : q.left ≤ p.left := by
  have := h.len_eq
  have := h.forward
  unfold left
  omega

theorem Reaches.left_lt (h : p.Reaches q) (hlt : p.pos < q.pos) : q.left < p.left := by
  have := h.len_eq
  have := h.inside
  unfold left
  omega

theorem length_rest (p : JsonParser) : p.rest.length = p.left := List.length_drop

@[simp] theorem skip_zero (p : JsonParser) : p.skip 0 = p := rfl

@[simp] theorem skip_s (p : JsonParser) (k : Nat) : (p.skip k).s = p.s := rfl
@[simp] theorem skip_pos (p : JsonParser) (k : Nat) : (p.skip k).pos = p.pos + k := rfl
@[simp] theorem skip_err (p : JsonParser) (k : Nat) : (p.skip k).err = p.err := rfl
@[simp] theorem skip_heap (p : JsonParser) (k : Nat) : (p.skip k).heap = p.heap := rfl
@[simp] theorem skip_len (p : JsonParser) (k : Nat) : (p.skip k).len = p.len := rfl

@[simp] theorem skip_skip (p : JsonParser) (i k : Nat) : (p.skip i).skip k = p.skip (i + k) := by
  simp [skip, Nat.add_assoc]

theorem rest_skip (p : JsonParser) (k : Nat) : (p.skip k).rest = p.rest.drop k := by
  simp [rest]

theorem rest_skip_of_append {a t : Bytes} (h : p.rest = a ++ t) : (p.skip a.length).rest = t := by
  rw [rest_skip, h, List.drop_left]

theorem rest_skip_one {b : UInt8} {t : Bytes} (h : p.rest = b :: t) : (p.skip 1).rest = t := by
  rw [rest_skip, h, List.drop_one, List.tail_cons]

theorem reaches_skip {k : Nat} (h : k ≤ p.rest.length) (hp : p.pos ≤ p.len) :
    p.Reaches (p.skip k) := by
  rw [length_rest, left] at h
  exact ⟨rfl, Nat.le_add_right _ _, by rw [skip_pos, skip_len]; omega⟩

theorem left_skip (p : JsonParser) (k : Nat) : (p.skip k).left = p.left - k := by
  rw [← length_rest, rest_skip, List.length_drop, length_rest]

theorem rest_eq_nil_iff : p.rest = [] ↔ p.len ≤ p.pos := List.drop_eq_nil_iff

theorem rest_ne_nil (h : p.pos < p.len) : ∃ b t, p.rest = b :: t :=
  List.exists_cons_of_ne_nil (by rw [Ne, rest_eq_nil_iff]; omega)

theorem lt_of_rest {b : UInt8} {t : Bytes} (h : p.rest = b :: t) : p.pos < p.len := by
  by_contra hge
  rw [rest_eq_nil_iff.mpr (by omega)] at h
  cases h

theorem read_of_rest {b : UInt8} {t : Bytes} (h : p.rest = b :: t) : p.read p.pos = .ok b := by
  have hb : p.s[p.pos]? = some b := by
    rw [← List.head?_drop]
    exact congrArg List.head? h
  rw [read, hb]

theorem looksAt_eq (p : JsonParser) (test : UInt8 → Bool) :
    p.looksAt test = .ok (p.rest.head?.any test) := by
  unfold looksAt
  by_cases h : p.pos < p.len
  · obtain ⟨b, t, hr⟩ := rest_ne_nil h
    rw [if_pos h, read_of_rest hr, hr]
    rfl
  · rw [if_neg h, rest_eq_nil_iff.mpr (by omega)]
    rfl

theorem readMany_of_rest {a t : Bytes} (h : p.rest = a ++ t) (hp : p.pos ≤ p.len) :
    p.readMany p.pos a.length = .ok a := by
  have hlen := congrArg List.length h
  rw [length_rest, List.length_append, left] at hlen
  rw [readMany, if_pos (by omega)]
  exact congrArg Except.ok (by rw [← rest, h, List.take_left])

/-! The fields an error, a new cell or a store leaves alone. -/

@[simp] theorem setError_s (p : JsonParser) (m : Bytes) : (p.setError m).s = p.s := by
  unfold setError
  split <;> rfl

@[simp] theorem setError_pos (p : JsonParser) (m : Bytes) : (p.setError m).pos = p.pos := by
  unfold setError
  split <;> rfl

@[simp] theorem setError_heap (p : JsonParser) (m : Bytes) : (p.setError m).heap = p.heap := by
  unfold setError
  split <;> rfl

@[simp] theorem setError_err (p : JsonParser) (m : Bytes) : (p.setError m).err.isSome := by
  unfold setError
  split <;> simp_all

theorem reaches_setError (h : p.pos ≤ p.len) (m : Bytes) : p.Reaches (p.setError m) :=
  ⟨by simp, by simp, by simpa [len] using h⟩

@[simp] theorem pushItem_s (p : JsonParser) (c : Nat) (v : AerVal) : (p.pushItem c v).s = p.s := rfl
@[simp] theorem pushItem_pos (p : JsonParser) (c : Nat) (v : AerVal) :
    (p.pushItem c v).pos = p.pos := rfl
@[simp] theorem pushItem_err (p : JsonParser) (c : Nat) (v : AerVal) :
    (p.pushItem c v).err = p.err := rfl
@[simp] theorem pushItem_rest (p : JsonParser) (c : Nat) (v : AerVal) :
    (p.pushItem c v).rest = p.rest := rfl

@[simp] theorem putMember_s (p : JsonParser) (c : Nat) (k : Bytes) (v : AerVal) :
    (p.putMember c k v).s = p.s := rfl
@[simp] theorem putMember_pos (p : JsonParser) (c : Nat) (k : Bytes) (v : AerVal) :
    (p.putMember c k v).pos = p.pos := rfl
@[simp] theorem putMember_err (p : JsonParser) (c : Nat) (k : Bytes) (v : AerVal) :
    (p.putMember c k v).err = p.err := rfl
@[simp] theorem putMember_rest (p : JsonParser) (c : Nat) (k : Bytes) (v : AerVal) :
    (p.putMember c k v).rest = p.rest := rfl

end JsonParser

open JsonParser

variable {p : JsonParser}

/-! Loops that pass over bytes. -/

theorem skipTurn_again {test : UInt8 → Bool} {b : UInt8} {t : Bytes} (h : p.rest = b :: t)
    (hb : test b = true) : skipTurn test p = .ok (.inl (p.skip 1)) := by
  rw [skipTurn, if_pos (lt_of_rest h), read_of_rest h]
  simp only [ok_bind, hb, ↓reduceIte]
  rfl

theorem skipTurn_leave {test : UInt8 → Bool} (h : p.rest.head?.any test = false) :
    skipTurn test p = .ok (.inr p) := by
  unfold skipTurn
  by_cases hlt : p.pos < p.len
  · obtain ⟨b, t, hr⟩ := rest_ne_nil hlt
    rw [if_pos hlt, read_of_rest hr]
    rw [hr] at h
    simp only [ok_bind, Bool.eq_false_iff.mpr (by simpa using h), Bool.false_eq_true, ↓reduceIte]
    rfl
  · rw [if_neg hlt]
    rfl

theorem skipWhile_eq (test : UInt8 → Bool) {n : Nat} (hn : p.left < n) :
    skipWhile test n p = .ok (p.skip (p.rest.takeWhile test).length) := by
  induction n generalizing p with
  | zero => exact absurd hn (Nat.not_lt_zero _)
  | succ n ih =>
    unfold skipWhile
    cases hr : p.rest with
    | nil => rw [iterate_leave (skipTurn_leave (by rw [hr]; rfl))]; rfl
    | cons b t =>
      cases hb : test b with
      | false =>
        rw [iterate_leave (skipTurn_leave (by rw [hr]; exact hb)), List.takeWhile_cons, hb]
        rfl
      | true =>
        have hlt := lt_of_rest hr
        rw [iterate_again (skipTurn_again hr hb)]
        refine (ih (p := p.skip 1) (by rw [left_skip]; unfold left at hn ⊢; omega)).trans ?_
        rw [rest_skip_one hr, List.takeWhile_cons, hb]
        simp [Nat.add_comm]

theorem rest_skipWhile (p : JsonParser) (test : UInt8 → Bool) :
    (p.skip (p.rest.takeWhile test).length).rest = p.rest.dropWhile test := by
  refine rest_skip_of_append ?_
  rw [List.takeWhile_append_dropWhile]

theorem reaches_skipWhile (test : UInt8 → Bool) (hp : p.pos ≤ p.len) :
    p.Reaches (p.skip (p.rest.takeWhile test).length) :=
  reaches_skip (List.takeWhile_sublist _).length_le hp

theorem isJsonSpace_eq (b : UInt8) : isJsonSpace b = isWs b := by
  unfold isJsonSpace isWs
  cases h₁ : b == byte ' ' <;> cases h₂ : b == byte '\t' <;> cases h₃ : b == byte '\n' <;>
    cases h₄ : b == byte '\r' <;> simp_all [bne]

end Aer.Json
