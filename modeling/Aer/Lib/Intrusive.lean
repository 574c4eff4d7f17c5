import Mathlib.Data.List.Nodup
import Mathlib.Data.Nat.Digits.Defs

set_option linter.all false

/-! Singly linked lists threaded through the first eight bytes of their cells, in a
memory of bytes. -/
namespace Aer.Lib.Intrusive

abbrev Mem := Nat → UInt8

/-- The little-endian pointer at an address. -/
def loadPtr (m : Mem) (a : Nat) : Nat :=
  Nat.ofDigits 256 ((List.range 8).map fun i => (m (a + i)).toNat)

def storePtr (m : Mem) (a v : Nat) : Mem := fun b =>
  if a ≤ b ∧ b < a + 8 then UInt8.ofNat (v / 256 ^ (b - a)) else m b

theorem loadPtr_congr {m m' : Mem} {a : Nat} (h : ∀ b, a ≤ b → b < a + 8 → m' b = m b) :
    loadPtr m' a = loadPtr m a := by
  unfold loadPtr
  congr 1
  apply List.map_congr_left
  intro i hi
  rw [h (a + i) (by omega) (by have := List.mem_range.mp hi; omega)]

@[simp] theorem loadPtr_storePtr (m : Mem) (a : Nat) {v : Nat} (hv : v < 2 ^ 64) :
    loadPtr (storePtr m a v) a = v := by
  have hbyte : ∀ i, i < 8 → (storePtr m a v (a + i)).toNat = v / 256 ^ i % 256 := by
    intro i hi
    unfold storePtr
    rw [if_pos ⟨by omega, by omega⟩, Nat.add_sub_cancel_left]
    rfl
  have hdigits : loadPtr (storePtr m a v) a =
      Nat.ofDigits 256 ((List.range 8).map fun i => v / 256 ^ i % 256) := by
    unfold loadPtr
    congr 1
    apply List.map_congr_left
    intro i hi
    exact hbyte i (List.mem_range.mp hi)
  rw [hdigits]
  simp only [List.range, List.range.loop, List.map_cons, List.map_nil, Nat.ofDigits_cons,
    Nat.ofDigits_nil]
  norm_num
  omega

theorem storePtr_of_apart (m : Mem) {a b : Nat} (v : Nat) (h : b < a ∨ a + 8 ≤ b) :
    storePtr m a v b = m b := by
  unfold storePtr
  rw [if_neg (by omega)]

/-- The list that starts at a pointer and ends in the null pointer. -/
inductive Chain (m : Mem) : Nat → List Nat → Prop
  | nil : Chain m 0 []
  | cons {a : Nat} {l : List Nat} : 0 < a → Chain m (loadPtr m a) l → Chain m a (a :: l)

/-- A list depends on the link bytes of its cells only. -/
theorem Chain.frame {m m' : Mem} {a : Nat} {l : List Nat} (h : Chain m a l)
    (hm : ∀ c ∈ l, ∀ b, c ≤ b → b < c + 8 → m' b = m b) : Chain m' a l := by
  induction h with
  | nil => exact .nil
  | cons ha _ ih =>
    have hload := loadPtr_congr (hm _ List.mem_cons_self)
    refine .cons ha ?_
    rw [hload]
    exact ih fun c hc => hm c (List.mem_cons_of_mem _ hc)

/-- A new cell in front of the list, apart from the cells it has. -/
theorem Chain.push {m : Mem} {a c : Nat} {l : List Nat} (h : Chain m a l) (hc : 0 < c)
    (ha : a < 2 ^ 64) (hapart : ∀ d ∈ l, d + 8 ≤ c ∨ c + 8 ≤ d) :
    Chain (storePtr m c a) c (c :: l) := by
  refine .cons hc ?_
  rw [loadPtr_storePtr m c ha]
  apply h.frame
  intro d hd b hlo hhi
  have := hapart d hd
  exact storePtr_of_apart m a (by omega)

theorem Chain.eq_zero_iff {m : Mem} {a : Nat} {l : List Nat} (h : Chain m a l) :
    a = 0 ↔ l = [] := by
  cases h with
  | nil => simp
  | cons ha _ => simp [Nat.ne_of_gt ha]

theorem Chain.tail {m : Mem} {a c : Nat} {l : List Nat} (h : Chain m a (c :: l)) :
    a = c ∧ Chain m (loadPtr m c) l := by
  cases h with
  | cons _ ht => exact ⟨rfl, ht⟩

theorem Chain.lt {m : Mem} {a n : Nat} {l : List Nat} (h : Chain m a l) (hn : 0 < n)
    (hl : ∀ c ∈ l, c < n) : a < n := by
  cases h with
  | nil => exact hn
  | cons _ _ => exact hl a List.mem_cons_self

end Aer.Lib.Intrusive
