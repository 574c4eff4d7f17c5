import Aer.Lib.Sorting
import Aer.Machine.FloorDivision
import Aer.Stdlib.Strings

set_option linter.all false

/-! `math.sort`: its comparator against the exact orders of integers and of byte strings. -/
namespace Aer.Stdlib

open Aer.Data Aer.Memory Aer.Machine Aer.Lib

/-- The difference of the first two bytes that differ, among the first `n`. -/
def memcmp : Nat → Bytes → Bytes → Int
  | n + 1, x :: a, y :: b => if x = y then memcmp n a b else (x.toNat : Int) - y.toNat
  | _, _, _ => 0

/-- A number as `int`. -/
def int32 (n : Int) : Int :=
  (n + 2 ^ 31) % 2 ^ 32 - 2 ^ 31

def compareTexts (a b : Bytes) : Int :=
  let c := memcmp (min a.length b.length) a b
  if c ≠ 0 then c else int32 (int32 a.length - int32 b.length)

def compareNumbers (x y : Double) : Int :=
  if x.blt y then -1 else if y.blt x then 1 else 0

def textOf (h : Heap) : AerVal → Bytes
  | .string c => h.strings.data c
  | _ => []

/-- A number as a double. -/
def numberOf (h : Heap) : AerVal → Double
  | .real d => d
  | .integer n => .ofInt n.val
  | .long c => .ofInt (h.longs.data c)
  | _ => .zero false

def sortCmp (h : Heap) (a b : AerVal) : Int :=
  if a.type = .string then compareTexts (textOf h a) (textOf h b)
  else compareNumbers (numberOf h a) (numberOf h b)

/-- `sort` of the module `math`, with C's `qsort`. -/
def sort (qsort : (AerVal → AerVal → Int) → List AerVal → List AerVal) (s : State)
    (arr : AerVal) : Call (AerVal × Heap) :=
  match arr with
  | .array c => do
      let a ← orUndefined (s.arrayData c)
      if a.shape.isSome then fail "sort() cannot sort a struct instance"
      else
        let numeric := a.items.all fun v => v.type == .integer || v.type == .real
        let stringy := a.items.all fun v => v.type == .string
        if 0 < a.items.length ∧ !numeric ∧ !stringy then
          fail "sort() requires all elements to be numbers, or all to be strings"
        else return (arr, s.heap.setArray c { a with items := qsort (sortCmp s.heap) a.items })
  | _ => fail "sort() requires an array"

/-! The order of byte strings. -/

/-- The exact comparison, the shorter of two first where it is a prefix. -/
def lexCompare : Bytes → Bytes → Int
  | [], [] => 0
  | [], _ :: _ => -1
  | _ :: _, [] => 1
  | x :: a, y :: b => if x = y then lexCompare a b else (x.toNat : Int) - y.toNat

section Lexicographic
variable {a b c : Bytes}

theorem toNat_ne {x y : UInt8} (h : x ≠ y) : x.toNat ≠ y.toNat :=
  fun heq => h (UInt8.toNat_inj.mp heq)

theorem lexCompare_swap (a b : Bytes) : lexCompare b a = -lexCompare a b := by
  induction a, b using lexCompare.induct with
  | case1 => rfl
  | case2 y b => rfl
  | case3 x a => rfl
  | case4 x a b ih => simpa [lexCompare] using ih
  | case5 x a y b hne =>
    simp only [lexCompare, hne, Ne.symm hne, if_false]
    omega

theorem lexCompare_neg_iff (a b : Bytes) : lexCompare a b < 0 ↔ List.Lex (· < ·) a b := by
  induction a, b using lexCompare.induct with
  | case1 => exact iff_of_false (by decide) nofun
  | case2 y b => exact iff_of_true (by simp [lexCompare]) .nil
  | case3 x a => exact iff_of_false (by simp [lexCompare]) nofun
  | case4 x a b ih =>
    simp only [lexCompare, if_true, ih]
    refine ⟨.cons, fun h => ?_⟩
    cases h with
    | cons h => exact h
    | rel h => exact absurd h (UInt8.lt_irrefl _)
  | case5 x a y b hne =>
    simp only [lexCompare, hne, if_false]
    refine ⟨fun h => .rel (UInt8.lt_iff_toNat_lt.mpr (by omega)), fun h => ?_⟩
    cases h with
    | cons h => exact absurd rfl hne
    | rel h =>
      have := UInt8.lt_iff_toNat_lt.mp h
      omega

theorem lexCompare_trans : lexCompare a b ≤ 0 → lexCompare b c ≤ 0 → lexCompare a c ≤ 0 := by
  induction a generalizing b c with
  | nil =>
    intro _ _
    cases c <;> simp [lexCompare]
  | cons x a ih =>
    cases b with
    | nil =>
      intro h
      simp [lexCompare] at h
    | cons y b =>
      cases c with
      | nil =>
        intro _ h
        simp [lexCompare] at h
      | cons z c =>
        simp only [lexCompare]
        intro hab hbc
        split at hab
        · next hxy =>
          subst hxy
          split at hbc
          · next h => exact (if_pos h).symm ▸ ih hab hbc
          · next h =>
            rw [if_neg h]
            exact hbc
        · next hxy =>
          have := toNat_ne hxy
          split at hbc
          · next h =>
            subst h
            rw [if_neg hxy]
            exact hab
          · next h =>
            have hlt : x.toNat < z.toNat := by omega
            rw [if_neg fun h => hlt.ne (congrArg UInt8.toNat h)]
            omega

theorem lexCompare_order (l : List Bytes) : Sorting.TotalPreorderOn lexCompare l where
  flip x _ y _ := by
    rw [lexCompare_swap x y]
    omega
  trans _ _ _ _ _ _ := lexCompare_trans

/-- Where no byte differs one string begins the other, and the lengths decide. -/
theorem memcmp_spec (a b : Bytes) :
    if memcmp (min a.length b.length) a b = 0 then
      (a <+: b ∨ b <+: a) ∧ (lexCompare a b < 0 ↔ a.length < b.length) ∧
        (0 < lexCompare a b ↔ b.length < a.length)
    else lexCompare a b = memcmp (min a.length b.length) a b := by
  induction a, b using lexCompare.induct with
  | case1 => simp [memcmp, lexCompare]
  | case2 y b => simp [memcmp, lexCompare]
  | case3 x a => simp [memcmp, lexCompare]
  | case4 x a b ih =>
    simp only [List.length_cons, Nat.succ_min_succ, memcmp, if_true, lexCompare,
      List.cons_prefix_cons, true_and, Nat.add_lt_add_iff_right]
    exact ih
  | case5 x a y b hne =>
    have hdiff : (x.toNat : Int) - y.toNat ≠ 0 := by
      have := toNat_ne hne
      omega
    simp only [List.length_cons, Nat.succ_min_succ, memcmp, hne, hdiff, if_false, lexCompare]

theorem int32_of_lt {n : Int} (hlo : -2 ^ 31 ≤ n) (hhi : n < 2 ^ 31) : int32 n = n := by
  unfold int32
  omega

/-- The difference of two unsigned 32-bit numbers as an `int`. -/
theorem int32_sub (m n : Int) : int32 (int32 m - int32 n) = int32 (m - n) := by
  unfold int32
  omega

/-- Lengths less than 2^31 apart are compared exactly. -/
theorem compareTexts_sign (hab : a <+: b → b.length - a.length < 2 ^ 31)
    (hba : b <+: a → a.length - b.length < 2 ^ 31) :
    (compareTexts a b < 0 ↔ lexCompare a b < 0) ∧ (0 < compareTexts a b ↔ 0 < lexCompare a b) := by
  have hspec := memcmp_spec a b
  unfold compareTexts
  dsimp only
  split at hspec
  · next hzero =>
    obtain ⟨hbegins, hneg, hpos⟩ := hspec
    have hdiff : int32 ((a.length : Int) - b.length) = a.length - b.length := by
      apply int32_of_lt <;> rcases hbegins with h | h
      · have := hab h
        omega
      · have := h.length_le
        omega
      · have := h.length_le
        omega
      · have := hba h
        omega
    rw [if_neg (not_not.mpr hzero), int32_sub, hdiff, hneg, hpos]
    omega
  · next hne =>
    rw [if_pos hne, hspec]
    exact ⟨Iff.rfl, Iff.rfl⟩

theorem memcmp_append (n : Nat) (a t : Bytes) :
    memcmp n a (a ++ t) = 0 ∧ memcmp n (a ++ t) a = 0 := by
  induction a generalizing n with
  | nil => cases n <;> cases t <;> exact ⟨rfl, rfl⟩
  | cons x a ih =>
    cases n with
    | zero => exact ⟨rfl, rfl⟩
    | succ n => simpa [memcmp] using ih n

/-- A string of 2^31 or more further bytes is taken for the smaller one. -/
theorem compareTexts_far (hab : a <+: b) (hfar : 2 ^ 31 ≤ b.length - a.length)
    (hb : b.length < 2 ^ 32) : compareTexts b a < 0 ∧ lexCompare a b < 0 := by
  obtain ⟨t, rfl⟩ := hab
  have hspec := memcmp_spec a (a ++ t)
  rw [if_pos (memcmp_append _ a t).1, List.length_append] at hspec
  rw [List.length_append] at hfar hb
  refine ⟨?_, hspec.2.1.mpr (by omega)⟩
  unfold compareTexts
  dsimp only
  rw [if_neg (not_not.mpr (memcmp_append _ a t).2), int32_sub, List.length_append]
  unfold int32
  omega

end Lexicographic

/-! The orders of the elements. -/

/-- Not greater: integers by value, strings by their bytes. -/
def NotGreater (s : State) (v w : AerVal) : Prop :=
  (∃ m n, s.asInt v = some m ∧ s.asInt w = some n ∧ m ≤ n) ∨
    ∃ c d x y, v = .string c ∧ w = .string d ∧ s.stringData c = some x ∧ s.stringData d = some y ∧
      ¬ List.Lex (· < ·) y x

def AllInts (s : State) (items : List AerVal) : Prop :=
  ∀ v ∈ items, ∃ n, s.asInt v = some n ∧ IsLong n

def AllTexts (s : State) (items : List AerVal) : Prop :=
  ∀ v ∈ items, ∃ c x, v = .string c ∧ s.stringData c = some x ∧ x.length < 2 ^ 32

/-- The comparator orders the elements, and every correct sort by it leaves a permutation in the
exact order. -/
structure Sorts (s : State) (c : Nat) (a : AerArray) : Prop where
  preorder : Sorting.TotalPreorderOn (sortCmp s.heap) a.items
  sorted : ∀ qsort, Sorting.Correct qsort → ∃ h, sort qsort s (.array c) = .ok (.array c, h) ∧
    (h.arrays.data c).items.Perm a.items ∧ (h.arrays.data c).items.Pairwise (NotGreater s)

/-- No two integers share a double, and no string is another one with 2^31 or more bytes behind. -/
def Distinguished (s : State) (items : List AerVal) : Prop :=
  ∀ v ∈ items, ∀ w ∈ items,
    (∀ m n, s.asInt v = some m → s.asInt w = some n → (Double.ofInt m).beq (.ofInt n) → m = n) ∧
    ∀ c d x y, v = .string c → w = .string d → s.stringData c = some x → s.stringData d = some y →
      x <+: y → y.length - x.length < 2 ^ 31

section Arrays
variable {s : State} {c : Nat} {a : AerArray}

theorem sort_eq (ha : s.arrayData c = some a) (hshape : a.shape = none)
    (hitems : AllInts s a.items ∨ AllTexts s a.items)
    (qsort : (AerVal → AerVal → Int) → List AerVal → List AerVal) :
    sort qsort s (.array c) =
      .ok (.array c, s.heap.setArray c { a with items := qsort (sortCmp s.heap) a.items }) := by
  have huniform : ¬ (0 < a.items.length ∧
      (!a.items.all fun v => v.type == .integer || v.type == .real) = true ∧
      (!a.items.all fun v => v.type == .string) = true) := by
    rintro ⟨-, hnumeric, hstringy⟩
    rcases hitems with h | h
    · have hall : (a.items.all fun v => v.type == .integer || v.type == .real) = true :=
        List.all_eq_true.mpr fun v hv => by
          obtain ⟨n, hn, -⟩ := h v hv
          simp [type_of_asInt hn]
      rw [hall] at hnumeric
      cases hnumeric
    · have hall : (a.items.all fun v => v.type == .string) = true :=
        List.all_eq_true.mpr fun v hv => by
          obtain ⟨c, x, rfl, -, -⟩ := h v hv
          rfl
      rw [hall] at hstringy
      cases hstringy
  unfold sort
  dsimp only
  rw [ha]
  change (if a.shape.isSome then _ else _ : Call (AerVal × Heap)) = _
  rw [hshape]
  exact if_neg huniform

theorem sorts_iff (ha : s.arrayData c = some a) (hshape : a.shape = none)
    (hitems : AllInts s a.items ∨ AllTexts s a.items) :
    Sorts s c a ↔ Sorting.TotalPreorderOn (sortCmp s.heap) a.items ∧
      ∀ out : List AerVal, out.Perm a.items →
        (out.Pairwise fun v w => sortCmp s.heap v w ≤ 0) → out.Pairwise (NotGreater s) := by
  have hdata (items : List AerVal) :
      ((s.heap.setArray c { a with items }).arrays.data c).items = items := by
    change (Function.update s.heap.arrays.data c { a with items } c).items = _
    rw [Function.update_self]
  constructor
  · rintro ⟨horder, hsorted⟩
    refine ⟨horder, fun out hperm hout => ?_⟩
    obtain ⟨qsort, hcorrect, heq⟩ := Sorting.exists_correct hperm hout
    obtain ⟨h, hrun, -, hexact⟩ := hsorted qsort hcorrect
    rw [sort_eq ha hshape hitems, heq] at hrun
    cases hrun
    rwa [hdata] at hexact
  · rintro ⟨horder, hsorted⟩
    refine ⟨horder, fun qsort hcorrect => ⟨_, sort_eq ha hshape hitems qsort, ?_⟩⟩
    obtain ⟨hperm, hout⟩ := hcorrect _ _ horder
    rw [hdata]
    exact ⟨hperm, hsorted _ hperm hout⟩

end Arrays

section Ints
variable {s : State} {items : List AerVal} (hints : AllInts s items)

/-- The integer that an element holds. -/
def intOf (s : State) (v : AerVal) : Int := (s.asInt v).getD 0

include hints

theorem asInt_of_mem {v : AerVal} (hv : v ∈ items) :
    s.asInt v = some (intOf s v) ∧ (intOf s v).natAbs ≤ 2 ^ 63 := by
  obtain ⟨n, hn, hlong⟩ := hints v hv
  unfold intOf
  rw [hn, Option.getD_some]
  unfold IsLong at hlong
  exact ⟨rfl, by omega⟩

theorem notGreater_ints {v w : AerVal} (hv : v ∈ items) (hw : w ∈ items) :
    NotGreater s v w ↔ intOf s v ≤ intOf s w := by
  have hv' := (asInt_of_mem hints hv).1
  have hw' := (asInt_of_mem hints hw).1
  constructor
  · rintro (⟨m, n, hm, hn, hle⟩ | ⟨c, d, x, y, rfl, -, -, -, -⟩)
    · rw [hv'] at hm
      rw [hw'] at hn
      cases hm
      cases hn
      exact hle
    · cases hv'
  · exact fun hle => .inl ⟨_, _, hv', hw', hle⟩

/-- The comparator sees integers to 53 significant bits. -/
theorem sortCmp_ints {v w : AerVal} (hv : v ∈ items) (hw : w ∈ items) :
    (sortCmp s.heap v w < 0 ↔ Double.nearInt (intOf s v) < Double.nearInt (intOf s w)) ∧
      (0 < sortCmp s.heap v w ↔ Double.nearInt (intOf s w) < Double.nearInt (intOf s v)) := by
  have hnumber {u : AerVal} (hu : u ∈ items) : numberOf s.heap u = .ofInt (intOf s u) := by
    have h := (asInt_of_mem hints hu).1
    cases u with
    | integer n => rfl
    | long c =>
      change (if s.heap.longs.Live c then some (s.heap.longs.data c) else none) = _ at h
      split at h
      · exact congrArg Double.ofInt (Option.some.inj h)
      · cases h
    | _ => cases h
  have hstring : v.type ≠ .string := by
    rw [type_of_asInt (asInt_of_mem hints hv).1]
    decide
  have hv' := (asInt_of_mem hints hv).2
  have hw' := (asInt_of_mem hints hw).2
  unfold sortCmp compareNumbers
  rw [if_neg hstring, hnumber hv, hnumber hw]
  simp only [Double.blt_ofInt hv' hw', Double.blt_ofInt hw' hv']
  split
  · omega
  · split <;> omega

theorem ints_order : Sorting.TotalPreorderOn (sortCmp s.heap) items where
  flip v hv w hw := by rw [(sortCmp_ints hints hv hw).1, (sortCmp_ints hints hw hv).2]
  trans v hv w hw u hu := by
    have hvw := (sortCmp_ints hints hv hw).2
    have hwu := (sortCmp_ints hints hw hu).2
    have hvu := (sortCmp_ints hints hv hu).2
    omega

/-- Integers are sorted exactly where no two of them share a double. -/
theorem ints_sorted_iff :
    (∀ out : List AerVal, out.Perm items →
        (out.Pairwise fun v w => sortCmp s.heap v w ≤ 0) → out.Pairwise (NotGreater s)) ↔
      ∀ v ∈ items, ∀ w ∈ items,
        Double.nearInt (intOf s v) = Double.nearInt (intOf s w) → intOf s v = intOf s w := by
  constructor
  · intro hall
    -- A sort may leave the integers that share a double in descending order.
    let cmp (v w : AerVal) : Int :=
      if Double.nearInt (intOf s v) < Double.nearInt (intOf s w) then -1
      else if Double.nearInt (intOf s w) < Double.nearInt (intOf s v) then 1
      else intOf s w - intOf s v
    have horder : Sorting.TotalPreorderOn cmp items := by
      constructor
      · intro v _ w _
        dsimp only [cmp]
        split_ifs <;> omega
      · intro v _ w _ u _
        dsimp only [cmp]
        split_ifs <;> omega
    obtain ⟨out, hperm, hsorted⟩ := horder.exists_sorted
    have hexact := hall out hperm <| hsorted.imp_of_mem fun {v w} hv hw hle => by
      have hcmp := (sortCmp_ints hints (hperm.mem_iff.mp hv) (hperm.mem_iff.mp hw)).2
      dsimp only [cmp] at hle
      split_ifs at hle <;> omega
    intro v hv w hw hnear
    by_contra hne
    have hvw : v ≠ w := fun h => hne (h ▸ rfl)
    rcases Sorting.pairwise_both hsorted hexact (hperm.mem_iff.mpr hv) (hperm.mem_iff.mpr hw) hvw
      with ⟨hcmp, hle⟩ | ⟨hcmp, hle⟩
    · have hle := (notGreater_ints hints hv hw).mp hle
      dsimp only [cmp] at hcmp
      split_ifs at hcmp <;> omega
    · have hle := (notGreater_ints hints hw hv).mp hle
      dsimp only [cmp] at hcmp
      split_ifs at hcmp <;> omega
  · intro hinj out hperm hsorted
    refine hsorted.imp_of_mem fun {v w} hv hw hle => ?_
    have hv' := hperm.mem_iff.mp hv
    have hw' := hperm.mem_iff.mp hw
    rw [notGreater_ints hints hv' hw']
    have hcmp := (sortCmp_ints hints hv' hw').2
    by_contra hlt
    have hmono := Double.nearInt_mono (Int.le_of_lt (Int.not_le.mp hlt))
    have := hinj v hv' w hw' (by omega)
    omega

end Ints

section Texts
variable {s : State} {items : List AerVal} (htexts : AllTexts s items)
include htexts

theorem text_of_mem {v : AerVal} (hv : v ∈ items) :
    ∃ c, v = .string c ∧ s.stringData c = some (textOf s.heap v) ∧
      (textOf s.heap v).length < 2 ^ 32 := by
  obtain ⟨c, x, rfl, hx, hlen⟩ := htexts v hv
  have htext : textOf s.heap (.string c) = x := by
    unfold State.stringData at hx
    split at hx
    · exact Option.some.inj hx
    · cases hx
  rw [htext]
  exact ⟨c, rfl, hx, hlen⟩

theorem sortCmp_texts {v w : AerVal} (hv : v ∈ items) :
    sortCmp s.heap v w = compareTexts (textOf s.heap v) (textOf s.heap w) := by
  obtain ⟨c, rfl, -, -⟩ := text_of_mem htexts hv
  exact if_pos rfl

theorem notGreater_texts {v w : AerVal} (hv : v ∈ items) (hw : w ∈ items) :
    NotGreater s v w ↔ lexCompare (textOf s.heap v) (textOf s.heap w) ≤ 0 := by
  obtain ⟨c, hc, hx, -⟩ := text_of_mem htexts hv
  obtain ⟨d, hd, hy, -⟩ := text_of_mem htexts hw
  have hle : lexCompare (textOf s.heap v) (textOf s.heap w) ≤ 0 ↔
      ¬ List.Lex (· < ·) (textOf s.heap w) (textOf s.heap v) := by
    rw [← lexCompare_neg_iff, lexCompare_swap]
    omega
  rw [hle]
  constructor
  · rintro (⟨m, n, hm, -⟩ | ⟨c', d', x, y, hv', hw', hx', hy', hlex⟩)
    · rw [hc] at hm
      cases hm
    · obtain rfl : c = c' := AerVal.string.inj (hc.symm.trans hv')
      obtain rfl : d = d' := AerVal.string.inj (hd.symm.trans hw')
      rw [hx] at hx'
      rw [hy] at hy'
      cases hx'
      cases hy'
      exact hlex
  · exact fun hlex => .inr ⟨c, d, _, _, hc, hd, hx, hy, hlex⟩

/-- Strings are sorted exactly where the difference of two lengths decides no comparison falsely. -/
theorem texts_sorted_iff :
    (Sorting.TotalPreorderOn (sortCmp s.heap) items ∧
        ∀ out : List AerVal, out.Perm items →
          (out.Pairwise fun v w => sortCmp s.heap v w ≤ 0) → out.Pairwise (NotGreater s)) ↔
      ∀ v ∈ items, ∀ w ∈ items, textOf s.heap v <+: textOf s.heap w →
        (textOf s.heap w).length - (textOf s.heap v).length < 2 ^ 31 := by
  constructor
  · rintro ⟨horder, hall⟩ v hv w hw hbegins
    by_contra hfar
    obtain ⟨c, -, -, hlen⟩ := text_of_mem htexts hw
    obtain ⟨hneg, hlex⟩ := compareTexts_far hbegins (Nat.le_of_not_lt hfar) hlen
    rw [← sortCmp_texts htexts hw] at hneg
    have hpos := (horder.flip w hw v hv).mp hneg
    have hvw : v ≠ w := by
      rintro rfl
      omega
    obtain ⟨out, hperm, hsorted⟩ := horder.exists_sorted
    rcases Sorting.pairwise_both hsorted (hall out hperm hsorted) (hperm.mem_iff.mpr hv)
      (hperm.mem_iff.mpr hw) hvw with ⟨hcmp, -⟩ | ⟨-, hle⟩
    · omega
    · rw [notGreater_texts htexts hw hv, lexCompare_swap] at hle
      omega
  · intro hnear
    have hsign {v w : AerVal} (hv : v ∈ items) (hw : w ∈ items) :=
      compareTexts_sign (hnear v hv w hw) (hnear w hw v hv)
    constructor
    · have hlex : Sorting.TotalPreorderOn
          (fun v w => lexCompare (textOf s.heap v) (textOf s.heap w)) items := by
        constructor
        · intro v _ w _
          rw [lexCompare_swap (textOf s.heap v)]
          omega
        · exact fun v _ w _ u _ => lexCompare_trans
      refine hlex.congr (fun v hv w hw => ?_) fun v hv w hw => ?_
      · rw [sortCmp_texts htexts hv]
        exact (hsign hv hw).1
      · rw [sortCmp_texts htexts hv]
        exact (hsign hv hw).2
    · intro out hperm hsorted
      refine hsorted.imp_of_mem fun {v w} hv hw hle => ?_
      have hv' := hperm.mem_iff.mp hv
      have hw' := hperm.mem_iff.mp hw
      rw [notGreater_texts htexts hv' hw']
      rw [sortCmp_texts htexts hv'] at hle
      have := (hsign hv' hw').2
      omega

end Texts

section Exact
variable {s : State} {c : Nat} {a : AerArray}

/-- Where `math.sort` sorts. -/
theorem sorts_exactly_iff (ha : s.arrayData c = some a) (hshape : a.shape = none)
    (hitems : AllInts s a.items ∨ AllTexts s a.items) :
    Sorts s c a ↔ Distinguished s a.items := by
  rw [sorts_iff ha hshape hitems]
  unfold Distinguished
  rcases hitems with hints | htexts
  · rw [and_iff_right (ints_order hints), ints_sorted_iff hints]
    constructor
    · intro hinj v hv w hw
      obtain ⟨hv', hvlt⟩ := asInt_of_mem hints hv
      obtain ⟨hw', hwlt⟩ := asInt_of_mem hints hw
      refine ⟨fun m n hm hn hbeq => ?_, ?_⟩
      · rw [hv'] at hm
        rw [hw'] at hn
        cases hm
        cases hn
        exact hinj v hv w hw ((Double.beq_ofInt hvlt hwlt).mp hbeq)
      · rintro c d x y rfl
        cases hv'
    · intro hdist v hv w hw hnear
      obtain ⟨hv', hvlt⟩ := asInt_of_mem hints hv
      obtain ⟨hw', hwlt⟩ := asInt_of_mem hints hw
      exact (hdist v hv w hw).1 _ _ hv' hw' ((Double.beq_ofInt hvlt hwlt).mpr hnear)
  · rw [texts_sorted_iff htexts]
    constructor
    · intro hnear v hv w hw
      obtain ⟨c, hc, hx, -⟩ := text_of_mem htexts hv
      obtain ⟨d, hd, hy, -⟩ := text_of_mem htexts hw
      refine ⟨fun m n hm => ?_, fun c' d' x y hv' hw' hx' hy' hbegins => ?_⟩
      · rw [hc] at hm
        cases hm
      · obtain rfl : c = c' := AerVal.string.inj (hc.symm.trans hv')
        obtain rfl : d = d' := AerVal.string.inj (hd.symm.trans hw')
        rw [hx] at hx'
        rw [hy] at hy'
        cases hx'
        cases hy'
        exact hnear v hv w hw hbegins
    · intro hdist v hv w hw
      obtain ⟨c, hc, hx, -⟩ := text_of_mem htexts hv
      obtain ⟨d, hd, hy, -⟩ := text_of_mem htexts hw
      exact (hdist v hv w hw).2 c d _ _ hc hd hx hy

end Exact

/-- 2^53 + 1 and 2^53, which share a double, in an array in this order. -/
def holdingLongs : State :=
  { State.init with
    heap := (((Heap.init.aerInt (2 ^ 53 + 1)).2.aerInt (2 ^ 53)).2.newArray
      { items := [.long 0, .long 1], capacity := 2, shape := none }).2 }

theorem holdingLongs_ints : AllInts holdingLongs [.long 0, .long 1] := by
  intro v hv
  rcases List.mem_pair.mp hv with rfl | rfl
  · exact ⟨2 ^ 53 + 1, by decide +kernel, by decide⟩
  · exact ⟨2 ^ 53, by decide +kernel, by decide⟩

theorem sorts_exactly_iff_longs :
    Sorts holdingLongs 0 { items := [.long 0, .long 1], capacity := 2, shape := none } ↔
      Distinguished holdingLongs [.long 0, .long 1] :=
  sorts_exactly_iff (by decide +kernel) rfl (.inl holdingLongs_ints)

/-- `math.sort([9007199254740993, 9007199254740992])` need not change the array. -/
theorem sort_keeps_descending :
    ¬ Sorts holdingLongs 0 { items := [.long 0, .long 1], capacity := 2, shape := none } := by
  rw [sorts_iff (by decide +kernel) rfl (.inl holdingLongs_ints), ints_sorted_iff holdingLongs_ints]
  rintro ⟨-, hinj⟩
  have hequal := hinj (.long 0) (by simp) (.long 1) (by simp) (by decide +kernel)
  revert hequal
  decide +kernel

end Aer.Stdlib
