import Mathlib.Data.List.Pairwise

set_option linter.all false

/-! Three-way comparators, as C's `qsort` takes them, and what a sort by one may return. -/
namespace Aer.Lib.Sorting

variable {α : Type}

/-- On the elements of a list the comparator orders them all, up to ties. -/
structure TotalPreorderOn (cmp : α → α → Int) (l : List α) : Prop where
  flip : ∀ x ∈ l, ∀ y ∈ l, cmp x y < 0 ↔ 0 < cmp y x
  trans : ∀ x ∈ l, ∀ y ∈ l, ∀ z ∈ l, cmp x y ≤ 0 → cmp y z ≤ 0 → cmp x z ≤ 0

/-- A sort that is right for every comparator that orders its input; ties may come in any order. -/
def Correct (qsort : (α → α → Int) → List α → List α) : Prop :=
  ∀ cmp l, TotalPreorderOn cmp l →
    (qsort cmp l).Perm l ∧ (qsort cmp l).Pairwise fun x y => cmp x y ≤ 0

variable {cmp : α → α → Int} {l out : List α}

/-- Comparators of the same signs on a list are alike. -/
theorem TotalPreorderOn.congr {cmp' : α → α → Int} (h : TotalPreorderOn cmp l)
    (hneg : ∀ x ∈ l, ∀ y ∈ l, cmp' x y < 0 ↔ cmp x y < 0)
    (hpos : ∀ x ∈ l, ∀ y ∈ l, 0 < cmp' x y ↔ 0 < cmp x y) : TotalPreorderOn cmp' l where
  flip x hx y hy := (hneg x hx y hy).trans ((h.flip x hx y hy).trans (hpos y hy x hx).symm)
  trans x hx y hy z hz := by
    simp only [← Int.not_lt, hpos x hx y hy, hpos y hy z hz, hpos x hx z hz]
    simp only [Int.not_lt]
    exact h.trans x hx y hy z hz

theorem TotalPreorderOn.total (h : TotalPreorderOn cmp l) {x y : α} (hx : x ∈ l) (hy : y ∈ l) :
    cmp x y ≤ 0 ∨ cmp y x ≤ 0 := by
  have := h.flip y hy x hx
  omega

/-- There is a sorted order. -/
theorem TotalPreorderOn.exists_sorted (h : TotalPreorderOn cmp l) :
    ∃ out : List α, out.Perm l ∧ out.Pairwise fun x y => cmp x y ≤ 0 := by
  let le (x y : {x // x ∈ l}) : Bool := cmp x y ≤ 0
  have htrans : ∀ x y z, le x y → le y z → le x z := by
    intro x y z hxy hyz
    have := h.trans x x.2 y y.2 z z.2 (of_decide_eq_true hxy) (of_decide_eq_true hyz)
    exact decide_eq_true this
  have htotal : ∀ x y, le x y || le y x := by
    intro x y
    simpa [le] using h.total x.2 y.2
  refine ⟨(l.attach.mergeSort le).map Subtype.val, ?_, ?_⟩
  · have hmap := (List.mergeSort_perm l.attach le).map Subtype.val
    rwa [List.attach_map_subtype_val] at hmap
  · rw [List.pairwise_map]
    exact (List.pairwise_mergeSort htrans htotal _).imp fun hle => of_decide_eq_true hle

/-- Every sorted order is the one that some sort returns. -/
theorem exists_correct (hperm : out.Perm l) (hsorted : out.Pairwise fun x y => cmp x y ≤ 0) :
    ∃ qsort : (α → α → Int) → List α → List α, Correct qsort ∧ qsort cmp l = out := by
  classical
  refine ⟨fun cmp' l' => if cmp' = cmp ∧ l' = l then out
    else if h : TotalPreorderOn cmp' l' then h.exists_sorted.choose else l', ?_, ?_⟩
  · intro cmp' l' h
    dsimp only
    split
    · next heq =>
      obtain ⟨rfl, rfl⟩ := heq
      exact ⟨hperm, hsorted⟩
    · exact h.exists_sorted.choose_spec
  · exact if_pos ⟨rfl, rfl⟩

/-- Two elements of a list that is sorted in two ways stand in both orders alike. -/
theorem pairwise_both {r r' : α → α → Prop} (h : out.Pairwise r) (h' : out.Pairwise r') {x y : α}
    (hx : x ∈ out) (hy : y ∈ out) (hne : x ≠ y) : r x y ∧ r' x y ∨ r y x ∧ r' y x := by
  have hsymm : out.Pairwise fun x y => r x y ∧ r' x y ∨ r y x ∧ r' y x :=
    (h.and h').imp fun hxy => .inl hxy
  have : Std.Symm fun x y => r x y ∧ r' x y ∨ r y x ∧ r' y x := ⟨fun _ _ => Or.symm⟩
  exact hsymm.forall hx hy hne

end Aer.Lib.Sorting
