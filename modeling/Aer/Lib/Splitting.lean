import Mathlib.Data.List.Basic
import Mathlib.Data.List.Infix
import Mathlib.Algebra.Order.Ring.Nat

set_option linter.all false

/-! Lists cut at the occurrences of a separator, from the left. A scan goes over the list once:
where the separator begins it jumps behind it, elsewhere it takes one element into the piece. -/
namespace Aer.Lib.Splitting

variable {α : Type} {sep : List α}

/-- The pieces between which a list is scanned. -/
inductive Scan (sep : List α) : List α → List (List α) → Prop
  | nil : Scan sep [] [[]]
  | hit {s : List α} {ps : List (List α)} : Scan sep s ps → Scan sep (sep ++ s) ([] :: ps)
  | step {c : α} {s p : List α} {ps : List (List α)} :
      ¬ sep <+: c :: s → Scan sep s (p :: ps) → Scan sep (c :: s) ((c :: p) :: ps)

/-- Cut at the first occurrence of the separator, then behind it in the same way. -/
def LeftmostCut (sep : List α) : List α → List (List α) → Prop
  | _, [] => False
  | s, [p] => s = p ∧ ∀ i, ¬ sep <+: s.drop i
  | s, p :: q :: ps =>
      ∃ rest, s = p ++ sep ++ rest ∧ (∀ i < p.length, ¬ sep <+: s.drop i) ∧
        LeftmostCut sep rest (q :: ps)

section Cut
variable [DecidableEq α]

def cutWithin (sep : List α) : Nat → List α → List (List α)
  | 0, _ | _, [] => [[]]
  | n + 1, c :: s =>
      if sep <+: c :: s then [] :: cutWithin sep n ((c :: s).drop sep.length)
      else (cutWithin sep n s).modifyHead (c :: ·)

/-- The pieces, computed. -/
def cut (sep s : List α) : List (List α) := cutWithin sep s.length s

theorem scan_cutWithin (hsep : sep ≠ []) {n : Nat} {s : List α} (hn : s.length ≤ n) :
    Scan sep s (cutWithin sep n s) := by
  induction n generalizing s with
  | zero =>
    obtain rfl := List.eq_nil_of_length_eq_zero (Nat.le_zero.mp hn)
    exact .nil
  | succ n ih =>
    cases s with
    | nil => exact .nil
    | cons c s =>
      rw [List.length_cons] at hn
      unfold cutWithin
      split
      · next hit =>
        obtain ⟨rest, hrest⟩ := hit
        have hlen := congrArg List.length hrest
        have hpos := List.length_pos_of_ne_nil hsep
        rw [List.length_append, List.length_cons] at hlen
        rw [← hrest, List.drop_left]
        exact .hit (ih (by omega))
      · next hno =>
        have htail := ih (s := s) (by omega)
        generalize cutWithin sep n s = ps at htail ⊢
        cases ps with
        | nil => cases htail
        | cons p ps => exact .step hno htail

theorem scan_cut (hsep : sep ≠ []) (s : List α) : Scan sep s (cut sep s) :=
  scan_cutWithin hsep (Nat.le_refl _)

end Cut

namespace Scan

variable {s : List α} {ps : List (List α)}

theorem ne_nil (h : Scan sep s ps) : ps ≠ [] := by
  cases h <;> exact List.cons_ne_nil _ _

/-- The pieces joined give the list back. -/
theorem intercalate (h : Scan sep s ps) : sep.intercalate ps = s := by
  induction h with
  | nil => rfl
  | @hit s ps h ih =>
    obtain ⟨p, ps, rfl⟩ := List.exists_cons_of_ne_nil h.ne_nil
    rw [List.intercalate_cons_cons, ih]
    rfl
  | @step c s p ps _ h ih =>
    cases ps with
    | nil =>
      rw [List.intercalate_singleton] at ih ⊢
      rw [ih]
    | cons q ps =>
      rw [List.intercalate_cons_cons] at ih ⊢
      rw [List.cons_append, List.cons_append, ih]

/-- A list shorter than the separator is one piece. -/
theorem of_length_lt (h : Scan sep s ps) (hlt : s.length < sep.length) : ps = [s] := by
  induction h with
  | nil => rfl
  | hit h ih =>
    rw [List.length_append] at hlt
    omega
  | step _ h ih =>
    have hone := ih (Nat.lt_of_succ_lt hlt)
    rw [List.cons.injEq] at hone
    rw [hone.1, hone.2]

theorem leftmost (hsep : sep ≠ []) (h : Scan sep s ps) : LeftmostCut sep s ps := by
  induction h with
  | nil =>
    refine ⟨rfl, fun i hi => hsep ?_⟩
    rw [List.drop_nil] at hi
    exact List.prefix_nil.mp hi
  | @hit s ps h ih =>
    obtain ⟨p, ps, rfl⟩ := List.exists_cons_of_ne_nil h.ne_nil
    exact ⟨s, rfl, fun i hi => absurd hi (Nat.not_lt_zero i), ih⟩
  | @step c s p ps hno h ih =>
    cases ps with
    | nil =>
      obtain ⟨hs, hnone⟩ := ih
      refine ⟨congrArg (c :: ·) hs, fun i => ?_⟩
      cases i with
      | zero => exact hno
      | succ i => exact hnone i
    | cons q ps =>
      obtain ⟨rest, hs, hnone, hrest⟩ := ih
      refine ⟨rest, congrArg (c :: ·) hs, fun i hi => ?_, hrest⟩
      cases i with
      | zero => exact hno
      | succ i => exact hnone i (Nat.lt_of_succ_lt_succ hi)

/-- The pieces fill the list with one separator less than there are pieces. -/
theorem length_eq (h : Scan sep s ps) :
    s.length = (ps.map List.length).sum + (ps.length - 1) * sep.length := by
  induction h with
  | nil => simp
  | @hit s ps h ih =>
    have hpos := List.length_pos_of_ne_nil h.ne_nil
    obtain ⟨n, hn⟩ : ∃ n, ps.length = n + 1 := ⟨ps.length - 1, by omega⟩
    rw [hn, Nat.add_sub_cancel] at ih
    rw [List.length_append, ih, List.map_cons, List.sum_cons, List.length_cons, hn,
      Nat.add_sub_cancel, Nat.succ_mul, List.length_nil]
    omega
  | @step c s p ps _ h ih =>
    simp only [List.map_cons, List.sum_cons, List.length_cons] at ih ⊢
    omega

end Scan

/-- No piece contains the separator. -/
theorem LeftmostCut.not_inside (hsep : sep ≠ []) {s : List α} {ps : List (List α)}
    (h : LeftmostCut sep s ps) : ∀ p ∈ ps, ¬ sep <:+: p := by
  induction ps generalizing s with
  | nil => exact fun p hp => absurd hp List.not_mem_nil
  | cons p ps ih =>
    have hfirst : ¬ sep <:+: p := by
      rintro ⟨l, r, hp⟩
      have hbegins (t : List α) : sep <+: (p ++ t).drop l.length := by
        rw [← hp, List.append_assoc, List.append_assoc, List.drop_left]
        exact List.prefix_append _ _
      cases ps with
      | nil =>
        obtain ⟨rfl, hnone⟩ := h
        apply hnone l.length
        simpa using hbegins []
      | cons q ps =>
        obtain ⟨rest, rfl, hnone, -⟩ := h
        have hlen := congrArg List.length hp
        have hpos := List.length_pos_of_ne_nil hsep
        simp only [List.length_append] at hlen
        apply hnone l.length (by omega)
        rw [List.append_assoc]
        exact hbegins _
    cases ps with
    | nil =>
      intro p' hp'
      rw [List.mem_singleton.mp hp']
      exact hfirst
    | cons q ps =>
      obtain ⟨rest, -, -, hrest⟩ := h
      intro p' hp'
      rcases List.mem_cons.mp hp' with rfl | hp'
      · exact hfirst
      · exact ih hrest p' hp'

end Aer.Lib.Splitting
