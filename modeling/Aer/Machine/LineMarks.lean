import Aer.Machine.Chunk
import Mathlib.Data.List.Basic

set_option linter.all false

/-! The line marks of a chunk: their order, and the search for the mark of an offset. -/
namespace Aer.Machine

/-- The line of the last mark whose offset is at most this one; 0 without one. -/
def lineAt (marks : List (Nat × Nat)) (offset : Nat) : Nat :=
  match (marks.filter (·.1 ≤ offset)).getLast? with
  | some mark => mark.2
  | none => 0

/-- The offsets of the marks grow and lie inside the code or at its end. -/
structure Chunk.MarksWf (c : Chunk) : Prop where
  increasing : c.lineMarks.Pairwise (·.1 < ·.1)
  inside : ∀ mark ∈ c.lineMarks, mark.1 ≤ c.count

/-! The search. -/

/-- In a list ordered by the offsets, the marks up to an offset are a first part. -/
theorem filter_eq_take {marks : List (Nat × Nat)} (h : marks.Pairwise (·.1 < ·.1)) (offset : Nat) :
    marks.filter (·.1 ≤ offset) = marks.take (marks.filter (·.1 ≤ offset)).length := by
  induction marks with
  | nil => rfl
  | cons mark marks ih =>
    obtain ⟨hfirst, hrest⟩ := List.pairwise_cons.mp h
    by_cases hle : mark.1 ≤ offset
    · rw [List.filter_cons_of_pos (by simpa using hle), List.length_cons, List.take_succ_cons,
        ← ih hrest]
    · have hnone : marks.filter (·.1 ≤ offset) = [] := by
        rw [List.filter_eq_nil_iff]
        intro m hm hlem
        have hlt := hfirst m hm
        have hmo : m.1 ≤ offset := of_decide_eq_true hlem
        omega
      rw [List.filter_cons_of_neg (by simpa using hle), hnone]
      rfl

theorem getD_le_iff {marks : List (Nat × Nat)} (h : marks.Pairwise (·.1 < ·.1)) {offset i : Nat}
    (hi : i < marks.length) :
    (marks.getD i (0, 0)).1 ≤ offset ↔ i < (marks.filter (·.1 ≤ offset)).length := by
  have htake := filter_eq_take h offset
  have hle := List.length_filter_le (fun m : Nat × Nat => decide (m.1 ≤ offset)) marks
  generalize hn : (marks.filter (·.1 ≤ offset)).length = n at htake hle ⊢
  have hget : marks.getD i (0, 0) = marks[i] := by
    rw [List.getD_eq_getElem?_getD, List.getElem?_eq_getElem hi, Option.getD_some]
  rw [hget]
  constructor
  · intro hmark
    have hmem : marks[i] ∈ marks.filter (·.1 ≤ offset) :=
      List.mem_filter.mpr ⟨List.getElem_mem hi, by simpa using hmark⟩
    rw [htake, List.mem_iff_getElem] at hmem
    obtain ⟨j, hj, heq⟩ := hmem
    rw [List.length_take] at hj
    rw [List.getElem_take] at heq
    by_contra hni
    have hlt := List.pairwise_iff_getElem.mp h j i (by omega) hi (by omega)
    rw [heq] at hlt
    omega
  · intro hin
    have hmem : marks[i] ∈ marks.take n := by
      rw [List.mem_iff_getElem]
      exact ⟨i, by rw [List.length_take]; omega, List.getElem_take⟩
    rw [← htake] at hmem
    exact of_decide_eq_true (List.mem_filter.mp hmem).2

/-- The binary search ends at the number of the marks up to the offset, which is between its
bounds all the time. -/
theorem searchMarks_eq {marks : List (Nat × Nat)} {offset n : Nat}
    (hn : ∀ i < marks.length, (marks.getD i (0, 0)).1 ≤ offset ↔ i < n) {fuel lo hi : Nat}
    (hlo : lo ≤ n) (hhi : n ≤ hi) (hlen : hi ≤ marks.length) (hfuel : hi - lo ≤ fuel) :
    Chunk.searchMarks marks offset fuel lo hi = n := by
  induction fuel generalizing lo hi with
  | zero =>
    unfold Chunk.searchMarks
    omega
  | succ fuel ih =>
    unfold Chunk.searchMarks
    split
    · next hlt =>
      have hmid := hn (lo + (hi - lo) / 2) (by omega)
      dsimp only
      split
      · next hle =>
        have hin := hmid.mp hle
        exact ih (by omega) hhi hlen (by omega)
      · next hgt =>
        have hout : ¬ lo + (hi - lo) / 2 < n := fun hlt => hgt (hmid.mpr hlt)
        exact ih hlo (by omega) (by omega) (by omega)
    · omega

theorem Chunk.MarksWf.lineForOffset_eq {c : Chunk} (h : c.MarksWf) (offset : Nat) :
    c.lineForOffset offset = lineAt c.lineMarks offset := by
  have htake := filter_eq_take h.increasing offset
  have hle := List.length_filter_le (fun m : Nat × Nat => decide (m.1 ≤ offset)) c.lineMarks
  have hsearch : Chunk.searchMarks c.lineMarks offset c.lineMarks.length 0 c.lineMarks.length =
      (c.lineMarks.filter (·.1 ≤ offset)).length :=
    searchMarks_eq (fun _ => getD_le_iff h.increasing) (Nat.zero_le _) hle le_rfl (Nat.sub_le _ _)
  unfold Chunk.lineForOffset lineAt
  rw [hsearch]
  cases hlen : (c.lineMarks.filter (·.1 ≤ offset)).length with
  | zero => rw [List.length_eq_zero_iff.mp hlen, List.getLast?_nil]
  | succ n =>
    have hlast : (c.lineMarks.filter (·.1 ≤ offset)).getLast? = c.lineMarks[n]? := by
      rw [List.getLast?_eq_getElem?, htake, List.length_take, hlen, List.getElem?_take]
      have hmin : min (n + 1) c.lineMarks.length - 1 = n := by omega
      rw [hmin, if_pos (Nat.lt_succ_self n)]
    have hlt : n < c.lineMarks.length := by omega
    rw [hlast, List.getElem?_eq_getElem hlt]
    simp only [List.getD_eq_getElem?_getD, List.getElem?_eq_getElem hlt, Option.getD_some]

/-! Marking and cutting off. -/

/-- A mark is appended behind the others, or not made. -/
theorem markLine_cases (c : Chunk) (offset line : Nat) :
    c.markLine offset line = c ∨
      (∀ mark, c.lineMarks.getLast? = some mark → mark.1 < offset) ∧
        c.markLine offset line = { c with lineMarks := c.lineMarks ++ [(offset, line)] } := by
  unfold Chunk.markLine
  cases hlast : c.lineMarks.getLast? with
  | none =>
    right
    rw [List.getLast?_eq_none_iff.mp hlast, List.nil_append]
    exact ⟨fun _ h => (nomatch h), rfl⟩
  | some mark =>
    by_cases hle : offset ≤ mark.1
    · exact .inl (if_pos hle)
    · refine .inr ⟨fun m hm => ?_, if_neg hle⟩
      cases hm
      omega

theorem markLine_code (c : Chunk) (offset line : Nat) : (c.markLine offset line).code = c.code := by
  rcases markLine_cases c offset line with h | ⟨-, h⟩ <;> rw [h]

theorem prefix_markLine (c : Chunk) (offset line : Nat) :
    c.lineMarks <+: (c.markLine offset line).lineMarks := by
  rcases markLine_cases c offset line with h | ⟨-, h⟩
  · exact ⟨[], by rw [h, List.append_nil]⟩
  · exact ⟨[(offset, line)], by rw [h]⟩

/-- What lies beyond the last mark lies beyond them all. -/
theorem lt_of_getLast {marks : List (Nat × Nat)} (h : marks.Pairwise (·.1 < ·.1)) {offset : Nat}
    (hlast : ∀ mark, marks.getLast? = some mark → mark.1 < offset) :
    ∀ mark ∈ marks, mark.1 < offset := by
  rcases List.eq_nil_or_concat marks with rfl | ⟨front, last, rfl⟩
  · intro mark hm
    cases hm
  · rw [List.concat_eq_append] at h hlast ⊢
    have hlt := hlast last List.getLast?_concat
    intro mark hm
    rcases List.mem_append.mp hm with hm | hm
    · exact ((List.pairwise_append.mp h).2.2 mark hm last (List.mem_singleton.mpr rfl)).trans hlt
    · rw [List.mem_singleton.mp hm]
      exact hlt

theorem Chunk.MarksWf.markLine {c : Chunk} (h : c.MarksWf) {offset : Nat} (hle : offset ≤ c.count)
    (line : Nat) : (c.markLine offset line).MarksWf := by
  rcases markLine_cases c offset line with he | ⟨hlast, he⟩
  · rw [he]
    exact h
  · rw [he]
    have hbelow := lt_of_getLast h.increasing hlast
    refine ⟨List.pairwise_append.mpr ⟨h.increasing, List.pairwise_singleton _ _, ?_⟩, ?_⟩
    · intro mark hmark m hm
      rw [List.mem_singleton.mp hm]
      exact hbelow mark hmark
    · intro mark hmark
      rcases List.mem_append.mp hmark with hm | hm
      · exact h.inside mark hm
      · rw [List.mem_singleton.mp hm]
        exact hle

/-- The marks of a chunk are good for every longer code. -/
theorem Chunk.MarksWf.of_count_le {c d : Chunk} (h : c.MarksWf) (hmarks : d.lineMarks = c.lineMarks)
    (hcount : c.count ≤ d.count) : d.MarksWf where
  increasing := hmarks ▸ h.increasing
  inside mark hm := (h.inside mark (hmarks ▸ hm)).trans hcount

end Aer.Machine
