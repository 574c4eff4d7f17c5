import Aer.Shell.Editor
import Mathlib.Data.List.GetD

set_option linter.all false

/-! What the editor hands over: the text that is shown, as the keys mean it, if nothing is
left behind it in the buffer. -/
namespace Aer.Shell

open Aer.Data

/-- What is shown: a text with a cursor in it. -/
structure Line where
  text : Bytes
  cursor : Nat
  inside : cursor ≤ text.length

namespace Line

def empty : Line := ⟨[], 0, Nat.le_refl 0⟩

def insert (l : Line) (c : UInt8) : Line where
  text := l.text.insertIdx l.cursor c
  cursor := l.cursor + 1
  inside := by
    rw [List.length_insertIdx_of_le_length l.inside]
    exact Nat.succ_le_succ l.inside

def backspace (l : Line) : Line where
  text := if l.cursor = 0 then l.text else l.text.eraseIdx (l.cursor - 1)
  cursor := l.cursor - 1
  inside := by
    have h := l.inside
    split
    · omega
    · rw [List.length_eraseIdx_of_lt (by omega)]
      omega

def delete (l : Line) : Line where
  text := l.text.eraseIdx l.cursor
  cursor := l.cursor
  inside := by
    have h := l.inside
    rw [List.length_eraseIdx]
    split
    · omega
    · exact h

def left (l : Line) : Line := ⟨l.text, l.cursor - 1, le_trans (Nat.sub_le _ _) l.inside⟩

def right (l : Line) : Line := ⟨l.text, min (l.cursor + 1) l.text.length, Nat.min_le_right _ _⟩

def home (l : Line) : Line := ⟨l.text, 0, Nat.zero_le _⟩

def endKey (l : Line) : Line := ⟨l.text, l.text.length, Nat.le_refl _⟩

/-- A text with the cursor behind it. -/
def ofText (b : Bytes) : Line := ⟨b, b.length, Nat.le_refl _⟩

/-- What a key means, with the entry it goes to in the history if it goes to one. -/
def key (l : Line) (recalled : Option Bytes) : Key → Line
  | .arrowUp | .arrowDown => (recalled.map ofText).getD l
  | .arrowRight => l.right
  | .arrowLeft => l.left
  | .home => l.home
  | .endKey => l.endKey
  | .delete => l.delete
  | .eof => l
  | .byte c =>
      if c = Shell.backspace then l.backspace
      else if c = endOfText then empty
      else if isCntrl c then l
      else l.insert c

/-! The bytes that are left in the buffer from the end of the text on. -/

/-- What stays when the text and the byte behind it are cleared. -/
def cleared (l : Line) (trail : Bytes) : Bytes := List.replicate (l.text.length + 1) 0 ++ trail.tail

/-- What a key leaves: backspace the last byte of the text, delete the byte behind the text
a second time, a new character one byte less. -/
def leaves (l : Line) (trail : Bytes) (recalled : Option Bytes) : Key → Bytes
  | .arrowUp | .arrowDown =>
      match recalled with
      | some entry => (l.cleared trail).drop entry.length
      | none => trail
  | .delete => if l.cursor < l.text.length then trail.getD 0 0 :: trail else trail
  | .byte c =>
      if c = Shell.backspace then if l.cursor = 0 then trail else l.text.getLastD 0 :: trail
      else if c = endOfText then l.cleared trail
      else if isCntrl c then trail
      else trail.tail
  | _ => trail

end Line

namespace Terminal

/-- The entry a key goes to. -/
def recalled (s : Terminal) : Key → Option Bytes
  | .arrowUp => if s.historyPosition < 2 then none else some (s.entry s.above.1 s.above.2)
  | .arrowDown =>
      if s.historyLength ≤ s.historyPosition then none else some (s.entry s.below.1 s.below.2)
  | _ => none

/-- Sessions in which the text stays shorter than the buffer, from any history file, with
what the keys mean for the line that is read, and what is left behind its text. -/
inductive Session (file : Bytes) : Terminal → Line → Bytes → Prop
  | start : Session file (Terminal.start file).clear .empty []
  | key {s t : Terminal} {l : Line} {trail : Bytes} {k : Key} (h : Session file s l trail)
      (hk : s.handleKey k = .again t) (hfits : t.length < t.bufferLength) :
      Session file t (l.key (s.recalled k) k) (l.leaves trail (s.recalled k) k)
  | next {s t : Terminal} {l : Line} {trail : Bytes} {k : Key} (h : Session file s l trail)
      (hk : s.handleKey k = .line t) : Session file t.clear .empty (l.cleared trail)

/-- The buffer holds the text and what is left behind it; the cursor is where it is shown. -/
structure Holds (s : Terminal) (l : Line) (trail : Bytes) : Prop where
  buffer : ∀ i, s.buffer i = (l.text ++ trail).getD i 0
  position : s.position = l.cursor
  length : s.length = l.text.length

end Terminal

section Bytes

theorem getD_insertIdx_append {text trail : Bytes} {p : Nat} (hp : p ≤ text.length) (c : UInt8) (i : Nat) :
    (text.insertIdx p c ++ trail.tail).getD i 0 =
      if i = p then c
      else if p < i ∧ i ≤ text.length then (text ++ trail).getD (i - 1) 0
      else (text ++ trail).getD i 0 := by
  simp only [List.getD_eq_getElem?_getD, List.getElem?_append, List.length_insertIdx_of_le_length hp,
    List.getElem?_insertIdx, List.getElem?_tail]
  by_cases hi : i = p
  · subst hi
    rw [if_pos (by omega), if_neg (by omega), if_pos rfl, if_pos rfl, if_pos hp]
    rfl
  · by_cases hlt : p < i ∧ i ≤ text.length
    · rw [if_pos (by omega), if_neg (by omega), if_neg hi, if_neg hi, if_pos hlt, if_pos (by omega)]
    · rw [if_neg hlt]
      by_cases hl : i < p
      · rw [if_pos (by omega : i < text.length + 1), if_pos hl, if_neg hi,
          if_pos (by omega : i < text.length)]
      · rw [if_neg (by omega : ¬ i < text.length + 1), if_neg hi,
          if_neg (by omega : ¬ i < text.length)]
        congr 2
        omega

theorem getD_eraseIdx_append {text trail : Bytes} {p : Nat} (hp : p < text.length) (c : UInt8) (i : Nat) :
    (text.eraseIdx p ++ c :: trail).getD i 0 =
      if i + 1 = text.length then c
      else if p ≤ i ∧ i + 1 < text.length then (text ++ trail).getD (i + 1) 0
      else (text ++ trail).getD i 0 := by
  simp only [List.getD_eq_getElem?_getD, List.getElem?_append, List.length_eraseIdx_of_lt hp,
    List.getElem?_eraseIdx]
  by_cases hi : i + 1 = text.length
  · rw [if_neg (by omega), if_pos hi]
    have h0 : i - (text.length - 1) = 0 := by omega
    rw [h0]
    rfl
  · rw [if_neg hi]
    by_cases hlt : p ≤ i ∧ i + 1 < text.length
    · rw [if_pos (by omega), if_neg (by omega), if_pos hlt, if_pos (by omega)]
    · rw [if_neg hlt]
      by_cases hl : i < p
      · rw [if_pos (by omega), if_pos hl, if_pos (by omega)]
      · obtain ⟨j, rfl⟩ : ∃ j, i = text.length + j := ⟨i - text.length, by omega⟩
        have h1 : text.length + j - (text.length - 1) = j + 1 := by omega
        rw [if_neg (by omega), if_neg (by omega), h1, Nat.add_sub_cancel_left,
          List.getElem?_cons_succ]

theorem getD_cleared (l : Line) (trail : Bytes) (i : Nat) :
    (l.cleared trail).getD i 0 =
      if i < l.text.length + 1 then 0 else (l.text ++ trail).getD i 0 := by
  unfold Line.cleared
  simp only [List.getD_eq_getElem?_getD, List.getElem?_append, List.length_replicate,
    List.getElem?_replicate, List.getElem?_tail]
  by_cases hi : i < l.text.length + 1
  · rw [if_pos hi, if_pos hi, if_pos hi]
    rfl
  · rw [if_neg hi, if_neg hi, if_neg (by omega)]
    congr 2
    omega
theorem getD_recalled (entry rest : Bytes) (i : Nat) :
    (entry ++ rest.drop entry.length).getD i 0 =
      if i < entry.length then entry.getD i 0 else rest.getD i 0 := by
  simp only [List.getD_eq_getElem?_getD, List.getElem?_append, List.getElem?_drop]
  by_cases hi : i < entry.length
  · rw [if_pos hi, if_pos hi]
  · rw [if_neg hi, if_neg hi]
    congr 2
    omega

end Bytes

namespace Terminal

@[simp] theorem length_taken (s : Terminal) (n : Nat) : (s.taken n).length = n := by
  simp [taken]

@[simp] theorem length_entry (s : Terminal) (e n : Nat) : (s.entry e n).length = n := by
  simp [entry]

section Holds
variable {s : Terminal} {l : Line} {trail : Bytes} (h : s.Holds l trail)
include h

theorem Holds.clear : s.clear.Holds .empty (l.cleared trail) := by
  refine ⟨?_, rfl, rfl⟩
  intro i
  have hn := h.length
  change (if i < (s.length + 1).toNat then 0 else s.buffer i) = (l.cleared trail).getD i 0
  rw [getD_cleared, h.buffer i]
  by_cases hi : i < l.text.length + 1
  · rw [if_pos hi, if_pos (by omega)]
  · rw [if_neg hi, if_neg (by omega)]

theorem Holds.recallEntry (e n : Nat) :
    (s.recallEntry e n).Holds (.ofText (s.entry e n)) ((l.cleared trail).drop n) := by
  have hlen := s.length_entry e n
  refine ⟨?_, ?_, ?_⟩
  · intro i
    have hclear := h.clear.buffer i
    have hdrop := getD_recalled (s.entry e n) (l.cleared trail) i
    rw [hlen] at hdrop
    change (if i < n then s.ring (e + i) else s.clear.buffer i) = _
    rw [hclear]
    refine Eq.trans ?_ hdrop.symm
    by_cases hi : i < n
    · rw [if_pos hi, if_pos hi]
      simp [entry, hi]
    · rw [if_neg hi, if_neg hi]
      rfl
  · exact congrArg Nat.cast hlen.symm
  · exact congrArg Nat.cast hlen.symm

theorem Holds.right : s.right.Holds l.right trail := by
  refine ⟨h.buffer, ?_, h.length⟩
  have hp := h.position
  have hn := h.length
  simp only [Terminal.right, Line.right]
  omega

theorem Holds.left : s.left.Holds l.left trail := by
  refine ⟨h.buffer, ?_, h.length⟩
  have hp := h.position
  simp only [Terminal.left, Line.left]
  omega

theorem Holds.home : ({ s with position := 0 } : Terminal).Holds l.home trail :=
  ⟨h.buffer, rfl, h.length⟩

theorem Holds.endKey : ({ s with position := s.length } : Terminal).Holds l.endKey trail :=
  ⟨h.buffer, h.length, h.length⟩

theorem Holds.insert (c : UInt8) : (s.insert c).Holds (l.insert c) trail.tail := by
  have hp := h.position
  have hn := h.length
  have hin := l.inside
  refine ⟨?_, ?_, ?_⟩
  · intro i
    change Function.update (memmove s.buffer _ _ _) s.position.toNat c i = _
    refine Eq.trans ?_ (getD_insertIdx_append hin c i).symm
    by_cases hi : i = l.cursor
    · rw [if_pos hi, hi, hp, Int.toNat_natCast, Function.update_self]
    · rw [if_neg hi, Function.update_of_ne (by omega)]
      unfold memmove
      by_cases hlt : l.cursor < i ∧ i ≤ l.text.length
      · rw [if_pos (by omega), if_pos hlt, h.buffer]
        congr 1
        omega
      · rw [if_neg (by omega), if_neg hlt, h.buffer]
  · simp only [Terminal.insert, Line.insert]
    omega
  · simp only [Terminal.insert, Line.insert]
    rw [List.length_insertIdx_of_le_length hin]
    omega

theorem Holds.delete :
    s.deleteKey.Holds l.delete
      (if l.cursor < l.text.length then trail.getD 0 0 :: trail else trail) := by
  have hp := h.position
  have hn := h.length
  unfold deleteKey
  by_cases hlt : l.cursor < l.text.length
  · rw [if_pos (by omega), if_pos hlt]
    refine ⟨?_, hp, ?_⟩
    · intro i
      refine Eq.trans ?_ (getD_eraseIdx_append hlt _ i).symm
      change memmove s.buffer _ _ _ i = _
      unfold memmove
      by_cases hi : i + 1 = l.text.length
      · rw [if_pos (by omega), if_pos hi, h.buffer]
        have hend : (s.position + 1).toNat + (i - s.position.toNat) = l.text.length := by omega
        rw [hend, List.getD_append_right _ _ _ _ (Nat.le_refl _), Nat.sub_self]
      · rw [if_neg hi]
        by_cases hin : l.cursor ≤ i ∧ i + 1 < l.text.length
        · rw [if_pos (by omega), if_pos hin, h.buffer]
          congr 1
          omega
        · rw [if_neg (by omega), if_neg hin, h.buffer]
    · simp only [Line.delete]
      rw [List.length_eraseIdx_of_lt hlt]
      omega
  · have hin := l.inside
    rw [if_neg (by omega), if_neg hlt]
    have hsame : l.delete = l := by
      unfold Line.delete
      congr 1
      exact List.eraseIdx_of_length_le (Nat.le_of_not_lt hlt)
    rw [hsame]
    exact h

theorem Holds.backspace :
    s.backspaceKey.Holds l.backspace
      (if l.cursor = 0 then trail else l.text.getLastD 0 :: trail) := by
  have hp := h.position
  have hn := h.length
  have hin := l.inside
  unfold backspaceKey
  by_cases hzero : l.cursor = 0
  · rw [if_pos (by omega), if_pos hzero]
    have hsame : l.backspace = l := by
      obtain ⟨text, cursor, inside⟩ := l
      unfold Line.backspace
      subst hzero
      rfl
    rw [hsame]
    exact h
  · rw [if_neg (by omega), if_neg hzero]
    have hlt : l.cursor - 1 < l.text.length := by omega
    have htext : l.backspace.text = l.text.eraseIdx (l.cursor - 1) := if_neg hzero
    refine ⟨?_, ?_, ?_⟩
    · intro i
      rw [htext]
      refine Eq.trans ?_ (getD_eraseIdx_append hlt _ i).symm
      change memmove s.buffer _ _ _ i = _
      unfold memmove
      by_cases hi : i + 1 = l.text.length
      · rw [if_neg (by omega), if_pos hi, h.buffer]
        have hlast : i < l.text.length := by omega
        rw [List.getD_append _ _ _ _ hlast, List.getLastD_eq_getLast?, List.getLast?_eq_getElem?,
          List.getD_eq_getElem?_getD]
        have hidx : l.text.length - 1 = i := by omega
        rw [hidx]
      · rw [if_neg hi]
        by_cases hmid : l.cursor - 1 ≤ i ∧ i + 1 < l.text.length
        · rw [if_pos (by omega), if_pos hmid, h.buffer]
          congr 1
          omega
        · rw [if_neg (by omega), if_neg hmid, h.buffer]
    · simp only [Line.backspace]
      omega
    · rw [htext, List.length_eraseIdx_of_lt hlt]
      change s.length - 1 = _
      omega

/-- Every key that reads on keeps the buffer in step with what is shown. -/
theorem Holds.handleKey {k : Key} {t : Terminal} (hk : s.handleKey k = .again t) :
    t.Holds (l.key (s.recalled k) k) (l.leaves trail (s.recalled k) k) := by
  cases k with
  | arrowUp =>
    cases hk
    unfold up recalled
    split
    · exact h
    · simp only [Line.key, Line.leaves, Option.map_some, Option.getD_some, length_entry]
      exact h.recallEntry _ _
  | arrowDown =>
    cases hk
    unfold down recalled
    split
    · exact h
    · simp only [Line.key, Line.leaves, Option.map_some, Option.getD_some, length_entry]
      exact h.recallEntry _ _
  | arrowRight =>
    cases hk
    exact h.right
  | arrowLeft =>
    cases hk
    exact h.left
  | home =>
    cases hk
    exact h.home
  | endKey =>
    cases hk
    exact h.endKey
  | delete =>
    cases hk
    exact h.delete
  | eof => cases hk
  | byte c =>
    unfold Terminal.handleKey at hk
    simp only [Line.key, Line.leaves]
    by_cases hback : c = Shell.backspace
    · simp only [hback, ↓reduceIte, Outcome.again.injEq] at hk ⊢
      subst hk
      exact h.backspace
    · simp only [hback, ↓reduceIte] at hk ⊢
      by_cases hline : c = newLine
      · simp [hline] at hk
      · simp only [hline, ↓reduceIte] at hk
        by_cases hcancel : c = endOfText
        · simp only [hcancel, ↓reduceIte, Outcome.again.injEq] at hk ⊢
          subst hk
          exact h.clear
        · simp only [hcancel, ↓reduceIte] at hk ⊢
          by_cases htrans : c = endOfTrans
          · simp [htrans] at hk
          · simp only [htrans, ↓reduceIte] at hk
            by_cases hcntrl : isCntrl c = true
            · simp only [hcntrl, ↓reduceIte, Bool.not_true, Bool.false_eq_true,
                Outcome.again.injEq] at hk ⊢
              subst hk
              exact h
            · have hprint : isCntrl c = false := by simpa using hcntrl
              simp only [hprint, ↓reduceIte, Bool.not_false, Bool.false_eq_true,
                Outcome.again.injEq] at hk ⊢
              subst hk
              exact h.insert c

theorem Holds.text : s.text = l.text := by
  have hn := h.length
  apply List.ext_getElem
  · simp only [Terminal.text, length_taken]
    omega
  · intro i _ hi
    simp only [Terminal.text, taken, List.getElem_map, List.getElem_range]
    rw [h.buffer, List.getD_append _ _ _ _ hi, List.getD_eq_getElem _ _ hi]

end Holds

section Enter

theorem enter_buffer (s : Terminal) :
    s.enter.buffer = Function.update s.buffer s.length.toNat newLine := by
  unfold enter
  dsimp only
  split <;> rfl

theorem enter_length (s : Terminal) : s.enter.length = s.length := by
  unfold enter
  dsimp only
  split <;> rfl

theorem enter_bufferLength (s : Terminal) : s.enter.bufferLength = s.bufferLength := by
  unfold enter
  dsimp only
  split <;> rfl

theorem handleKey_newLine (s : Terminal) : s.handleKey (.byte newLine) = .line s.enter := rfl

theorem handleKey_line {s t : Terminal} {k : Key} (hk : s.handleKey k = .line t) :
    k = .byte newLine ∧ t = s.enter := by
  cases k with
  | byte c =>
    unfold handleKey at hk
    dsimp only at hk
    split at hk
    · cases hk
    · split at hk
      · rename_i hc
        cases hk
        exact ⟨by rw [hc], rfl⟩
      · split at hk
        · cases hk
        · split at hk
          · cases hk
          · split at hk <;> cases hk
  | _ => cases hk

variable {s : Terminal} {l : Line} {trail : Bytes} (h : s.Holds l trail)
include h

/-- The next line starts with what the last one left. -/
theorem Holds.enter : s.enter.clear.Holds .empty (l.cleared trail) := by
  have hn := h.length
  refine ⟨?_, rfl, rfl⟩
  intro i
  change (if i < (s.enter.length + 1).toNat then 0 else s.enter.buffer i) =
    (l.cleared trail).getD i 0
  rw [getD_cleared, enter_length, enter_buffer]
  by_cases hi : i < l.text.length + 1
  · rw [if_pos hi, if_pos (by omega)]
  · rw [if_neg hi, if_neg (by omega), Function.update_of_ne (by omega), h.buffer]

/-- The buffer when a line is handed over. -/
theorem Holds.taken_enter (hfits : s.length < s.bufferLength) :
    s.enter.taken s.bufferLength = l.text ++ newLine ::
      (List.range (s.bufferLength - (l.text.length + 1))).map fun i => trail.getD (i + 1) 0 := by
  have hn := h.length
  apply List.ext_getElem
  · simp only [length_taken, List.length_append, List.length_cons, List.length_map,
      List.length_range]
    omega
  · intro i _ hi
    simp only [taken, List.getElem_map, List.getElem_range, enter_buffer]
    rcases Nat.lt_trichotomy i l.text.length with hlt | heq | hgt
    · rw [List.getElem_append_left hlt, Function.update_of_ne (by omega), h.buffer,
        List.getD_append _ _ _ _ hlt, List.getD_eq_getElem _ _ hlt]
    · subst heq
      have hidx : s.length.toNat = l.text.length := by omega
      rw [hidx, Function.update_self, List.getElem_append_right (Nat.le_refl _)]
      simp
    · obtain ⟨j, rfl⟩ := Nat.exists_eq_add_of_lt hgt
      rw [Function.update_of_ne (by omega), h.buffer, List.getElem_append_right (by omega),
        List.getD_append_right _ _ _ _ (by omega)]
      have hidx : l.text.length + j + 1 - l.text.length = j + 1 := by omega
      simp [hidx]

omit h

theorem cString_append {a b : Bytes} (ha : 0 ∉ a) : cString (a ++ b) = a ++ cString b := by
  unfold cString
  apply List.takeWhile_append_of_pos
  intro c hc
  have hne : c ≠ 0 := fun h0 => ha (h0 ▸ hc)
  simpa using hne

include h

/-- The line that is handed over is the text with a newline just if the text has no NUL, and
the byte behind the newline is one. -/
theorem Holds.returned_iff (hfits : s.length < s.bufferLength) :
    s.enter.returned = some (l.text ++ [newLine]) ↔
      0 ∉ l.text ∧ l.text.length + 1 < s.bufferLength ∧ trail.getD 1 0 = 0 := by
  have htaken := h.taken_enter hfits
  unfold returned
  rw [enter_bufferLength, htaken]
  obtain ⟨rest, hrest⟩ : ∃ rest, rest = (List.range (s.bufferLength - (l.text.length + 1))).map
      fun i => trail.getD (i + 1) 0 := ⟨_, rfl⟩
  have hlen : rest.length = s.bufferLength - (l.text.length + 1) := by simp [hrest]
  have hhead : ∀ c cs, rest = c :: cs → c = trail.getD 1 0 := by
    intro c cs hcons
    have hpos : 0 < rest.length := by simp [hcons]
    have h0 : rest[0] = c := by simp [hcons]
    rw [← h0]
    simp [hrest]
  rw [← hrest]
  constructor
  · intro heq
    dsimp only at heq
    split at heq
    · rename_i hmem
      have hcut := Option.some.inj heq
      have htext : 0 ∉ l.text := by
        intro hnul
        have hin : (0 : UInt8) ∈ cString (l.text ++ newLine :: rest) := by
          rw [hcut]
          exact List.mem_append_left _ hnul
        have := List.mem_takeWhile_imp hin
        simp at this
      have hline : (0 : UInt8) ∉ l.text ++ [newLine] := by
        simp only [List.mem_append, List.mem_singleton, not_or]
        exact ⟨htext, by decide⟩
      rw [List.append_cons] at hcut hmem
      rw [cString_append hline, List.append_right_eq_self] at hcut
      have hzero : (0 : UInt8) ∈ rest := (List.mem_append.mp hmem).resolve_left hline
      cases hcons : rest with
      | nil => rw [hcons] at hzero; cases hzero
      | cons c cs =>
        have hc := hhead c cs hcons
        rw [hcons] at hcut hlen
        refine ⟨htext, ?_, ?_⟩
        · rw [List.length_cons] at hlen
          omega
        · rw [← hc]
          by_contra hne
          simp [cString, hne] at hcut
    · cases heq
  · rintro ⟨htext, hroom, htrail⟩
    have hline : (0 : UInt8) ∉ l.text ++ [newLine] := by
      simp only [List.mem_append, List.mem_singleton, not_or]
      exact ⟨htext, by decide⟩
    cases hcons : rest with
    | nil =>
      rw [hcons, List.length_nil] at hlen
      omega
    | cons c cs =>
      have hc : c = 0 := (hhead c cs hcons).trans htrail
      subst hc
      rw [List.append_cons, if_pos (by simp), cString_append hline]
      simp [cString]

end Enter

section Session
variable {file : Bytes} {s : Terminal} {l : Line} {trail : Bytes}

/-- The buffer does not grow while the text is shorter. -/
theorem handleKey_bufferLength {k : Key} {t : Terminal} (hs : s.length < s.bufferLength)
    (hk : s.handleKey k = .again t) : t.bufferLength = s.bufferLength := by
  cases k with
  | byte c =>
    unfold handleKey at hk
    dsimp only at hk
    split at hk
    · cases hk
      unfold backspaceKey
      split <;> rfl
    · split at hk
      · cases hk
      · split at hk
        · cases hk
          rfl
        · split at hk
          · cases hk
          · split at hk
            · cases hk
              exact if_neg (by omega)
            · cases hk
              rfl
  | arrowUp =>
    cases hk
    unfold up
    split <;> rfl
  | arrowDown =>
    cases hk
    unfold down
    split <;> rfl
  | delete =>
    cases hk
    unfold deleteKey
    split <;> rfl
  | eof => cases hk
  | _ =>
    cases hk
    rfl

theorem Session.holds (h : Session file s l trail) :
    s.Holds l trail ∧ s.length < s.bufferLength ∧ s.bufferLength = 1024 := by
  induction h with
  | start =>
    refine ⟨⟨?_, rfl, rfl⟩, (by decide : (0 : Int) < 1024), rfl⟩
    intro i
    simp [Terminal.start, Terminal.clear, Line.empty]
  | key _ hk hfits ih =>
    obtain ⟨hholds, hlt, hsize⟩ := ih
    exact ⟨hholds.handleKey hk, hfits, (handleKey_bufferLength hlt hk).trans hsize⟩
  | next _ hk ih =>
    obtain ⟨hholds, -, hsize⟩ := ih
    obtain ⟨-, rfl⟩ := handleKey_line hk
    have hcap := (enter_bufferLength _).trans hsize
    refine ⟨hholds.enter, ?_, hcap⟩
    change (0 : Int) < Nat.cast (Terminal.enter _).bufferLength
    rw [hcap]
    decide

end Session

end Terminal

end Aer.Shell
