import Aer.Shell.Delivery
import Mathlib.Logic.Function.Iterate

set_option linter.all false

/-! What UP and DOWN recall: the lines that were entered, as long as every line is ended
with the recall back at the end of the history. -/
namespace Aer.Shell

open Aer.Data

/-- The history file of some lines. -/
def content (ls : List Bytes) : Bytes := ls.flatMap (· ++ [newLine])

/-- Where line `i` starts in it. -/
def offset (ls : List Bytes) (i : Nat) : Nat := (content (ls.take i)).length

/-- The lines entered once the text of `s` is. -/
def entered (s : Terminal) (ls : List Bytes) : List Bytes :=
  if s.text = [] then ls else ls ++ [s.text]

/-- A key at the prompt, with the lines entered so far. After a line there is a new prompt. -/
def press (p : Terminal × List Bytes) (k : Key) : Option (Terminal × List Bytes) :=
  match p.1.handleKey k with
  | .again t => some (t, p.2)
  | .line t => some (t.clear, entered p.1 p.2)
  | .exit => none

def session (old : List Bytes) (keys : List Key) : Option (Terminal × List Bytes) :=
  keys.foldlM press ((Terminal.start (content old)).clear, old)

/-- The line the recall is at behind a key. -/
def cursorAfter (ls : List Bytes) (i : Nat) : Key → Nat
  | .arrowUp => i - 1
  | .arrowDown => min (i + 1) ls.length
  | .byte c => if c = newLine then ls.length else i
  | _ => i

/-- A line is ended. -/
def ends (k : Key) : Prop := k = .byte newLine ∨ k = .byte endOfText

/-- The bytes of the lines from `i` on stay below the size of the ring. -/
def Reach (ls : List Bytes) (i : Nat) : Prop := (content (ls.drop i)).length < commandSize

instance (ls : List Bytes) (i : Nat) : Decidable (Reach ls i) := inferInstanceAs (Decidable (_ < _))

/-- Sessions one after the other in which every line is ended at the end of the history: the
lines entered so far, and the line the recall is at. -/
inductive Settled (old : List Bytes) : Terminal → List Bytes → Nat → Prop
  | start (hold : ∀ l ∈ old, l ≠ [] ∧ newLine ∉ l) :
      Settled old (Terminal.start (content old)).clear old old.length
  | press {s t : Terminal} {ls ls' : List Bytes} {i : Nat} {k : Key} (h : Settled old s ls i)
      (hk : press (s, ls) k = some (t, ls')) (hfits : t.length < t.bufferLength)
      (hend : ends k → s.historyPosition = s.historyLength)
      (hreach : k = .arrowUp → 0 < i → Reach ls (i - 1)) :
      Settled old t ls' (cursorAfter ls' i k)
  | restart {s : Terminal} {ls : List Bytes} {i : Nat} (h : Settled old s ls i) :
      Settled old (Terminal.start s.history).clear ls ls.length

section Content

@[simp] theorem content_nil : content [] = [] := rfl

@[simp] theorem content_append (a b : List Bytes) : content (a ++ b) = content a ++ content b :=
  List.flatMap_append

@[simp] theorem content_cons (l : Bytes) (ls : List Bytes) :
    content (l :: ls) = l ++ newLine :: content ls := by
  simp [content]

theorem offset_append (a b : List Bytes) : offset (a ++ b) a.length = (content a).length := by
  rw [offset, List.take_left]

theorem reach_append (a b : List Bytes) :
    Reach (a ++ b) a.length ↔ (content b).length < commandSize := by
  rw [Reach, List.drop_left]

/-- The lines around one of them. -/
theorem exists_split {ls : List Bytes} {i : Nat} (hi : i < ls.length) :
    ∃ a x b, ls = a ++ x :: b ∧ a.length = i := by
  refine ⟨ls.take i, ls[i], ls.drop (i + 1), ?_, ?_⟩
  · rw [← List.drop_eq_getElem_cons hi, List.take_append_drop]
  · rw [List.length_take]
    omega

theorem content_ne_nil {l : Bytes} {ls : List Bytes} : 0 < (content (l :: ls)).length := by
  rw [content_cons, List.length_append, List.length_cons]
  omega

end Content

section Ring

/-- The ring behind a write: the written bytes, and what they do not lap. -/
theorem writeRing_apply (bs : Bytes) (ring : Nat → UInt8) (p q : Nat) (hlt : q < p + bs.length)
    (hwin : p + bs.length ≤ q + commandSize) :
    writeRing ring p bs (q % commandSize) =
      if q < p then ring (q % commandSize) else bs.getD (q - p) 0 := by
  unfold commandSize at hwin ⊢
  induction bs generalizing ring p with
  | nil =>
    rw [List.length_nil] at hlt
    rw [if_pos (by omega)]
    rfl
  | cons b bs ih =>
    rw [List.length_cons] at hlt hwin
    unfold writeRing commandSize
    rw [ih _ (p + 1) (by omega) (by omega)]
    rcases Nat.lt_trichotomy q p with h | h | h
    · rw [if_pos (by omega), if_pos h, Function.update_of_ne (by omega)]
    · subst h
      rw [if_pos (by omega), if_neg (by omega), Function.update_self, Nat.sub_self]
      rfl
    · rw [if_neg (by omega), if_neg (by omega)]
      have hidx : q - p = q - (p + 1) + 1 := by omega
      rw [hidx, List.getD_cons_succ]

namespace Terminal

/-- The ring holds the last bytes of the lines entered. -/
structure Keeps (s : Terminal) (ls : List Bytes) : Prop where
  history : s.history = content ls
  length : s.historyLength = (content ls).length
  ring : ∀ p, p < s.historyLength → s.historyLength ≤ p + commandSize →
    s.ring p = (content ls).getD p 0
  lines : ∀ l ∈ ls, l ≠ [] ∧ newLine ∉ l

theorem keeps_start {ls : List Bytes} (h : ∀ l ∈ ls, l ≠ [] ∧ newLine ∉ l) :
    (Terminal.start (content ls)).clear.Keeps ls := by
  refine ⟨rfl, rfl, ?_, h⟩
  intro p hp hwin
  change p < (content ls).length at hp
  change (content ls).length ≤ p + commandSize at hwin
  have hdrop : ((content ls).drop ((content ls).length - min (content ls).length commandSize)).length =
      min (content ls).length commandSize := by
    rw [List.length_drop]
    omega
  change writeRing _ _ _ (p % commandSize) = _
  rw [writeRing_apply _ _ _ _ (by rw [hdrop]; omega) (by rw [hdrop]; omega), if_neg (by omega)]
  simp only [List.getD_eq_getElem?_getD, List.getElem?_drop]
  congr 2
  omega

theorem seekBack_eq (s : Terminal) {lo p : Nat} (hle : lo ≤ p)
    (hskip : ∀ q, lo < q → q ≤ p → s.ring q ≠ newLine) (hlo : lo = 0 ∨ s.ring lo = newLine) :
    s.seekBack p = lo := by
  induction p with
  | zero => exact (Nat.le_zero.mp hle).symm
  | succ p ih =>
    unfold seekBack
    rcases Nat.lt_or_eq_of_le hle with h | h
    · rw [if_pos (hskip (p + 1) h (Nat.le_refl _))]
      exact ih (Nat.le_of_lt_succ h) fun q hq hqp => hskip q hq (Nat.le_succ_of_le hqp)
    · subst h
      rw [if_neg (not_not.mpr (hlo.resolve_left (Nat.succ_ne_zero p)))]

theorem seekOn_eq (s : Terminal) {n p m : Nat} (hp : p ≤ m) (hm : m ≤ p + n)
    (hskip : ∀ q, p ≤ q → q < m → s.ring q ≠ newLine) (hstop : m = p + n ∨ s.ring m = newLine) :
    s.seekOn n p = m := by
  induction n generalizing p with
  | zero => exact Nat.le_antisymm hp hm
  | succ n ih =>
    unfold seekOn
    rcases Nat.lt_or_eq_of_le hp with h | h
    · rw [if_pos (hskip p (Nat.le_refl _) h)]
      exact ih h (by omega) (fun q hq hqm => hskip q (by omega) hqm)
        (hstop.imp_left fun hm => by omega)
    · subst h
      rw [if_neg (not_not.mpr (hstop.resolve_left (by omega)))]

section Recall
variable {s : Terminal} {a b : List Bytes} {x : Bytes}

/-- The bytes of one line in the ring, if the lines from it on are in reach. -/
theorem Keeps.ring_line (hk : s.Keeps (a ++ x :: b))
    (hreach : (content (x :: b)).length < commandSize) {j : Nat} (hj : j ≤ x.length) :
    s.ring ((content a).length + j) = (x ++ [newLine]).getD j 0 := by
  have hlen := hk.length
  rw [content_append, List.length_append] at hlen
  have hx : (content (x :: b)).length = x.length + 1 + (content b).length := by
    rw [content_cons, List.length_append, List.length_cons]
    omega
  rw [hk.ring _ (by omega) (by omega), content_append, content_cons,
    List.getD_append_right _ _ _ _ (Nat.le_add_right _ _), Nat.add_sub_cancel_left,
    List.append_cons, List.getD_append]
  rw [List.length_append, List.length_singleton]
  omega

theorem Keeps.ring_lt (hk : s.Keeps (a ++ x :: b))
    (hreach : (content (x :: b)).length < commandSize) {j : Nat} (hj : j < x.length) :
    s.ring ((content a).length + j) = x.getD j 0 := by
  rw [hk.ring_line hreach (Nat.le_of_lt hj), List.getD_append _ _ _ _ hj]

theorem Keeps.ring_ne (hk : s.Keeps (a ++ x :: b))
    (hreach : (content (x :: b)).length < commandSize) {j : Nat} (hj : j < x.length) :
    s.ring ((content a).length + j) ≠ newLine := by
  rw [hk.ring_lt hreach hj, List.getD_eq_getElem _ _ hj]
  intro heq
  exact (hk.lines x (by simp)).2 (heq ▸ List.getElem_mem hj)

theorem Keeps.ring_end (hk : s.Keeps (a ++ x :: b))
    (hreach : (content (x :: b)).length < commandSize) :
    s.ring ((content a).length + x.length) = newLine := by
  rw [hk.ring_line hreach (Nat.le_refl _), List.getD_append_right _ _ _ _ (Nat.le_refl _),
    Nat.sub_self]
  rfl

theorem Keeps.entry (hk : s.Keeps (a ++ x :: b))
    (hreach : (content (x :: b)).length < commandSize) :
    s.entry (content a).length x.length = x := by
  apply List.ext_getElem
  · exact length_entry s _ _
  · intro j _ hj
    simp only [Terminal.entry, List.getElem_map, List.getElem_range]
    rw [hk.ring_lt hreach hj, List.getD_eq_getElem _ _ hj]

/-- In front of a line is the end of the line before it, or the start of the history. -/
theorem Keeps.ring_before (hk : s.Keeps (a ++ x :: b))
    (hreach : (content (x :: b)).length < commandSize) :
    (content a).length = 0 ∨ s.ring ((content a).length - 1) = newLine := by
  rcases List.eq_nil_or_concat a with rfl | ⟨a', y, ha⟩
  · exact Or.inl rfl
  · right
    rw [List.concat_eq_append] at ha
    subst ha
    have hlen := hk.length
    have hpos : (content (a' ++ [y])).length = (content a' ++ y).length + 1 := by
      simp [Nat.add_assoc]
    have hin := @List.length_append _ (content (a' ++ [y])) (content (x :: b))
    rw [content_append] at hlen
    have hx := @content_ne_nil x b
    rw [hk.ring _ (by omega) (by omega), hpos, Nat.add_sub_cancel]
    have hsplit : content (a' ++ [y] ++ x :: b) =
        (content a' ++ y) ++ newLine :: content (x :: b) := by
      simp
    rw [hsplit, List.getD_append_right _ _ _ _ (Nat.le_refl _), Nat.sub_self]
    rfl

/-- UP goes to the line before the one the recall is at. -/
theorem Keeps.up (hk : s.Keeps (a ++ x :: b))
    (hreach : (content (x :: b)).length < commandSize)
    (hp : s.historyPosition = (content (a ++ [x])).length) :
    s.up = s.recallEntry (content a).length x.length := by
  have hne := (hk.lines x (by simp)).1
  have hxpos : 0 < x.length := List.length_pos_iff.mpr hne
  have hpos : s.historyPosition = (content a).length + x.length + 1 := by
    rw [hp]
    simp [Nat.add_assoc]
  have hstart : s.historyPosition - 2 = (content a).length + (x.length - 1) := by omega
  have hskip : ∀ q, (content a).length ≤ q → q ≤ s.historyPosition - 2 → s.ring q ≠ newLine := by
    intro q hlo hhi
    obtain ⟨j, rfl⟩ := Nat.exists_eq_add_of_le hlo
    exact hk.ring_ne hreach (by omega)
  have habove : s.above = ((content a).length, x.length) := by
    unfold above
    dsimp only
    rcases hk.ring_before hreach with h0 | hnl
    · have hback : s.seekBack (s.historyPosition - 2) = 0 :=
        s.seekBack_eq (Nat.zero_le _) (fun q hq hqp => hskip q (by omega) hqp) (Or.inl rfl)
      rw [hback, if_neg (hskip 0 (by omega) (Nat.zero_le _)), h0]
      congr 1
      omega
    · have hback : s.seekBack (s.historyPosition - 2) = (content a).length - 1 := by
        refine s.seekBack_eq (by omega) (fun q hq hqp => hskip q (by omega) hqp) (Or.inr hnl)
      have hfirst : (content a).length - 1 + 1 = (content a).length := by
        have := hskip (content a).length (Nat.le_refl _) (by omega)
        rcases Nat.eq_zero_or_pos (content a).length with h0 | hpos'
        · rw [h0] at hnl this
          exact absurd hnl this
        · omega
      rw [hback, if_pos hnl, hfirst]
      congr 1
      omega
  unfold Terminal.up
  rw [if_neg (by omega), habove]

/-- DOWN goes to the line behind the one the recall is at, or to an empty text. -/
theorem Keeps.down (hk : s.Keeps (a ++ x :: b))
    (hreach : (content (x :: b)).length < commandSize)
    (hp : s.historyPosition = (content a).length) :
    s.down = s.recallEntry (content (a ++ [x])).length (b.headD []).length := by
  have hlen := hk.length
  have hx : (content (x :: b)).length = x.length + 1 + (content b).length := by
    rw [content_cons, List.length_append, List.length_cons]
    omega
  have hax : (content (a ++ [x])).length = (content a).length + x.length + 1 := by
    simp [Nat.add_assoc]
  rw [content_append, List.length_append] at hlen
  have hfirst : s.seekOn (s.historyLength - s.historyPosition) s.historyPosition =
      (content a).length + x.length := by
    refine s.seekOn_eq (by omega) (by omega) ?_ (Or.inr (hk.ring_end hreach))
    intro q hlo hhi
    rw [hp] at hlo
    obtain ⟨j, rfl⟩ := Nat.exists_eq_add_of_le hlo
    exact hk.ring_ne hreach (by omega)
  have hbelow : s.below = ((content (a ++ [x])).length, (b.headD []).length) := by
    unfold below
    dsimp only
    rw [hfirst, hax]
    cases b with
    | nil =>
      have hend : s.historyLength - ((content a).length + x.length + 1) = 0 := by
        simp only [content, List.flatMap_nil, List.length_nil] at hx hlen ⊢
        omega
      rw [hend]
      simp [seekOn]
    | cons y c =>
      have hk' : s.Keeps ((a ++ [x]) ++ y :: c) := by simpa using hk
      have hreach' : (content (y :: c)).length < commandSize := by omega
      have hy : (content (y :: c)).length = y.length + 1 + (content c).length := by
        rw [content_cons, List.length_append, List.length_cons]
        omega
      have hsecond : s.seekOn (s.historyLength - ((content a).length + x.length + 1))
          ((content a).length + x.length + 1) = (content a).length + x.length + 1 + y.length := by
        refine s.seekOn_eq (by omega) (by omega) ?_ (Or.inr ?_)
        · intro q hlo hhi
          rw [← hax] at hlo
          obtain ⟨j, rfl⟩ := Nat.exists_eq_add_of_le hlo
          exact hk'.ring_ne hreach' (by omega)
        · rw [← hax]
          exact hk'.ring_end hreach'
      rw [hsecond]
      simp
  unfold Terminal.down
  rw [if_neg (by omega), hbelow]

end Recall

section Steps
variable {s : Terminal} {ls : List Bytes} {i : Nat}

/-- The recall is at line `i`, and the text is one that can be entered. -/
structure Follows (s : Terminal) (ls : List Bytes) (i : Nat) : Prop where
  keeps : s.Keeps ls
  le : i ≤ ls.length
  reach : Reach ls i
  position : s.historyPosition = offset ls i
  holds : ∃ l trail, s.Holds l trail
  clean : newLine ∉ s.text

theorem Keeps.same {t : Terminal} (hk : s.Keeps ls) (hhistory : t.history = s.history)
    (hbuffer : t.historyBuffer = s.historyBuffer) (hlength : t.historyLength = s.historyLength) :
    t.Keeps ls := by
  refine ⟨hhistory.trans hk.history, hlength.trans hk.length, ?_, hk.lines⟩
  unfold Terminal.ring
  rw [hbuffer, hlength]
  exact hk.ring

theorem reach_end (ls : List Bytes) : Reach ls ls.length := by
  rw [Reach, List.drop_length]
  decide

theorem reach_mono (h : Reach ls i) {j : Nat} (hij : i ≤ j) : Reach ls j := by
  have hdrop : (ls.drop i).drop (j - i) = ls.drop j := by
    rw [List.drop_drop, Nat.add_sub_cancel' hij]
  have hsplit : content (ls.drop i) = content ((ls.drop i).take (j - i)) ++ content (ls.drop j) := by
    rw [← hdrop, ← content_append, List.take_append_drop]
  unfold Reach at h ⊢
  rw [hsplit, List.length_append] at h
  omega

theorem offset_length (ls : List Bytes) : offset ls ls.length = (content ls).length := by
  rw [offset, List.take_length]

theorem offset_eq_iff (hi : i ≤ ls.length) : offset ls i = (content ls).length ↔ i = ls.length := by
  constructor
  · intro heq
    by_contra hne
    obtain ⟨a, x, b, rfl, rfl⟩ := exists_split (Nat.lt_of_le_of_ne hi hne)
    have hpos := @content_ne_nil x b
    rw [offset_append, content_append, List.length_append] at heq
    omega
  · rintro rfl
    exact offset_length ls

theorem Follows.end_iff (hf : s.Follows ls i) :
    s.historyPosition = s.historyLength ↔ i = ls.length := by
  rw [hf.position, hf.keeps.length]
  exact offset_eq_iff hf.le

theorem text_recall (s : Terminal) (e n : Nat) : (s.recallEntry e n).text = s.entry e n := by
  change (List.range (n : Int).toNat).map _ = _
  rw [Int.toNat_natCast]
  apply List.map_congr_left
  intro j hj
  exact if_pos (List.mem_range.mp hj)

theorem Follows.recallEntry (hf : s.Follows ls i) {e n j : Nat} (hj : j ≤ ls.length)
    (hreach : Reach ls j) (he : e = offset ls j) (hclean : newLine ∉ s.entry e n) :
    (s.recallEntry e n).Follows ls j := by
  obtain ⟨l, trail, hholds⟩ := hf.holds
  refine ⟨hf.keeps.same rfl rfl rfl, hj, hreach, he, ⟨_, _, hholds.recallEntry e n⟩, ?_⟩
  rw [text_recall]
  exact hclean

/-- UP at a line that is not the first. -/
theorem Follows.up_pos (hf : s.Follows ls i) (hi : 0 < i) (hreach : Reach ls (i - 1)) :
    s.up.Follows ls (i - 1) ∧ s.up.text = ls.getD (i - 1) [] := by
  obtain ⟨a, x, b, rfl, ha⟩ := exists_split (Nat.lt_of_lt_of_le (Nat.sub_lt hi Nat.one_pos) hf.le)
  have hpos := hf.position
  have hcut : i = (a ++ [x]).length := by
    rw [List.length_append, List.length_singleton]
    omega
  have hoff : offset (a ++ x :: b) i = (content (a ++ [x])).length := by
    rw [hcut, List.append_cons, offset_append]
  rw [← ha, reach_append] at hreach
  have hup := hf.keeps.up hreach (hpos.trans hoff)
  have hentry := hf.keeps.entry hreach
  have hclean : newLine ∉ s.entry (content a).length x.length := by
    rw [hentry]
    exact (hf.keeps.lines x (by simp)).2
  rw [hup, text_recall, hentry, ← ha]
  refine ⟨hf.recallEntry (by simp) ((reach_append a _).mpr hreach) (offset_append a _).symm hclean, ?_⟩
  rw [List.getD_append_right _ _ _ _ (Nat.le_refl _), Nat.sub_self, List.getD_cons_zero]

/-- UP at the first line. -/
theorem Follows.up_zero (hf : s.Follows ls 0) : s.up = s := by
  have hpos : s.historyPosition = 0 := hf.position
  unfold Terminal.up
  rw [if_pos (by omega)]

/-- DOWN at a line. -/
theorem Follows.down_lt (hf : s.Follows ls i) (hi : i < ls.length) :
    s.down.Follows ls (i + 1) ∧ s.down.text = ls.getD (i + 1) [] := by
  obtain ⟨a, x, b, rfl, rfl⟩ := exists_split hi
  have hreach := (reach_append a _).mp hf.reach
  have hdown := hf.keeps.down hreach (hf.position.trans (offset_append a _))
  have hoff : (content (a ++ [x])).length = offset (a ++ x :: b) (a.length + 1) := by
    have hlen : a.length + 1 = (a ++ [x]).length := by simp
    rw [hlen, List.append_cons a x b, offset_append]
  have hentry : s.entry (content (a ++ [x])).length (b.headD []).length = b.headD [] := by
    cases b with
    | nil => rfl
    | cons y c =>
      have hkeeps : s.Keeps ((a ++ [x]) ++ y :: c) := by simpa using hf.keeps
      refine hkeeps.entry ?_
      have := hreach
      rw [content_cons, List.length_append, List.length_cons] at this
      omega
  have hclean : newLine ∉ s.entry (content (a ++ [x])).length (b.headD []).length := by
    rw [hentry]
    cases b with
    | nil => exact List.not_mem_nil
    | cons y c => exact (hf.keeps.lines y (by simp)).2
  rw [hdown, text_recall, hentry]
  refine ⟨hf.recallEntry hi (reach_mono hf.reach (Nat.le_succ _)) hoff hclean, ?_⟩
  rw [List.getD_append_right _ _ _ _ (Nat.le_add_right a.length 1), Nat.add_sub_cancel_left,
    List.getD_cons_succ]
  cases b <;> rfl

/-- DOWN at the end of the history. -/
theorem Follows.down_end (hf : s.Follows ls ls.length) : s.down = s := by
  have hend := hf.end_iff.mpr rfl
  unfold Terminal.down
  rw [if_pos (by omega)]

theorem Follows.up (hf : s.Follows ls i) (hreach : 0 < i → Reach ls (i - 1)) :
    s.up.Follows ls (i - 1) := by
  rcases Nat.eq_zero_or_pos i with rfl | hi
  · rw [hf.up_zero]
    exact hf
  · exact (hf.up_pos hi (hreach hi)).1

theorem Follows.down (hf : s.Follows ls i) : s.down.Follows ls (min (i + 1) ls.length) := by
  rcases Nat.lt_or_eq_of_le hf.le with hi | rfl
  · rw [Nat.min_eq_left hi]
    exact (hf.down_lt hi).1
  · rw [Nat.min_eq_right (Nat.le_succ _), hf.down_end]
    exact hf

/-- Keys that do not recall leave the history alone. -/
theorem handleKey_history {k : Key} {t : Terminal} (hup : k ≠ .arrowUp) (hdown : k ≠ .arrowDown)
    (hk : s.handleKey k = .again t) :
    t.history = s.history ∧ t.historyBuffer = s.historyBuffer ∧
      t.historyLength = s.historyLength ∧ t.historyPosition = s.historyPosition := by
  cases k with
  | arrowUp => exact absurd rfl hup
  | arrowDown => exact absurd rfl hdown
  | byte c =>
    unfold handleKey at hk
    dsimp only at hk
    split at hk
    · cases hk
      unfold backspaceKey
      split <;> exact ⟨rfl, rfl, rfl, rfl⟩
    · split at hk
      · cases hk
      · split at hk
        · cases hk
          exact ⟨rfl, rfl, rfl, rfl⟩
        · split at hk
          · cases hk
          · split at hk <;> cases hk <;> exact ⟨rfl, rfl, rfl, rfl⟩
  | delete =>
    cases hk
    unfold deleteKey
    split <;> exact ⟨rfl, rfl, rfl, rfl⟩
  | eof => cases hk
  | _ =>
    cases hk
    exact ⟨rfl, rfl, rfl, rfl⟩

/-- Keys put no newline into a text. -/
theorem key_clean {l : Line} {k : Key} (h : newLine ∉ l.text) : newLine ∉ (l.key none k).text := by
  cases k with
  | byte c =>
    simp only [Line.key]
    split
    · simp only [Line.backspace]
      split
      · exact h
      · exact fun hmem => h (List.mem_of_mem_eraseIdx hmem)
    · split
      · exact List.not_mem_nil
      · split
        · exact h
        · rename_i hprint
          intro hmem
          rcases (List.mem_insertIdx l.inside).mp hmem with rfl | hmem
          · exact hprint rfl
          · exact h hmem
  | delete => exact fun hmem => h (List.mem_of_mem_eraseIdx hmem)
  | _ => exact h

theorem Follows.edit (hf : s.Follows ls i) {k : Key} {t : Terminal} (hup : k ≠ .arrowUp)
    (hdown : k ≠ .arrowDown) (hk : s.handleKey k = .again t) : t.Follows ls i := by
  obtain ⟨hhistory, hbuffer, hlength, hposition⟩ := handleKey_history hup hdown hk
  obtain ⟨l, trail, hholds⟩ := hf.holds
  have hnone : s.recalled k = none := by
    cases k with
    | arrowUp => exact absurd rfl hup
    | arrowDown => exact absurd rfl hdown
    | _ => rfl
  have hnext := hholds.handleKey hk
  have hclean := hf.clean
  rw [hnone] at hnext
  rw [hholds.text] at hclean
  refine ⟨hf.keeps.same hhistory hbuffer hlength, hf.le, hf.reach, hposition.trans hf.position,
    ⟨_, _, hnext⟩, ?_⟩
  rw [hnext.text]
  exact key_clean hclean

/-- A new prompt, with the recall at the end. -/
theorem follows_prompt (hk : s.Keeps ls) (hp : s.historyPosition = s.historyLength)
    (hholds : ∃ trail, s.Holds .empty trail) : s.Follows ls ls.length := by
  obtain ⟨trail, hholds⟩ := hholds
  refine ⟨hk, Nat.le_refl _, reach_end ls, ?_, ⟨_, _, hholds⟩, ?_⟩
  · rw [hp, hk.length, offset_length]
  · rw [hholds.text]
    exact List.not_mem_nil

theorem follows_start (h : ∀ l ∈ ls, l ≠ [] ∧ newLine ∉ l) :
    (Terminal.start (content ls)).clear.Follows ls ls.length :=
  follows_prompt (keeps_start h) rfl
    ⟨_, (@Session.start (content ls)).holds.1⟩

/-- Enter at the end of the history puts the text behind the lines. -/
theorem Follows.enter (hf : s.Follows ls i) (hend : s.historyPosition = s.historyLength) :
    s.enter.clear.Follows (entered s ls) (entered s ls).length := by
  obtain ⟨l, trail, hholds⟩ := hf.holds
  have hn := hholds.length
  have htext := hholds.text
  have hprompt : ∃ trail, s.enter.clear.Holds .empty trail := ⟨_, hholds.enter⟩
  unfold entered
  by_cases hempty : s.text = []
  · have hzero : s.length = 0 := by rw [hn, ← htext, hempty]; rfl
    have henter : s.enter =
        { s with buffer := Function.update s.buffer s.length.toNat newLine } := by
      unfold Terminal.enter
      simp [hzero]
    rw [if_pos hempty]
    rw [henter] at hprompt ⊢
    exact follows_prompt (hf.keeps.same rfl rfl rfl) hend hprompt
  · have hpos : s.length ≠ 0 := by
      rw [hn, ← htext]
      exact_mod_cast (List.length_pos_iff.mpr hempty).ne'
    have hline : ({ s with buffer := Function.update s.buffer s.length.toNat newLine } :
        Terminal).taken (s.length.toNat + 1) = s.text ++ [newLine] := by
      simp only [taken, Terminal.text, List.range_succ, List.map_append, List.map_cons,
        List.map_nil, Function.update_self]
      congr 1
      apply List.map_congr_left
      intro j hj
      exact Function.update_of_ne (Nat.ne_of_lt (List.mem_range.mp hj)) _ _
    have henter : s.enter =
        { s with
          buffer := Function.update s.buffer s.length.toNat newLine
          history := s.history ++ (s.text ++ [newLine])
          historyBuffer := writeRing s.historyBuffer s.historyPosition (s.text ++ [newLine])
          historyPosition := s.historyPosition + (s.text ++ [newLine]).length
          historyLength := s.historyLength + (s.text ++ [newLine]).length } := by
      unfold Terminal.enter
      rw [if_pos hpos, hline]
    have hcontent : content (ls ++ [s.text]) = content ls ++ (s.text ++ [newLine]) := by simp
    rw [if_neg hempty]
    rw [henter] at hprompt ⊢
    refine follows_prompt ⟨?_, ?_, ?_, ?_⟩ ?_ hprompt
    · rw [hcontent, ← hf.keeps.history]
      rfl
    · change s.historyLength + (s.text ++ [newLine]).length = _
      rw [hcontent, hf.keeps.length]
      exact List.length_append.symm
    · intro p hp hwin
      change p < s.historyLength + (s.text ++ [newLine]).length at hp
      change s.historyLength + (s.text ++ [newLine]).length ≤ p + commandSize at hwin
      change writeRing _ _ _ (p % commandSize) = _
      rw [← hend] at hp hwin
      rw [writeRing_apply _ _ _ _ hp hwin, hcontent]
      have hlen := hf.keeps.length
      by_cases hold : p < s.historyPosition
      · rw [if_pos hold, List.getD_append (content ls) _ _ _ (by omega)]
        exact hf.keeps.ring p (by omega) (by omega)
      · rw [if_neg hold, List.getD_append_right (content ls) _ _ _ (by omega), hend, hlen]
    · intro x hx
      rcases List.mem_append.mp hx with hx | hx
      · exact hf.keeps.lines x hx
      · rw [List.mem_singleton.mp hx]
        exact ⟨hempty, hf.clean⟩
    · exact congrArg (· + (s.text ++ [newLine]).length) hend

end Steps

end Terminal

end Ring

section Sessions
variable {old : List Bytes} {s : Terminal} {ls : List Bytes} {i : Nat}

theorem Terminal.Follows.pressed (hf : s.Follows ls i) {k : Key} {t : Terminal} {ls' : List Bytes}
    (hk : press (s, ls) k = some (t, ls')) (hend : ends k → s.historyPosition = s.historyLength)
    (hreach : k = .arrowUp → 0 < i → Reach ls (i - 1)) : t.Follows ls' (cursorAfter ls' i k) := by
  unfold press at hk
  dsimp only at hk
  split at hk
  · rename_i u hagain
    obtain ⟨rfl, rfl⟩ := Prod.mk.inj (Option.some.inj hk)
    cases k with
    | arrowUp =>
      cases hagain
      exact hf.up (hreach rfl)
    | arrowDown =>
      cases hagain
      exact hf.down
    | byte c =>
      have hne : c ≠ newLine := by
        rintro rfl
        cases hagain
      rw [cursorAfter, if_neg hne]
      exact hf.edit (by simp) (by simp) hagain
    | _ => exact hf.edit (by simp) (by simp) hagain
  · rename_i u hline
    obtain ⟨rfl, rfl⟩ := handleKey_line hline
    obtain ⟨rfl, rfl⟩ := Prod.mk.inj (Option.some.inj hk)
    rw [cursorAfter, if_pos rfl]
    exact hf.enter (hend (Or.inl rfl))
  · cases hk

theorem Settled.follows (h : Settled old s ls i) : s.Follows ls i := by
  induction h with
  | start hold => exact Terminal.follows_start hold
  | press _ hk _ hend hreach ih => exact ih.pressed hk hend hreach
  | restart _ ih =>
    rw [ih.keeps.history]
    exact Terminal.follows_start ih.keeps.lines

/-- UP again and again from the end of the history. -/
theorem Terminal.Follows.iterate_up (hf : s.Follows ls ls.length) {k : Nat} (hk : k ≤ ls.length)
    (hreach : Reach ls (ls.length - k)) :
    (Terminal.up^[k] s).Follows ls (ls.length - k) ∧
      (0 < k → (Terminal.up^[k] s).text = ls.getD (ls.length - k) []) := by
  induction k with
  | zero => exact ⟨hf, fun h => absurd h (Nat.lt_irrefl 0)⟩
  | succ k ih =>
    have hprev := (ih (Nat.le_of_succ_le hk) (reach_mono hreach (by omega))).1
    have hidx : ls.length - (k + 1) = ls.length - k - 1 := by omega
    rw [hidx] at hreach ⊢
    rw [Function.iterate_succ_apply']
    have hup := hprev.up_pos (by omega) hreach
    exact ⟨hup.1, fun _ => hup.2⟩

/-- DOWN behind UP shows the line the recall is at, or, at the first line, the second. -/
theorem Terminal.Follows.down_up (hf : s.Follows ls i) (hreach : 0 < i → Reach ls (i - 1)) :
    s.up.down.text = if ls = [] then s.text else ls.getD (max i 1) [] := by
  rcases Nat.eq_zero_or_pos i with rfl | hi
  · rw [hf.up_zero]
    by_cases hnil : ls = []
    · subst hnil
      rw [if_pos rfl, hf.down_end]
    · rw [if_neg hnil]
      exact (hf.down_lt (List.length_pos_iff.mpr hnil)).2
  · have hle := hf.le
    have hne : ls ≠ [] := by
      rintro rfl
      rw [List.length_nil] at hle
      omega
    have hup := (hf.up_pos hi (hreach hi)).1
    rw [if_neg hne, (hup.down_lt (by omega)).2, Nat.sub_add_cancel hi, Nat.max_eq_left hi]

/-- In sessions in which every line is ended at the end of the history: with the recall at
the end, UP `k` times shows the line entered `k` lines ago, as far as the ring reaches, and
DOWN behind UP shows what was shown just if that was the line the recall is at. -/
theorem Settled.recalls (h : Settled old s ls i) :
    (s.historyPosition = s.historyLength → ∀ k, 0 < k → k ≤ ls.length →
      Reach ls (ls.length - k) → (Terminal.up^[k] s).text = ls.getD (ls.length - k) []) ∧
    ((0 < i → Reach ls (i - 1)) →
      (s.up.down.text = s.text ↔ ls = [] ∨ s.text = ls.getD (max i 1) [])) := by
  have hf := h.follows
  constructor
  · intro hend k hpos hk hreach
    obtain rfl := hf.end_iff.mp hend
    exact (hf.iterate_up hk hreach).2 hpos
  · intro hreach
    rw [hf.down_up hreach]
    by_cases hnil : ls = []
    · simp [hnil]
    · rw [if_neg hnil, or_iff_right hnil]
      exact eq_comm

/-- Two lines of an earlier session at the first prompt. -/
theorem Settled.recalls_old :
    (Terminal.up^[2] (Terminal.start (content [bytes "a", bytes "b"])).clear).text = bytes "a" :=
  (Settled.recalls (@Settled.start [bytes "a", bytes "b"] (by decide))).1 rfl 2 (by decide)
    (by decide) (by decide)

/-- `a` and `b` are entered, `a` is recalled by UP twice, made `ax` and entered: two times UP
shows `ax`, while `b` is the second line from the end. -/
theorem Settled.recalls_overwritten :
    ∃ s, session [] ([.byte (byte 'a'), .byte newLine, .byte (byte 'b'), .byte newLine,
        .arrowUp, .arrowUp, .byte (byte 'x'), .byte newLine]) =
          some (s, [bytes "a", bytes "b", bytes "ax"]) ∧
      (Terminal.up^[2] s).text = bytes "ax" := by
  refine ⟨_, rfl, ?_⟩
  decide +kernel

end Sessions

end Aer.Shell
