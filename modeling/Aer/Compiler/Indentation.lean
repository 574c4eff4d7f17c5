import Aer.Compiler.Lexer
import Mathlib.Data.List.GetD
import Mathlib.Data.Nat.Find
import Mathlib.Logic.Function.Iterate

set_option linter.all false

/-! Indentation over a whole run of the lexer. A block is opened by one INDENT and
closed by one DEDENT, but where a file ends in a line of spaces: that line closes the
levels deeper than itself, and the others only by clearing the stack. -/
namespace Aer.Compiler.Lexer

open Aer.Data

/-! Runs: the lexer after `n` calls, and the tokens of these calls. -/

def next (l : Lexer) : Lexer := l.lex.lexer

def after (l : Lexer) (n : Nat) : Lexer := next^[n] l

/-- The type the call behind the first `n` calls sets. -/
def typeAt (l : Lexer) (n : Nat) : Option TokenType := (l.after n).lex.type

def indents (l : Lexer) (n : Nat) : Nat := (l.types n).count (some .indent)

def dedents (l : Lexer) (n : Nat) : Nat := (l.types n).count (some .dedent)

@[simp] theorem after_zero (l : Lexer) : l.after 0 = l := rfl

theorem after_succ (l : Lexer) (n : Nat) : l.after (n + 1) = (l.after n).next :=
  Function.iterate_succ_apply' next n l

theorem after_add (l : Lexer) (n m : Nat) : l.after (n + m) = (l.after n).after m := by
  unfold after
  rw [Nat.add_comm, Function.iterate_add_apply]

theorem types_succ (l : Lexer) (n : Nat) : l.types (n + 1) = l.types n ++ [l.typeAt n] := by
  induction n generalizing l with
  | zero => rfl
  | succ n ih =>
    change l.lex.type :: l.lex.lexer.types (n + 1) = _
    rw [ih l.lex.lexer]
    rfl

/-! The levels. -/

/-- The levels of the open blocks are in order above that of the file, which is 0. -/
structure Levels (stack : List Nat) : Prop where
  sorted : stack.Pairwise (· > ·)
  bottom : stack.getLast? = some 0

/-- The indentation of the outermost block, `indent_stack[1]`. -/
def outermost (stack : List Nat) : Nat := stack.reverse.getD 1 0

theorem outermost_cons {top outer : Nat} {rest : List Nat} (h : rest ≠ []) :
    outermost (top :: outer :: rest) = outermost (outer :: rest) := by
  unfold outermost
  rw [List.reverse_cons (a := top), List.getD_append]
  have := List.length_pos_iff.mpr h
  simp only [List.length_reverse, List.length_cons]
  omega

namespace Levels

theorem ne_nil {stack : List Nat} (h : Levels stack) : stack ≠ [] := by
  rintro rfl
  cases h.bottom

theorem length_pos {stack : List Nat} (h : Levels stack) : 0 < stack.length :=
  List.length_pos_iff.mpr h.ne_nil

theorem tail {top outer : Nat} {rest : List Nat} (h : Levels (top :: outer :: rest)) :
    Levels (outer :: rest) :=
  ⟨h.sorted.of_cons, by simpa using h.bottom⟩

theorem outermost_le {top outer : Nat} {rest : List Nat} (h : Levels (top :: outer :: rest)) :
    outermost (top :: outer :: rest) ≤ top := by
  have hmem : outermost (top :: outer :: rest) ∈ (top :: outer :: rest).reverse := by
    unfold outermost
    rw [List.getD_eq_getElem _ _ (by simp)]
    exact List.getElem_mem _
  rw [List.mem_reverse, List.mem_cons] at hmem
  rcases hmem with heq | hmem
  · exact le_of_eq heq
  · exact le_of_lt (List.rel_of_pairwise_cons h.sorted hmem)

theorem file : Levels [0] := ⟨List.pairwise_singleton _ _, rfl⟩

/-- The level at the top of a stack of one is that of the file. -/
theorem top_eq_zero {top : Nat} (h : Levels [top]) : top = 0 := by
  simpa using h.bottom

end Levels

theorem Levels.push {spaces : Nat} {stack : List Nat} (h : Levels stack)
    (hdeeper : stack.headD 0 < spaces) : Levels (spaces :: stack) := by
  rcases stack with _ | ⟨top, rest⟩
  · exact absurd rfl h.ne_nil
  · refine ⟨List.pairwise_cons.mpr ⟨fun a ha => ?_, h.sorted⟩, by simpa using h.bottom⟩
    rcases List.mem_cons.mp ha with rfl | ha
    · exact hdeeper
    · exact (List.rel_of_pairwise_cons h.sorted ha).trans hdeeper

theorem closeLevels_levels (spaces : Nat) {stack : List Nat} (h : Levels stack) :
    Levels (closeLevels spaces stack) := by
  induction stack using closeLevels.induct spaces with
  | case1 top outer rest hlt ih =>
    rw [closeLevels, if_pos hlt]
    exact ih h.tail
  | case2 top outer rest hle =>
    rw [closeLevels, if_neg hle]
    exact h
  | case3 stack hnot =>
    rw [closeLevels]
    · exact h
    · exact hnot

theorem closeLevels_length_le (spaces : Nat) (stack : List Nat) :
    (closeLevels spaces stack).length ≤ stack.length := by
  induction stack using closeLevels.induct spaces with
  | case1 top outer rest hlt ih =>
    rw [closeLevels, if_pos hlt]
    exact ih.trans (Nat.le_succ _)
  | case2 top outer rest hle => rw [closeLevels, if_neg hle]
  | case3 stack hnot =>
    rw [closeLevels]
    exact hnot

theorem closeLevels_length_lt {spaces top outer : Nat} {rest : List Nat} (h : spaces < top) :
    (closeLevels spaces (top :: outer :: rest)).length < (top :: outer :: rest).length := by
  rw [closeLevels, if_pos h]
  exact Nat.lt_succ_of_le (closeLevels_length_le spaces _)

/-- A block stays open at an indentation that the outermost block does not exceed. -/
theorem one_lt_length_closeLevels {spaces : Nat} {stack : List Nat} (h : Levels stack)
    (hopen : 1 < stack.length) :
    1 < (closeLevels spaces stack).length ↔ outermost stack ≤ spaces := by
  induction stack using closeLevels.induct spaces with
  | case1 top outer rest hlt ih =>
    rw [closeLevels, if_pos hlt]
    cases rest with
    | nil =>
      have : outermost [top, outer] = top := rfl
      simp only [closeLevels, List.length_singleton, lt_irrefl, false_iff, not_le, this, hlt]
    | cons outer' rest =>
      rw [ih h.tail (by simp), outermost_cons (List.cons_ne_nil _ _)]
  | case2 top outer rest hle =>
    rw [closeLevels, if_neg hle]
    have := h.outermost_le
    exact ⟨fun _ => by omega, fun _ => hopen⟩
  | case3 stack hnot =>
    rcases stack with _ | ⟨top, _ | ⟨outer, rest⟩⟩
    · exact absurd rfl h.ne_nil
    · simp at hopen
    · exact (hnot _ _ _ rfl).elim

/-! What one call does to the levels. -/

/-- The blocks open at a lexer, those whose DEDENTs are still owed counted in. -/
def openBlocks (l : Lexer) : Nat := l.indentStack.length - 1 + l.pendingDedents.toNat

/-- The first line at the cursor that is not blank. -/
def lineBegin (l : Lexer) : Bytes := skipLines (l.buffer.length + 1) l.buffer

/-- The file ends in a line of spaces at which the outermost of two or more open blocks
would stay open. -/
def Dangling (l : Lexer) : Prop :=
  l.pendingDedents ≤ 0 ∧ l.atLineStart = Bool.true ∧ 2 < l.indentStack.length ∧
    l.lineBegin.all isSpaceChar ∧ outermost l.indentStack ≤ l.lineBegin.length

instance (l : Lexer) : Decidable (Dangling l) := inferInstanceAs (Decidable (_ ∧ _))

/-- A call that takes a token of a line, and leaves the levels alone. -/
structure TakesToken (l : Lexer) (r : Lexed) : Prop where
  stack : r.lexer.indentStack = l.indentStack
  pending : r.lexer.pendingDedents = l.pendingDedents
  not_indent : r.type ≠ some .indent
  not_dedent : r.type ≠ some .dedent
  /-- The file ends when its blocks are closed. -/
  closed : r.type = some .endOfFile → l.indentStack.length ≤ 1

/-- The levels behind a call that reports no error, but at a dangling line. -/
inductive LevelStep (l : Lexer) (r : Lexed) : Prop
  | token (h : TakesToken l r) (hpending : l.pendingDedents ≤ 0)
  | indent (htype : r.type = some .indent) (hblocks : r.lexer.openBlocks = l.openBlocks + 1)
      (hlevels : Levels r.lexer.indentStack)
  | dedent (htype : r.type = some .dedent) (hblocks : r.lexer.openBlocks + 1 = l.openBlocks)
      (hlevels : Levels r.lexer.indentStack)

section Token
variable (l : Lexer)

theorem takesToken_emit {type : TokenType} (length : Nat) (hindent : type ≠ .indent)
    (hdedent : type ≠ .dedent) (hend : type ≠ .endOfFile) : TakesToken l (l.emit type length) :=
  ⟨rfl, rfl, by simpa [emit], by simpa [emit], fun h => absurd (Option.some.inj h) hend⟩

theorem takesToken_emitValue {type : TokenType} (v : Literal) (length : Nat)
    (reports : List Report) (hindent : type ≠ .indent) (hdedent : type ≠ .dedent)
    (hend : type ≠ .endOfFile) : TakesToken l (l.emitValue type v length reports) :=
  ⟨rfl, rfl, by simpa [emitValue], by simpa [emitValue], fun h => absurd (Option.some.inj h) hend⟩

theorem takesToken_lexHex : TakesToken l l.lexHex := by
  unfold lexHex
  split
  · exact takesToken_emitValue l _ _ _ (by decide) (by decide) (by decide)
  · exact ⟨rfl, rfl, by simp [emit], by simp [emit], by simp [emit]⟩

theorem takesToken_lexNumber : TakesToken l l.lexNumber := by
  unfold lexNumber
  dsimp only
  split
  · exact takesToken_lexHex l
  · split
    · exact takesToken_emitValue l _ _ _ (by decide) (by decide) (by decide)
    · exact takesToken_emitValue l _ _ _ (by decide) (by decide) (by decide)

theorem keywords_types : ∀ k ∈ keywords, k.2 ≠ .indent ∧ k.2 ≠ .dedent ∧ k.2 ≠ .endOfFile := by decide

theorem operators_types : ∀ o ∈ operators, o.2 ≠ .indent ∧ o.2 ≠ .dedent ∧ o.2 ≠ .endOfFile := by decide

theorem takesToken_lexIdentifier : TakesToken l l.lexIdentifier := by
  unfold lexIdentifier
  dsimp only
  split_ifs
  · exact takesToken_emitValue l _ _ _ (by decide) (by decide) (by decide)
  · exact takesToken_emitValue l _ _ _ (by decide) (by decide) (by decide)
  · split
    · next _ type hfind =>
      obtain ⟨hindent, hdedent, hend⟩ := keywords_types _ (List.mem_of_find?_eq_some hfind)
      exact takesToken_emit l _ hindent hdedent hend
    · exact takesToken_emitValue l _ _ _ (by decide) (by decide) (by decide)

theorem takesToken_lexString : TakesToken l l.lexString := by
  unfold lexString
  dsimp only
  split_ifs
  · exact ⟨rfl, rfl, by simp, by simp, by simp⟩
  · exact ⟨rfl, rfl, by simp, by simp, by simp⟩

theorem takesToken_lexMultilineString : TakesToken l l.lexMultilineString := by
  unfold lexMultilineString
  dsimp only
  split_ifs
  · exact ⟨rfl, rfl, by simp, by simp, by simp⟩
  · exact ⟨rfl, rfl, by simp, by simp, by simp⟩

end Token

theorem levelStep_lexEnd {l : Lexer} (hpending : l.pendingDedents ≤ 0) : LevelStep l l.lexEnd := by
  unfold lexEnd
  split
  · next top outer rest hstack =>
    refine .dedent rfl ?_ .file
    simp only [openBlocks, hstack, List.length_cons, List.length_nil]
    omega
  · next hclosed =>
    refine .token ⟨rfl, rfl, by simp [emit], by simp [emit], fun _ => ?_⟩ hpending
    rcases hs : l.indentStack with _ | ⟨top, _ | ⟨outer, rest⟩⟩
    · simp
    · simp
    · exact absurd hs (hclosed _ _ _)

theorem levelStep_lexToken {l : Lexer} (hpending : l.pendingDedents ≤ 0) :
    LevelStep l l.lexToken := by
  unfold lexToken
  split
  · exact levelStep_lexEnd hpending
  · refine .token ?_ hpending
    split
    · exact takesToken_lexNumber l
    · split
      · exact takesToken_lexIdentifier l
      · split
        · split
          · exact takesToken_lexMultilineString l
          · exact takesToken_lexString l
        · split
          · exact ⟨rfl, rfl, by simp [emit], by simp [emit], by simp [emit]⟩
          · split
            · next text type hfind =>
              obtain ⟨hindent, hdedent, hend⟩ := operators_types _ (List.mem_of_find?_eq_some hfind)
              exact ⟨rfl, rfl, by simpa [emit], by simpa [emit],
                fun h => absurd (Option.some.inj h) hend⟩
            · exact ⟨rfl, rfl, by simp [emit], by simp [emit], by simp [emit]⟩

/-- A step depends on the levels it starts from only. -/
theorem LevelStep.congr {l m : Lexer} {r : Lexed} (h : LevelStep m r)
    (hstack : m.indentStack = l.indentStack) (hpending : m.pendingDedents = l.pendingDedents) :
    LevelStep l r := by
  have hblocks : m.openBlocks = l.openBlocks := by rw [openBlocks, openBlocks, hstack, hpending]
  cases h with
  | token h hp =>
    exact .token ⟨h.stack.trans hstack, h.pending.trans hpending, h.not_indent, h.not_dedent,
      hstack ▸ h.closed⟩ (hpending ▸ hp)
  | indent htype h hlevels => exact .indent htype (hblocks ▸ h) hlevels
  | dedent htype h hlevels => exact .dedent htype (hblocks ▸ h) hlevels

/-- What closing levels does at a line of its own, where the file goes on. -/
theorem levelStep_dedentTo {l m : Lexer} {spaces : Nat} (hlevels : Levels l.indentStack)
    (hstack : m.indentStack = l.indentStack) (hpending : l.pendingDedents ≤ 0)
    (hdeeper : spaces < l.indentStack.headD 0) (hbuffer : m.buffer ≠ [])
    (hreports : (m.dedentTo spaces).reports = []) : LevelStep l (m.dedentTo spaces) := by
  have hatEnd : m.buffer.isEmpty = Bool.false := by simpa using hbuffer
  unfold dedentTo at hreports ⊢
  simp only [hatEnd, hstack, Bool.not_false, true_and] at hreports ⊢
  split
  · next h =>
    rw [if_pos h] at hreports
    cases hreports
  · refine .dedent rfl ?_ (closeLevels_levels _ hlevels)
    have hpos := (closeLevels_levels spaces hlevels).length_pos
    have hclosed : (closeLevels spaces l.indentStack).length < l.indentStack.length := by
      rcases hs : l.indentStack with _ | ⟨top, _ | ⟨outer, rest⟩⟩
      · exact absurd hs hlevels.ne_nil
      · rw [hs] at hlevels hdeeper
        rw [hlevels.top_eq_zero] at hdeeper
        cases hdeeper
      · rw [hs] at hdeeper
        exact closeLevels_length_lt hdeeper
    simp only [openBlocks, Bool.false_eq_true, if_false]
    omega

/-- At the end of the file every level is cleared, but only those deeper than the last
line have their DEDENT. -/
theorem dedentTo_end {m : Lexer} (spaces : Nat) (hbuffer : m.buffer = []) :
    m.dedentTo spaces =
      { lexer :=
          { m with
            indentStack := [0]
            pendingDedents :=
              (m.indentStack.length : Int) - (closeLevels spaces m.indentStack).length - 1 }
        type := some .dedent } := by
  have hatEnd : m.buffer.isEmpty = Bool.true := by simp [hbuffer]
  unfold dedentTo
  simp only [hatEnd, Bool.not_true, Bool.false_eq_true, false_and, if_false, if_true]

theorem levelStep_dedentTo_end {l m : Lexer} (hlevels : Levels l.indentStack)
    (hstack : m.indentStack = l.indentStack) (hpending : l.pendingDedents ≤ 0)
    (hline : l.atLineStart = Bool.true) (hspaces : l.lineBegin.all isSpaceChar)
    (hopen : 1 < l.indentStack.length) (hbuffer : m.buffer = []) (hdangling : ¬ Dangling l) :
    LevelStep l (m.dedentTo l.lineBegin.length) := by
  have hpos := (closeLevels_levels l.lineBegin.length hlevels).length_pos
  have hle := closeLevels_length_le l.lineBegin.length l.indentStack
  rw [dedentTo_end _ hbuffer, hstack]
  refine .dedent rfl ?_ .file
  simp only [openBlocks, List.length_singleton]
  by_cases hdeep : 2 < l.indentStack.length
  · have hclosed : ¬ 1 < (closeLevels l.lineBegin.length l.indentStack).length := fun h =>
      hdangling ⟨hpending, hline, hdeep, hspaces, (one_lt_length_closeLevels hlevels hopen).mp h⟩
    omega
  · omega

/-- The lexer behind the blank lines, at the first line that is not blank. -/
def atLine (l : Lexer) : Lexer :=
  ({ l with atLineStart := Bool.false } : Lexer).setBuffer l.lineBegin

/-- The spaces of the line are the whole of it exactly when nothing is behind them. -/
theorem behind_spaces (b : Bytes) :
    b.drop (b.takeWhile isSpaceChar).length = b.dropWhile isSpaceChar := by
  have h := @List.drop_left _ (b.takeWhile isSpaceChar) (b.dropWhile isSpaceChar)
  rwa [List.takeWhile_append_dropWhile] at h

theorem levelStep_lexIndent {l : Lexer} (hlevels : Levels l.indentStack)
    (hpending : l.pendingDedents ≤ 0) (hline : l.atLineStart = Bool.true)
    (hreports : l.atLine.lexIndent.reports = []) (hdangling : ¬ Dangling l) :
    LevelStep l l.atLine.lexIndent := by
  let behind := l.atLine.advance (l.lineBegin.takeWhile isSpaceChar).length
  have hbehind : behind.buffer = l.lineBegin.dropWhile isSpaceChar := behind_spaces l.lineBegin
  unfold lexIndent at hreports ⊢
  change Lexed.reports (ite _ _ _) = [] at hreports
  change LevelStep l (ite _ _ _)
  split at hreports
  · cases hreports
  · next htab =>
    rw [if_neg htab]
    split at hreports
    · next hindent =>
      rw [if_pos hindent]
      split at hreports
      · cases hreports
      · next hroom =>
        rw [if_neg hroom]
        refine .indent rfl ?_ (hlevels.push hindent.2)
        have := hlevels.length_pos
        change (l.atLine.indentStack.length + 1) - 1 + l.pendingDedents.toNat =
          l.indentStack.length - 1 + l.pendingDedents.toNat + 1
        change (l.indentStack.length + 1) - 1 + _ = _
        omega
    · next hindent =>
      rw [if_neg hindent]
      split at hreports
      · next hdedent =>
        rw [if_pos hdedent]
        by_cases hend : behind.buffer = []
        · have hall : ∀ c ∈ l.lineBegin, isSpaceChar c = Bool.true :=
            List.dropWhile_eq_nil_iff.mp (hbehind ▸ hend)
          have hspaces : l.lineBegin.takeWhile isSpaceChar = l.lineBegin :=
            List.takeWhile_eq_self_iff.mpr hall
          have hopen : 1 < l.indentStack.length := by
            rcases hdedent with hdeeper | ⟨_, hopen⟩
            · rcases hs : l.indentStack with _ | ⟨top, _ | ⟨outer, rest⟩⟩
              · exact absurd hs hlevels.ne_nil
              · change _ < l.indentStack.headD 0 at hdeeper
                rw [hs] at hlevels hdeeper
                rw [hlevels.top_eq_zero] at hdeeper
                cases hdeeper
              · simp
            · exact hopen
          have h := levelStep_dedentTo_end (m := behind) hlevels rfl hpending hline
            (List.all_eq_true.mpr hall) hopen hend hdangling
          rw [← hspaces] at h
          exact h
        · refine levelStep_dedentTo (m := behind) hlevels rfl hpending ?_ hend hreports
          rcases hdedent with hdeeper | ⟨hempty, _⟩
          · exact hdeeper
          · exact absurd (List.isEmpty_iff.mp hempty) hend
      · next hdedent =>
        rw [if_neg hdedent]
        exact LevelStep.congr (m := behind.skipWhitespaceAndComments) (levelStep_lexToken hpending) rfl rfl

theorem levelStep_lex {l : Lexer} (hlevels : Levels l.indentStack) (hreports : l.lex.reports = [])
    (hdangling : ¬ Dangling l) : LevelStep l l.lex := by
  unfold lex at hreports ⊢
  split
  · next hpending =>
    refine .dedent rfl ?_ hlevels
    simp only [openBlocks]
    omega
  · next hpending =>
    rw [if_neg hpending] at hreports
    split
    · next hline =>
      rw [if_pos hline] at hreports
      exact levelStep_lexIndent hlevels (Int.not_lt.mp hpending) hline hreports hdangling
    · next hline =>
      exact (levelStep_lexToken (l := l.skipWhitespaceAndComments) (Int.not_lt.mp hpending)).congr
        rfl rfl

/-- The lexer behind its line. -/
def behindLine (l : Lexer) : Lexer := l.atLine.advance l.lineBegin.length

theorem behindLine_buffer (l : Lexer) : l.behindLine.buffer = [] := List.drop_length

/-- The call at a dangling line. -/
theorem lex_of_dangling {l : Lexer} (h : Dangling l) :
    l.lex = l.behindLine.dedentTo l.lineBegin.length := by
  obtain ⟨hpending, hline, hdeep, hall, -⟩ := h
  have hspaces : l.lineBegin.takeWhile isSpaceChar = l.lineBegin :=
    List.takeWhile_eq_self_iff.mpr (List.all_eq_true.mp hall)
  have hbuffer : (l.atLine.advance l.lineBegin.length).buffer = [] := l.behindLine_buffer
  have hchar : (l.atLine.advance l.lineBegin.length).char 0 = 0 := by
    rw [char, hbuffer]
    rfl
  have hbegin : l.atLine.buffer = l.lineBegin := rfl
  have hopen : 1 < l.atLine.indentStack.length := Nat.lt_of_succ_lt hdeep
  rw [lex, if_neg (by omega), if_pos hline]
  change l.atLine.lexIndent = _
  unfold lexIndent
  simp only [hbegin, hspaces, hchar, hbuffer, List.isEmpty_nil, Bool.not_true, Bool.false_eq_true,
    false_and, if_false, hopen, and_true, or_true, if_true]
  rw [if_neg (by decide)]
  rfl

/-- A dangling line leaves blocks without a DEDENT. -/
theorem openBlocks_of_dangling {l : Lexer} (h : Dangling l) (hlevels : Levels l.indentStack) :
    l.next.openBlocks + 1 < l.openBlocks := by
  have hstays := (one_lt_length_closeLevels hlevels (Nat.lt_of_succ_lt h.2.2.1)).mpr h.2.2.2.2
  have hdeep := h.2.2.1
  rw [next, lex_of_dangling h, dedentTo_end _ l.behindLine_buffer]
  change 0 + ((l.indentStack.length : Int) - (closeLevels _ l.indentStack).length - 1).toNat + 1 <
    l.indentStack.length - 1 + l.pendingDedents.toNat
  omega

/-! Whole runs. -/

theorem types_add (l : Lexer) (n m : Nat) :
    l.types (n + m) = l.types n ++ (l.after n).types m := by
  induction m with
  | zero => exact (List.append_nil _).symm
  | succ m ih =>
    rw [← Nat.add_assoc, types_succ, types_succ, ih, List.append_assoc, typeAt, typeAt, after_add]

theorem indents_add (l : Lexer) (n m : Nat) :
    l.indents (n + m) = l.indents n + (l.after n).indents m := by
  unfold indents
  rw [types_add, List.count_append]

theorem dedents_add (l : Lexer) (n m : Nat) :
    l.dedents (n + m) = l.dedents n + (l.after n).dedents m := by
  unfold dedents
  rw [types_add, List.count_append]

theorem indents_one (l : Lexer) : l.indents 1 = if l.lex.type = some .indent then 1 else 0 := by
  simp [indents, types, List.count_singleton]

theorem dedents_one (l : Lexer) : l.dedents 1 = if l.lex.type = some .dedent then 1 else 0 := by
  simp [dedents, types, List.count_singleton]

/-- Over a step, INDENTs and DEDENTs count the blocks. -/
theorem LevelStep.counts {l : Lexer} (h : LevelStep l l.lex) (hlevels : Levels l.indentStack) :
    Levels l.next.indentStack ∧ l.indents 1 + l.openBlocks = l.dedents 1 + l.next.openBlocks := by
  rw [indents_one, dedents_one]
  cases h with
  | token h _ =>
    refine ⟨h.stack ▸ hlevels, ?_⟩
    rw [if_neg h.not_indent, if_neg h.not_dedent, openBlocks, openBlocks, next, h.stack, h.pending]
  | indent htype hblocks hlevels =>
    refine ⟨hlevels, ?_⟩
    simp only [htype, next, hblocks, if_true, reduceCtorEq, Option.some.injEq, if_false]
    omega
  | dedent htype hblocks hlevels =>
    refine ⟨hlevels, ?_⟩
    simp only [htype, next, ← hblocks, if_true, reduceCtorEq, Option.some.injEq, if_false]
    omega

/-- The INDENTs of a run are the DEDENTs and the blocks still open. -/
theorem run_counts {l : Lexer} (hlevels : Levels l.indentStack) (hclosed : l.openBlocks = 0)
    (hreports : ∀ n, (l.after n).lex.reports = []) {n : Nat}
    (hdangling : ∀ k < n, ¬ Dangling (l.after k)) :
    Levels (l.after n).indentStack ∧ l.indents n = l.dedents n + (l.after n).openBlocks := by
  induction n with
  | zero => exact ⟨hlevels, by simp [indents, dedents, types, hclosed]⟩
  | succ n ih =>
    obtain ⟨hn, hcount⟩ := ih fun k hk => hdangling k (by omega)
    obtain ⟨hnext, hstep⟩ :=
      (levelStep_lex hn (hreports n) (hdangling n (Nat.lt_succ_self n))).counts hn
    rw [after_succ, indents_add, dedents_add]
    exact ⟨hnext, by omega⟩

/-- The end of the file, with the stack cleared. -/
structure AtEnd (l : Lexer) : Prop where
  stack : l.indentStack = [0]
  buffer : l.buffer = []
  line : l.atLineStart = Bool.false

theorem AtEnd.lex_eq {l : Lexer} (h : AtEnd l) (hpending : l.pendingDedents ≤ 0) :
    l.lex = { lexer := l, type := some .endOfFile } := by
  obtain ⟨⟨name, start, buffer⟩, stack, pending, line, depth⟩ := l
  obtain ⟨rfl, rfl, rfl⟩ : stack = [0] ∧ buffer = [] ∧ line = Bool.false :=
    ⟨h.stack, h.buffer, h.line⟩
  rw [lex, if_neg (Int.not_lt.mpr hpending), if_neg Bool.false_ne_true]
  rfl

/-- The DEDENTs still owed come, then the end. -/
theorem AtEnd.flush {l : Lexer} (h : AtEnd l) :
    ∃ k, l.typeAt k = some .endOfFile ∧ l.indents k = 0 ∧ l.dedents k = l.pendingDedents.toNat := by
  induction howed : l.pendingDedents.toNat generalizing l with
  | zero =>
    refine ⟨0, ?_, rfl, rfl⟩
    change l.lex.type = _
    rw [h.lex_eq (by omega)]
  | succ owed ih =>
    have hlex : l.lex =
        { lexer := { l with pendingDedents := l.pendingDedents - 1 }, type := some .dedent } := by
      rw [lex, if_pos (by omega)]
    have hnext : AtEnd l.next := by
      rw [next, hlex]
      exact ⟨h.stack, h.buffer, h.line⟩
    obtain ⟨k, htype, hindents, hdedents⟩ := ih hnext (by
      rw [next, hlex]
      change (l.pendingDedents - 1).toNat = owed
      omega)
    refine ⟨1 + k, ?_, ?_, ?_⟩
    · rw [typeAt, after_add]
      exact htype
    · rw [indents_add, indents_one, hlex]
      have hk : (l.after 1).indents k = 0 := hindents
      simpa using hk
    · rw [dedents_add, dedents_one, hlex]
      simp only [if_true]
      have hk : (l.after 1).dedents k = owed := hdedents
      omega

/-- INDENT and DEDENT tokens balance over the tokens of a text. -/
structure Balances (l : Lexer) : Prop where
  /-- No prefix has more DEDENTs than INDENTs. -/
  prefixes : ∀ n, l.dedents n ≤ l.indents n
  /-- Up to the end of the file they are equally many. -/
  total : ∀ n, l.typeAt n = some .endOfFile → l.indents n = l.dedents n
  /-- At a token of a line they differ by the blocks around the line. -/
  blocks : ∀ n, l.typeAt n ≠ some .indent → l.typeAt n ≠ some .dedent →
    l.indents n = l.dedents n + ((l.after n).indentStack.length - 1)

/-- Where every step counts its blocks, the tokens balance. -/
theorem balances_of_counts {l : Lexer} (hreports : ∀ n, (l.after n).lex.reports = [])
    (hdangling : ∀ n, ¬ Dangling (l.after n))
    (hcounts : ∀ n, Levels (l.after n).indentStack ∧
      l.indents n = l.dedents n + (l.after n).openBlocks) : Balances l := by
  have hblocks : ∀ n, l.typeAt n ≠ some .indent → l.typeAt n ≠ some .dedent →
      TakesToken (l.after n) (l.after n).lex ∧
        l.indents n = l.dedents n + ((l.after n).indentStack.length - 1) := by
    intro n hindent hdedent
    obtain ⟨hlevels, hcount⟩ := hcounts n
    cases levelStep_lex hlevels (hreports n) (hdangling n) with
    | token h hpending =>
      refine ⟨h, ?_⟩
      rw [hcount, openBlocks]
      omega
    | indent htype => exact absurd htype hindent
    | dedent htype => exact absurd htype hdedent
  refine ⟨fun n => ?_, fun n htype => ?_, fun n hindent hdedent => (hblocks n hindent hdedent).2⟩
  · obtain ⟨-, hcount⟩ := hcounts n
    omega
  · obtain ⟨htoken, hcount⟩ := hblocks n (by simp [htype]) (by simp [htype])
    have hclosed := htoken.closed htype
    omega

theorem not_balances_of_dangling {l : Lexer} {n : Nat} (hlevels : Levels (l.after n).indentStack)
    (hcount : l.indents n = l.dedents n + (l.after n).openBlocks) (hdangling : Dangling (l.after n)) :
    ¬ Balances l := by
  intro h
  have hlex : (l.after n).lex = _ :=
    (lex_of_dangling hdangling).trans (dedentTo_end _ (l.after n).behindLine_buffer)
  have hnext : l.after (n + 1) = (l.after n).lex.lexer := after_succ l n
  have hblocks := openBlocks_of_dangling hdangling hlevels
  rw [next, ← hnext] at hblocks
  have hatEnd : AtEnd (l.after (n + 1)) := by
    rw [hnext, hlex]
    exact ⟨rfl, (l.after n).behindLine_buffer, rfl⟩
  obtain ⟨k, htype, hindents, hdedents⟩ := hatEnd.flush
  have hend := h.total (n + 1 + k) (by rw [typeAt, after_add]; exact htype)
  rw [indents_add, dedents_add, hindents, hdedents, indents_add, dedents_add, indents_one,
    dedents_one, hlex] at hend
  have howed : (l.after (n + 1)).pendingDedents.toNat ≤ (l.after (n + 1)).openBlocks :=
    Nat.le_add_left _ _
  simp only [reduceCtorEq, Option.some.injEq, if_false, if_true] at hend
  omega

/-- The tokens of a text without lexical errors balance if and only if the file does not
end in a line of spaces at which the outermost of two or more blocks would stay open. -/
theorem balances_iff (f : File) (hreports : ∀ n, ((start f).after n).lex.reports = []) :
    Balances (start f) ↔ ∀ n, ¬ Dangling ((start f).after n) := by
  have hcounts {n : Nat} (h : ∀ k < n, ¬ Dangling ((start f).after k)) :=
    run_counts (l := start f) .file rfl hreports h
  constructor
  · intro h
    by_contra hall
    have hdangling := not_forall_not.mp hall
    have hfirst := fun k (hk : k < Nat.find hdangling) => Nat.find_min hdangling hk
    obtain ⟨hlevels, hcount⟩ := hcounts hfirst
    exact not_balances_of_dangling hlevels hcount (Nat.find_spec hdangling) h
  · intro h
    exact balances_of_counts hreports h fun n => hcounts fun k _ => h k

instance (l : Lexer) : Decidable (AtEnd l) :=
  decidable_of_iff (l.indentStack = [0] ∧ l.buffer = [] ∧ l.atLineStart = Bool.false)
    ⟨fun ⟨hs, hb, hl⟩ => ⟨hs, hb, hl⟩, fun h => ⟨h.stack, h.buffer, h.line⟩⟩

theorem after_of_end {l : Lexer} {k : Nat} (h : AtEnd (l.after k))
    (hpending : (l.after k).pendingDedents ≤ 0) {n : Nat} (hn : k ≤ n) : l.after n = l.after k := by
  induction n, hn using Nat.le_induction with
  | base => rfl
  | succ n _ ih => rw [after_succ, ih, next, h.lex_eq hpending]

/-- Reports are looked for up to the end of the file. -/
theorem silent_of_end {l : Lexer} {k : Nat}
    (h : AtEnd (l.after k) ∧ (l.after k).pendingDedents ≤ 0 ∧
      (List.range k).all fun n => (l.after n).lex.reports.isEmpty) (n : Nat) :
    (l.after n).lex.reports = [] := by
  obtain ⟨hend, hpending, hsilent⟩ := h
  rcases lt_or_ge n k with hn | hn
  · exact List.isEmpty_iff.mp (List.all_eq_true.mp hsilent n (List.mem_range.mpr hn))
  · rw [after_of_end hend hpending hn, hend.lex_eq hpending]

/-- A text that ends in a line of as many spaces. -/
def nestedText (spaces : Nat) : File :=
  .open [] (bytes "if a:\n  if b:\n    c\n" ++ List.replicate spaces (byte ' '))

theorem balances_iff_nested :
    Balances (start (nestedText 0)) ↔ ∀ n, ¬ Dangling ((start (nestedText 0)).after n) :=
  balances_iff (nestedText 0) (silent_of_end (k := 14) (by decide +kernel))

/-- The second block is closed by the last line, the first without a DEDENT. -/
theorem unbalanced_nested :
    (∀ n, ((start (nestedText 2)).after n).lex.reports = []) ∧ ¬ Balances (start (nestedText 2)) := by
  refine ⟨silent_of_end (k := 13) (by decide +kernel), fun h => ?_⟩
  have htotal := h.total 13 (by decide +kernel)
  revert htotal
  decide +kernel

end Aer.Compiler.Lexer
