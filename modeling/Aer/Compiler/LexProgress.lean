import Aer.Compiler.LexReads

set_option linter.all false

/-! Lexing comes to an end. A call that leaves the cursor where it is closes a level,
pays a DEDENT that is owed or leaves the start of a line. -/
namespace Aer.Compiler.Lexer

open Aer.Data Aer.Compiler.Reads

/-- What falls where the cursor does not move. -/
def weight (l : Lexer) : Nat :=
  l.indentStack.length + l.pendingDedents.toNat + if l.atLineStart then 1 else 0

/-- The cursor moves on. -/
structure Moves (l : Lexer) (r : Lexed) : Prop where
  suffix : r.lexer.buffer <:+ l.buffer
  shorter : r.lexer.buffer.length < l.buffer.length

/-- A call moves the cursor on, or leaves it and lowers the weight, or finds the end of
the file. -/
structure Advances (l : Lexer) (r : Lexed) : Prop where
  suffix : r.lexer.buffer <:+ l.buffer
  progress : r.type = some .endOfFile ∨ r.lexer.buffer.length < l.buffer.length ∨
    r.lexer.buffer = l.buffer ∧ r.lexer.weight < l.weight

theorem Moves.advances {l : Lexer} {r : Lexed} (h : Moves l r) : Advances l r :=
  ⟨h.suffix, .inr (.inl h.shorter)⟩

/-- What is skipped in front of a call is progress of the call. -/
theorem Advances.of_suffix {l m : Lexer} {r : Lexed} (h : Advances m r)
    (hsuffix : m.buffer <:+ l.buffer) (hweight : m.weight ≤ l.weight) : Advances l r := by
  refine ⟨h.suffix.trans hsuffix, ?_⟩
  rcases h.progress with hend | hshorter | ⟨hsame, hlower⟩
  · exact .inl hend
  · exact .inr (.inl (hshorter.trans_le hsuffix.length_le))
  · rcases hsuffix.length_le.lt_or_eq with hlt | heq
    · exact .inr (.inl (hsame ▸ hlt))
    · exact .inr (.inr ⟨hsame.trans (hsuffix.eq_of_length heq), hlower.trans_le hweight⟩)

/-- The cursor stays behind what was skipped, and the weight is lower. -/
theorem Advances.of_weight {l : Lexer} {r : Lexed} (hsuffix : r.lexer.buffer <:+ l.buffer)
    (hweight : r.lexer.weight < l.weight) : Advances l r := by
  refine ⟨hsuffix, .inr ?_⟩
  rcases hsuffix.length_le.lt_or_eq with hlt | heq
  · exact .inl hlt
  · exact .inr ⟨hsuffix.eq_of_length heq, hweight⟩

section Token
variable {l : Lexer} {c : UInt8} {rest : Bytes} (hbuffer : l.buffer = c :: rest)
include hbuffer

theorem moves_advance {n : Nat} (h : 0 < n) {r : Lexed} (hr : r.lexer.buffer = l.buffer.drop n) :
    Moves l r := by
  refine ⟨hr ▸ List.drop_suffix n _, ?_⟩
  rw [hr, List.length_drop, hbuffer, List.length_cons]
  omega

/-- A word begins with a byte of its kind. -/
theorem takeWhile_pos {test : UInt8 → Bool} (h : test c = Bool.true) :
    0 < (l.buffer.takeWhile test).length := by
  rw [hbuffer, List.takeWhile_cons_of_pos h]
  exact Nat.succ_pos _

theorem moves_lexHex : Moves l l.lexHex := by
  unfold lexHex
  split
  · exact moves_advance hbuffer (Nat.lt_of_lt_of_le Nat.two_pos (Nat.le_add_right _ _)) rfl
  · exact moves_advance hbuffer Nat.two_pos rfl

theorem realLength_pos (h : isDigit c = Bool.true) : 0 < realLength l.buffer := by
  have hwhole : (Double.splitPoint isDigit l.buffer).1 = l.buffer.takeWhile isDigit := by
    unfold Double.splitPoint
    split
    · split <;> rfl
    · rfl
  have := takeWhile_pos hbuffer h
  unfold realLength
  revert hwhole
  rcases Double.splitPoint isDigit l.buffer with ⟨whole, part, expo⟩
  rintro rfl
  dsimp only
  omega

theorem moves_lexNumber (h : isDigit c = Bool.true) : Moves l l.lexNumber := by
  unfold lexNumber
  dsimp only
  split
  · exact moves_lexHex hbuffer
  · split
    · exact moves_advance hbuffer (takeWhile_pos hbuffer h) rfl
    · exact moves_advance hbuffer (realLength_pos hbuffer h) rfl

theorem moves_lexIdentifier (h : isWordStart c = Bool.true) : Moves l l.lexIdentifier := by
  have hword : isWord c = Bool.true := by simp [isWord, h]
  have hpos := takeWhile_pos hbuffer hword
  unfold lexIdentifier
  dsimp only
  split
  · exact moves_advance hbuffer (by decide) rfl
  · split
    · exact moves_advance hbuffer (by decide) rfl
    · split
      · exact moves_advance hbuffer hpos rfl
      · exact moves_advance hbuffer hpos rfl

/-- The text of a string is passed over between its quotes. -/
theorem moves_string {mark n k : Nat} (h : 0 < mark) {r : Lexed}
    (hr : r.lexer.buffer = ((l.buffer.drop mark).drop n).drop k) : Moves l r := by
  rw [List.drop_drop, List.drop_drop] at hr
  exact moves_advance hbuffer (by omega) hr

theorem moves_lexString : Moves l l.lexString := by
  unfold lexString
  dsimp only
  split
  · exact moves_string hbuffer Nat.one_pos (k := 1) rfl
  · exact moves_string hbuffer Nat.one_pos (k := 0) rfl

theorem moves_lexMultilineString : Moves l l.lexMultilineString := by
  unfold lexMultilineString
  dsimp only
  split
  · exact moves_string hbuffer (Nat.succ_pos 2) (k := 3) rfl
  · exact moves_string hbuffer (Nat.succ_pos 2) (k := 0) rfl

omit hbuffer in
theorem operators_nonempty : ∀ o ∈ operators, 0 < o.1.length := by decide

end Token

theorem advances_lexToken (l : Lexer) : Advances l l.lexToken := by
  unfold lexToken
  cases hbuffer : l.buffer with
  | nil =>
    unfold lexEnd
    rcases hstack : l.indentStack with _ | ⟨top, _ | ⟨outer, rest⟩⟩
    · exact ⟨List.drop_suffix 0 _, .inl rfl⟩
    · exact ⟨List.drop_suffix 0 _, .inl rfl⟩
    · refine .of_weight List.suffix_rfl ?_
      simp only [weight, hstack, List.length_cons, List.length_nil]
      omega
  | cons c rest =>
    dsimp only
    split
    · next h => exact (moves_lexNumber hbuffer h).advances
    · split
      · next h => exact (moves_lexIdentifier hbuffer h).advances
      · split
        · split
          · exact (moves_lexMultilineString hbuffer).advances
          · exact (moves_lexString hbuffer).advances
        · split
          · exact (moves_advance hbuffer Nat.one_pos rfl).advances
          · split
            · next hfind =>
              exact (moves_advance hbuffer
                (operators_nonempty _ (List.mem_of_find?_eq_some hfind)) rfl).advances
            · exact (moves_advance hbuffer Nat.one_pos rfl).advances

theorem advances_skip_lexToken (l : Lexer) : Advances l l.skipWhitespaceAndComments.lexToken :=
  (advances_lexToken _).of_suffix (suffix_skipBlanks _ _ l.buffer) le_rfl

/-! Lines. -/

theorem advances_dedentTo {l m : Lexer} {spaces : Nat} (hsuffix : m.buffer <:+ l.buffer)
    (hstack : m.indentStack = l.indentStack) (hpending : m.pendingDedents ≤ 0)
    (hline : l.atLineStart = Bool.true) (hmline : m.atLineStart = Bool.false)
    (hopen : 0 < l.indentStack.length) : Advances l (m.dedentTo spaces) := by
  have hle := closeLevels_length_le spaces l.indentStack
  unfold dedentTo
  dsimp only
  split
  · refine .of_weight hsuffix ?_
    simp only [weight, hstack, hline, hmline, Bool.false_eq_true, if_false, if_true]
    omega
  · refine .of_weight hsuffix ?_
    simp only [weight, hstack, hline, hmline, Bool.false_eq_true, if_false, if_true]
    split
    · simp only [List.length_singleton]
      omega
    · omega

theorem advances_lexIndent {l : Lexer} (hpending : l.pendingDedents ≤ 0)
    (hline : l.atLineStart = Bool.true) : Advances l l.atLine.lexIndent := by
  have hbegin : l.lineBegin <:+ l.buffer := suffix_skipLines _ _
  have hlower : l.atLine.weight < l.weight := by
    change l.indentStack.length + l.pendingDedents.toNat + (if Bool.false = Bool.true then 1 else 0) <
      l.indentStack.length + l.pendingDedents.toNat + if l.atLineStart = Bool.true then 1 else 0
    rw [hline, if_neg Bool.false_ne_true, if_pos rfl]
    exact Nat.lt_succ_self _
  let behind := l.atLine.advance (l.lineBegin.takeWhile isSpaceChar).length
  have hbehind : behind.buffer <:+ l.buffer := (List.drop_suffix _ l.lineBegin).trans hbegin
  unfold lexIndent
  change Advances l (ite _ _ _)
  split
  · exact .of_weight hbegin hlower
  · split
    · next hindent =>
      split
      · exact .of_weight hbegin hlower
      · refine ⟨hbehind, .inr (.inl ?_)⟩
        have hle := (List.takeWhile_prefix isSpaceChar (l := l.lineBegin)).length_le
        change (l.lineBegin.drop (l.lineBegin.takeWhile isSpaceChar).length).length < _
        have hspaces : 0 < (l.lineBegin.takeWhile isSpaceChar).length :=
          Nat.zero_lt_of_lt hindent.2
        rw [List.length_drop]
        have := hbegin.length_le
        omega
    · split
      · next hdedent =>
        refine advances_dedentTo (m := behind) hbehind rfl hpending hline rfl ?_
        rcases hdedent with hdeeper | ⟨-, hopen⟩
        · cases hstack : l.indentStack with
          | nil =>
            change _ < l.indentStack.headD 0 at hdeeper
            rw [hstack] at hdeeper
            cases hdeeper
          | cons => exact Nat.succ_pos _
        · exact Nat.zero_lt_of_lt hopen
      · exact (advances_skip_lexToken behind).of_suffix hbehind hlower.le

/-- Every call advances. -/
theorem advances_lex (l : Lexer) : Advances l l.lex := by
  unfold lex
  split
  · next hpending =>
    refine .of_weight List.suffix_rfl ?_
    simp only [weight]
    omega
  · next hpending =>
    split
    · next hline => exact advances_lexIndent (Int.not_lt.mp hpending) hline
    · exact advances_skip_lexToken l

theorem suffix_after (l : Lexer) (n : Nat) : (l.after n).buffer <:+ l.buffer := by
  induction n with
  | zero => exact List.suffix_rfl
  | succ n ih =>
    rw [after_succ]
    exact (advances_lex (l.after n)).suffix.trans ih

/-- Where every call advances, the end of the file is found: first the cursor, then the
weight falls. -/
theorem exists_endOfFile (l : Lexer) : ∃ n, l.typeAt n = some .endOfFile := by
  induction hlen : l.buffer.length using Nat.strong_induction_on generalizing l with
  | _ len ihlen =>
    induction hweight : l.weight using Nat.strong_induction_on generalizing l with
    | _ weight ihweight =>
      rcases (advances_lex l).progress with hend | hshorter | ⟨hsame, hlower⟩
      · exact ⟨0, hend⟩
      · obtain ⟨n, hn⟩ := ihlen _ (hlen ▸ hshorter) l.next rfl
        exact ⟨1 + n, by rw [typeAt, after_add]; exact hn⟩
      · obtain ⟨n, hn⟩ := ihweight _ (hweight ▸ hlower) l.next (by rw [next, hsame, hlen]) rfl
        exact ⟨1 + n, by rw [typeAt, after_add]; exact hn⟩

end Aer.Compiler.Lexer
