import Aer.Compiler.ExprParsing

set_option linter.all false

/-! Expressions in a source text: what is written for a token, in front of what it may stand, and
the parentheses that a tree of operators needs. -/
namespace Aer.Compiler

open Aer.Data Aer.Memory Aer.Machine Aer.Lib.Interaction

/-! Tokens in a text. -/

/-- The text is the longest one in front of the rest that is a token, and is this token. -/
inductive Before (rest : Bytes) : Bytes → Token → Prop
  | operator {text : Bytes} {type : TokenType} : (text, type) ∈ Lexer.operators →
      (∀ o ∈ Lexer.operators, o.1 <+: text ++ rest → o.1.length ≤ text.length) →
      Before rest text { type := type }
  | keyword {word : Bytes} {type : TokenType} : (word, type) ∈ Lexer.keywords →
      Lexer.isWord (rest.getD 0 0) = false → Before rest word { type := type }
  | yes : Lexer.isWord (rest.getD 0 0) = false → Before rest (bytes "true") ⟨.true, some (.boolean true)⟩
  | no : Lexer.isWord (rest.getD 0 0) = false → Before rest (bytes "false") ⟨.false, some (.boolean false)⟩
  | name {n : Bytes} : isName n = true → Lexer.isWord (rest.getD 0 0) = false →
      Before rest n ⟨.identifier, some (.string n)⟩
  | integer {ds : Bytes} : ds ≠ [] → (∀ c ∈ ds, isDigit c = true) → digitsVal 10 ds < 2 ^ 63 →
      Lexer.isWord (rest.getD 0 0) = false → rest.getD 0 0 ≠ byte '.' →
      Before rest ds ⟨.integer, some (.integer (digitsVal 10 ds))⟩
  | real {whole part : Bytes} : whole ≠ [] → (∀ c ∈ whole, isDigit c = true) → digitsVal 10 whole < 2 ^ 63 →
      part ≠ [] → (∀ c ∈ part, isDigit c = true) → Lexer.isWord (rest.getD 0 0) = false →
      (Double.ofScientific false (digitsVal 10 (whole ++ part)) 10 (-part.length)).isNaN = false →
      Before rest (whole ++ byte '.' :: part)
        ⟨.real, some (.real (Double.ofScientific false (digitsVal 10 (whole ++ part)) 10 (-part.length)))⟩
  | string {t : Bytes} : 0 ∉ t → (t = [] → rest.getD 0 0 ≠ byte '"') →
      Before rest (byte '"' :: (escape t ++ [byte '"'])) ⟨.string, some (.string (escape t))⟩

/-- A text that begins with these tokens, with blanks between some of them, and then has the rest. -/
inductive Spells : Bytes → List Token → Bytes → Prop
  | nil (rest : Bytes) : Spells rest [] rest
  | cons {blanks text more rest : Bytes} {tok : Token} {toks : List Token} :
      (∀ c ∈ blanks, Lexer.isBlank c = true) → Before more text tok → Spells more toks rest →
      Spells (blanks ++ (text ++ more)) (tok :: toks) rest

/-- The lexer behind a token. -/
def Lexer.behind (l : Lexer) (type : TokenType) (rest : Bytes) : Lexer :=
  ({ l with bracketDepth := bracketAfter l.bracketDepth type } : Lexer).setBuffer rest

/-- The lexer has read the token and is at the rest. -/
def Lexed.Leaves (r : Lexed) (l : Lexer) (tok : Token) (rest : Bytes) : Prop :=
  r.Is tok ∧ r.lexer = l.behind tok.type rest

section Tokens
variable {l : Lexer} {text rest : Bytes} {tok : Token}

theorem advance_append (hl : l.buffer = text ++ rest) : l.advance text.length = l.setBuffer rest := by
  unfold Lexer.advance
  rw [hl, List.drop_left]

/-- A word is read as far as it goes. -/
theorem takeWhile_append {test : UInt8 → Bool} (ht : ∀ c ∈ text, test c = true)
    (hrest : test (rest.getD 0 0) = false) : (text ++ rest).takeWhile test = text := by
  rw [List.takeWhile_append_of_pos ht]
  cases rest with
  | nil => exact List.append_nil text
  | cons c rest =>
    rw [List.takeWhile_cons_of_neg (by simpa using hrest), List.append_nil]

theorem dropWhile_append {test : UInt8 → Bool} (ht : ∀ c ∈ text, test c = true)
    (hrest : test (rest.getD 0 0) = false) : (text ++ rest).dropWhile test = rest := by
  rw [List.dropWhile_append_of_pos ht]
  cases rest with
  | nil => rfl
  | cons c rest => exact List.dropWhile_cons_of_neg (by simpa using hrest)

/-- No operator is the beginning of one behind it in the table, and none begins as something else does. -/
theorem operators_spec : (Lexer.operators.Pairwise fun o p => ¬ o.1 <+: p.1) ∧
    ∀ o ∈ Lexer.operators, o.1 ≠ [] ∧ isDigit (o.1.getD 0 0) = false ∧
      Lexer.isWordStart (o.1.getD 0 0) = false ∧ o.1.getD 0 0 ≠ byte '"' ∧ o.1.getD 0 0 ≠ byte '\n' ∧
      o.1.getD 0 0 ≠ byte '#' ∧ Lexer.isBlank (o.1.getD 0 0) = false := by
  decide +kernel

/-- The table is searched for the longest operator. -/
theorem find_operator {type : TokenType} (hmem : (text, type) ∈ Lexer.operators)
    (hlongest : ∀ o ∈ Lexer.operators, o.1 <+: text ++ rest → o.1.length ≤ text.length) :
    (Lexer.operators.find? fun o => o.1.isPrefixOf (text ++ rest)) = some (text, type) := by
  have hself : text.isPrefixOf (text ++ rest) = true := List.isPrefixOf_iff_prefix.mpr (List.prefix_append text rest)
  cases hfind : Lexer.operators.find? fun o => o.1.isPrefixOf (text ++ rest) with
  | none =>
    exact absurd hself (List.find?_eq_none.mp hfind _ hmem)
  | some o =>
    obtain ⟨hfound, as, bs, heq, hbefore⟩ := List.find?_eq_some_iff_append.mp hfind
    have ho : o ∈ Lexer.operators := List.mem_of_find?_eq_some hfind
    have hto : o.1 <+: text ++ rest := List.isPrefixOf_iff_prefix.mp hfound
    have hshort : o.1 <+: text :=
      List.prefix_of_prefix_length_le hto (List.prefix_append text rest) (hlongest o ho hto)
    have hpair := operators_spec.1
    rw [heq] at hmem hpair
    obtain hmem | hmem := List.mem_append.mp hmem
    · have hno := hbefore _ hmem
      rw [hself] at hno
      cases hno
    · obtain rfl | hmem := List.mem_cons.mp hmem
      · rfl
      · exact absurd hshort (List.rel_of_pairwise_cons (List.pairwise_append.mp hpair).2.1 hmem)

theorem leaves_operator {type : TokenType} (hmem : (text, type) ∈ Lexer.operators)
    (hlongest : ∀ o ∈ Lexer.operators, o.1 <+: text ++ rest → o.1.length ≤ text.length)
    (hl : l.buffer = text ++ rest) : l.lexToken.Leaves l { type := type } rest := by
  obtain ⟨hne, hdigit, hword, hquote, hline, -, -⟩ := operators_spec.2 _ hmem
  obtain ⟨c, cs, rfl⟩ := List.exists_cons_of_ne_nil hne
  have hquote : c ≠ byte '"' := hquote
  have hline : c ≠ byte '\n' := hline
  have hlex : l.lexToken =
      ({ l with bracketDepth := Lexer.bracketAfter l.bracketDepth type } : Lexer).emit type (c :: cs).length := by
    unfold Lexer.lexToken
    rw [hl, List.cons_append]
    dsimp only
    rw [if_neg (by simpa using hdigit), if_neg (by simpa using hword), if_neg hquote, if_neg hline,
      ← List.cons_append, find_operator hmem hlongest]
  rw [hlex]
  exact ⟨⟨rfl, rfl, rfl, fun lit hlit => by cases hlit⟩, advance_append (l := { l with bracketDepth := _ }) hl⟩

set_option synthInstance.maxSize 512 in
/-- What begins a word or a number begins nothing else, and what cannot go on a word begins no number
and no exponent. -/
theorem byte_spec : ∀ c : UInt8,
    (Lexer.isWordStart c = true → isDigit c = false ∧ c ≠ byte '#' ∧ Lexer.isBlank c = false ∧ c ≠ byte '\n') ∧
    (isDigit c = true → (c ≠ byte '.' ∧ c ≠ byte '#' ∧ Lexer.isBlank c = false ∧ c ≠ byte '\n' ∧
      Lexer.isWord c = true ∧ c ≠ byte 'x' ∧ c ≠ byte 'X') ∧ isSpace c = false ∧ c ≠ byte '-' ∧ c ≠ byte '+' ∧
      toLower c ≠ byte 'i' ∧ toLower c ≠ byte 'n' ∧ toLower c ≠ byte 'x') ∧
    (Lexer.isWord c = false → isDigit c = false ∧ Lexer.isWordStart c = false ∧ c ≠ byte 'x' ∧
      c ≠ byte 'X' ∧ c ≠ byte 'e' ∧ c ≠ byte 'E' ∧ toLower c ≠ byte 'e') :=
  forall_byte (by decide +kernel)

theorem wordStart_spec (c : UInt8) (h : Lexer.isWordStart c = true) : isDigit c = false ∧ c ≠ byte '#' ∧
    Lexer.isBlank c = false ∧ c ≠ byte '\n' :=
  (byte_spec c).1 h

theorem digit_spec (c : UInt8) (h : isDigit c = true) : c ≠ byte '.' ∧ c ≠ byte '#' ∧
    Lexer.isBlank c = false ∧ c ≠ byte '\n' ∧ Lexer.isWord c = true ∧ c ≠ byte 'x' ∧ c ≠ byte 'X' :=
  ((byte_spec c).2.1 h).1

theorem not_word_spec (c : UInt8) (h : Lexer.isWord c = false) : isDigit c = false ∧
    Lexer.isWordStart c = false ∧ c ≠ byte 'x' ∧ c ≠ byte 'X' ∧ c ≠ byte 'e' ∧ c ≠ byte 'E' ∧
    toLower c ≠ byte 'e' :=
  (byte_spec c).2.2 h

theorem leaves_emitValue {type : TokenType} {v : Literal} (hv : v.Sourced)
    (hdepth : Lexer.bracketAfter l.bracketDepth type = l.bracketDepth) (hl : l.buffer = text ++ rest) :
    (l.emitValue type v text.length []).Leaves l ⟨type, some v⟩ rest := by
  refine ⟨⟨rfl, rfl, rfl, fun lit hlit => ?_⟩, ?_⟩
  · obtain rfl : v = lit := Option.some.inj hlit
    exact hv
  · change l.advance text.length = l.behind type rest
    rw [advance_append hl, Lexer.behind, hdepth]

theorem lexToken_word (hstart : Lexer.isWordStart (text.getD 0 0) = true) (hl : l.buffer = text ++ rest) :
    l.lexToken = l.lexIdentifier := by
  cases text with
  | nil => cases hstart
  | cons c cs =>
    have hstart : Lexer.isWordStart c = true := hstart
    obtain ⟨hdigit, -⟩ := wordStart_spec c hstart
    unfold Lexer.lexToken
    rw [hl, List.cons_append]
    dsimp only
    rw [if_neg (by rw [hdigit]; exact Bool.false_ne_true), if_pos hstart]

theorem keywords_spec : ∀ k ∈ Lexer.keywords, Lexer.isWordStart (k.1.getD 0 0) = true ∧
    k.1.all Lexer.isWord = true ∧ k.1 ≠ bytes "true" ∧ k.1 ≠ bytes "false" ∧
    Lexer.keywords.find? (fun o => o.1 == k.1) = some k := by
  decide +kernel

theorem keywords_depth {type : TokenType} (h : (text, type) ∈ Lexer.keywords) (n : Nat) :
    Lexer.bracketAfter n type = n := by
  have hall : ∀ k ∈ Lexer.keywords, Lexer.bracketAfter n k.2 = n := by
    simp [Lexer.keywords, Lexer.bracketAfter]
  exact hall _ h

theorem leaves_keyword {type : TokenType} (h : (text, type) ∈ Lexer.keywords)
    (hrest : Lexer.isWord (rest.getD 0 0) = false) (hl : l.buffer = text ++ rest) :
    l.lexToken.Leaves l { type := type } rest := by
  obtain ⟨hstart, hword, htrue, hfalse, hfind⟩ := keywords_spec _ h
  have htake : l.buffer.takeWhile Lexer.isWord = text := by
    rw [hl, takeWhile_append (List.all_eq_true.mp hword) hrest]
  rw [lexToken_word hstart hl]
  unfold Lexer.lexIdentifier
  dsimp only
  rw [htake, if_neg htrue, if_neg hfalse, hfind]
  refine ⟨⟨rfl, rfl, rfl, fun lit hlit => by cases hlit⟩, ?_⟩
  change l.advance text.length = l.behind type rest
  rw [advance_append hl, Lexer.behind, keywords_depth h]

theorem leaves_boolean (b : Bool) (hrest : Lexer.isWord (rest.getD 0 0) = false)
    (hl : l.buffer = (if b then bytes "true" else bytes "false") ++ rest) :
    l.lexToken.Leaves l ⟨if b then .true else .false, some (.boolean b)⟩ rest := by
  have htake : l.buffer.takeWhile Lexer.isWord = if b then bytes "true" else bytes "false" := by
    rw [hl, takeWhile_append _ hrest]
    cases b <;> exact List.all_eq_true.mp rfl
  rw [lexToken_word (by cases b <;> rfl) hl]
  unfold Lexer.lexIdentifier
  dsimp only
  rw [htake]
  cases b with
  | true =>
    have hl : l.buffer = bytes "true" ++ rest := hl
    exact leaves_emitValue (v := .boolean _) trivial rfl hl
  | false =>
    rw [if_neg Bool.false_ne_true, if_neg (by decide), if_pos rfl]
    have hl : l.buffer = bytes "false" ++ rest := hl
    exact leaves_emitValue (v := .boolean _) trivial rfl hl

theorem leaves_name (h : isName text = true) (hrest : Lexer.isWord (rest.getD 0 0) = false)
    (hl : l.buffer = text ++ rest) : l.lexToken.Leaves l ⟨.identifier, some (.string text)⟩ rest := by
  have hword : ∀ c ∈ text, Lexer.isWord c = true := fun c hc => isWord_of_isName h hc
  have hzero : 0 ∉ text := fun h0 => (plain_of_isWord (hword 0 h0)).2.2.2.1 rfl
  simp only [isName, Bool.and_eq_true, Bool.not_eq_true', List.contains_eq_mem, decide_eq_false_iff_not,
    List.mem_append, not_or, List.mem_cons, List.not_mem_nil, or_false, List.mem_map, not_exists, not_and] at h
  obtain ⟨⟨hstart, -⟩, ⟨htrue, hfalse⟩, hkeyword⟩ := h
  have htake : l.buffer.takeWhile Lexer.isWord = text := by
    rw [hl, takeWhile_append hword hrest]
  have hfind : Lexer.keywords.find? (fun k => k.1 == text) = none := by
    refine List.find?_eq_none.mpr fun k hk => ?_
    simpa using hkeyword k hk
  rw [lexToken_word hstart hl]
  unfold Lexer.lexIdentifier
  dsimp only
  rw [htake, if_neg htrue, if_neg hfalse, hfind]
  exact leaves_emitValue hzero rfl hl

/-! Numbers. -/

theorem lexToken_digit (hdigits : ∀ c ∈ text, isDigit c = true) (hne : text ≠ []) {more : Bytes}
    (hx : more.getD 0 0 ≠ byte 'x' ∧ more.getD 0 0 ≠ byte 'X') (hl : l.buffer = text ++ more) :
    l.lexToken = l.lexNumber ∧ ¬ (l.char 0 = byte '0' ∧ (l.char 1 = byte 'x' ∨ l.char 1 = byte 'X')) := by
  obtain ⟨c, cs, rfl⟩ := List.exists_cons_of_ne_nil hne
  constructor
  · unfold Lexer.lexToken
    rw [hl, List.cons_append]
    dsimp only
    rw [if_pos (hdigits c List.mem_cons_self)]
  · rintro ⟨-, h⟩
    unfold Lexer.char at h
    rw [hl] at h
    cases cs with
    | nil => exact h.elim hx.1 hx.2
    | cons d cs =>
      obtain ⟨-, -, -, -, -, hd⟩ := digit_spec d (hdigits d (List.mem_cons_of_mem c List.mem_cons_self))
      exact h.elim hd.1 hd.2

theorem char_append (hl : l.buffer = text ++ rest) : l.char text.length = rest.getD 0 0 := by
  unfold Lexer.char
  rw [hl, List.getD_append_right _ _ _ _ le_rfl, Nat.sub_self]

theorem saturate_eq {n : Nat} (h : n < 2 ^ 63) : Lexer.saturate n = n := by
  unfold Lexer.saturate
  omega

theorem leaves_integer (hne : text ≠ []) (hdigits : ∀ c ∈ text, isDigit c = true)
    (hsmall : digitsVal 10 text < 2 ^ 63) (hrest : Lexer.isWord (rest.getD 0 0) = false)
    (hdot : rest.getD 0 0 ≠ byte '.') (hl : l.buffer = text ++ rest) :
    l.lexToken.Leaves l ⟨.integer, some (.integer (digitsVal 10 text))⟩ rest := by
  obtain ⟨hdigit, hstart, hx, hX, -⟩ := not_word_spec _ hrest
  obtain ⟨hlex, hhex⟩ := lexToken_digit hdigits hne ⟨hx, hX⟩ hl
  have htake : l.buffer.takeWhile isDigit = text := by
    rw [hl, takeWhile_append hdigits hdigit]
  have hreports : l.integerReports (digitsVal 10 text) text.length = [] := by
    unfold Lexer.integerReports
    rw [if_neg (Nat.not_le.mpr hsmall), char_append hl, hstart]
    rfl
  rw [hlex]
  unfold Lexer.lexNumber
  dsimp only
  rw [if_neg hhex, htake, if_pos (.inl (by rw [char_append hl]; exact hdot)), hreports, saturate_eq hsmall]
  exact leaves_emitValue trivial rfl hl

theorem expoLength_eq {b : Bytes} (h : b.getD 0 0 ≠ byte 'e' ∧ b.getD 0 0 ≠ byte 'E') : Lexer.expoLength b = 0 := by
  unfold Lexer.expoLength
  rw [if_neg (by simpa using h)]

theorem splitExpo_eq {b : Bytes} (h : toLower (b.getD 0 0) ≠ byte 'e') : Double.splitExpo (byte 'e') b = 0 := by
  unfold Double.splitExpo
  cases b with
  | nil => rfl
  | cons c cs => exact if_neg h

theorem digit_text (c : UInt8) (h : isDigit c = true) : isSpace c = false ∧ c ≠ byte '-' ∧ c ≠ byte '+' ∧
    toLower c ≠ byte 'i' ∧ toLower c ≠ byte 'n' ∧ toLower c ≠ byte 'x' :=
  ((byte_spec c).2.1 h).2

theorem hasPrefix_first {w c : UInt8} {ws cs : Bytes} (h : toLower c ≠ w) :
    Double.hasPrefix (w :: ws) (c :: cs) = false := by
  have hne : (w == toLower c) = false := by simpa using h.symm
  unfold Double.hasPrefix
  rw [List.map_cons, List.isPrefixOf, hne, Bool.false_and]

theorem hasPrefix_second {v w c : UInt8} {cs : Bytes} (h : toLower (cs.getD 0 0) ≠ w) :
    Double.hasPrefix [v, w] (c :: cs) = false := by
  cases cs with
  | nil => simp [Double.hasPrefix, List.isPrefixOf]
  | cons d cs =>
    have hne : (w == toLower d) = false := by
      have h : toLower d ≠ w := h
      simpa using h.symm
    unfold Double.hasPrefix
    rw [List.map_cons, List.map_cons, List.isPrefixOf, List.isPrefixOf, hne, Bool.false_and, Bool.and_false]

section Reals
variable {whole part : Bytes} (hwhole : ∀ c ∈ whole, isDigit c = true) (hpart : ∀ c ∈ part, isDigit c = true)
  (hrest : isDigit (rest.getD 0 0) = false)
include hwhole hpart hrest

theorem splitPoint_eq :
    Double.splitPoint isDigit (whole ++ byte '.' :: part ++ rest) = (whole, part, rest) := by
  have hdot : isDigit ((byte '.' :: (part ++ rest)).getD 0 0) = false := rfl
  unfold Double.splitPoint
  rw [List.append_assoc, List.cons_append, takeWhile_append hwhole hdot, dropWhile_append hwhole hdot]
  dsimp only
  rw [if_pos rfl, takeWhile_append hpart hrest, dropWhile_append hpart hrest]

/-- The value of a decimal fraction. -/
theorem strtod_eq (hne : whole ≠ []) (hexpo : toLower (rest.getD 0 0) ≠ byte 'e') :
    Double.strtod (whole ++ byte '.' :: part ++ rest) =
      .ofScientific false (digitsVal 10 (whole ++ part)) 10 (-part.length) := by
  have hsplit := splitPoint_eq hwhole hpart hrest
  obtain ⟨c, cs, rfl⟩ := List.exists_cons_of_ne_nil hne
  obtain ⟨hspace, hminus, hplus, hinf, hnan, -⟩ := digit_text c (hwhole c List.mem_cons_self)
  obtain ⟨more, hmore⟩ : ∃ more, more = cs ++ byte '.' :: part ++ rest := ⟨_, rfl⟩
  have htext : c :: cs ++ byte '.' :: part ++ rest = c :: more := by
    rw [hmore]
    rfl
  have hsign : splitSign (c :: more) = (false, c :: more) := by
    unfold splitSign
    rw [List.dropWhile_cons_of_neg (by rw [hspace]; exact Bool.false_ne_true)]
    dsimp only
    rw [if_neg hminus, if_neg hplus]
  -- Behind the first digit there is a digit or the point.
  have hhex : Double.hasPrefix (bytes "0x") (c :: more) = false := by
    refine hasPrefix_second ?_
    rw [hmore]
    cases cs with
    | nil =>
      have hdot : toLower (byte '.') ≠ byte 'x' := by decide
      exact hdot
    | cons d cs =>
      obtain ⟨-, -, -, -, -, hd⟩ := digit_text d (hwhole d (List.mem_cons_of_mem c List.mem_cons_self))
      exact hd
  have hinf : Double.hasPrefix (bytes "inf") (c :: more) = false := hasPrefix_first hinf
  have hnan : Double.hasPrefix (bytes "nan") (c :: more) = false := hasPrefix_first hnan
  rw [htext] at hsplit ⊢
  unfold Double.strtod
  rw [hsign]
  dsimp only
  rw [if_neg (by rw [hinf]; exact Bool.false_ne_true), if_neg (by rw [hnan]; exact Bool.false_ne_true), hhex, Bool.false_and,
    if_neg Bool.false_ne_true, hsplit]
  dsimp only
  rw [if_neg (by simp), splitExpo_eq hexpo, Int.zero_sub]

theorem realLength_eq (hexpo : rest.getD 0 0 ≠ byte 'e' ∧ rest.getD 0 0 ≠ byte 'E') :
    Lexer.realLength (whole ++ byte '.' :: part ++ rest) = (whole ++ byte '.' :: part).length := by
  have hpoint : (whole ++ byte '.' :: part ++ rest).getD whole.length 0 = byte '.' := by
    rw [List.append_assoc, List.getD_append_right _ _ _ _ le_rfl, Nat.sub_self]
    rfl
  unfold Lexer.realLength
  rw [splitPoint_eq hwhole hpart hrest]
  dsimp only
  rw [hpoint, if_pos (beq_self_eq_true (byte '.')), expoLength_eq hexpo, List.length_append, List.length_cons]
  omega

theorem leaves_real (hne : whole ≠ []) (hsmall : digitsVal 10 whole < 2 ^ 63) (hpoint : part ≠ [])
    (hword : Lexer.isWord (rest.getD 0 0) = false)
    (hnan : (Double.ofScientific false (digitsVal 10 (whole ++ part)) 10 (-part.length)).isNaN = false)
    (hl : l.buffer = whole ++ byte '.' :: part ++ rest) :
    l.lexToken.Leaves l
      ⟨.real, some (.real (.ofScientific false (digitsVal 10 (whole ++ part)) 10 (-part.length)))⟩ rest := by
  obtain ⟨-, hstart, -, -, he, hE, hexpo⟩ := not_word_spec _ hword
  have hl' : l.buffer = whole ++ (byte '.' :: (part ++ rest)) := by rw [hl, List.append_assoc, List.cons_append]
  have hdot : isDigit ((byte '.' :: (part ++ rest)).getD 0 0) = false := rfl
  have hx : (byte '.' :: (part ++ rest)).getD 0 0 ≠ byte 'x' ∧ (byte '.' :: (part ++ rest)).getD 0 0 ≠ byte 'X' :=
    show byte '.' ≠ byte 'x' ∧ byte '.' ≠ byte 'X' by decide
  obtain ⟨hlex, hhex⟩ := lexToken_digit hwhole hne hx hl'
  have htake : l.buffer.takeWhile isDigit = whole := by
    rw [hl', takeWhile_append hwhole hdot]
  have hlen : Lexer.realLength l.buffer = (whole ++ byte '.' :: part).length := by
    rw [hl, realLength_eq hwhole hpart hrest ⟨he, hE⟩]
  have hlong : ¬ (whole ++ byte '.' :: part).length ≤ whole.length + 1 := by
    have := List.length_pos_iff.mpr hpoint
    rw [List.length_append, List.length_cons]
    omega
  have hnext : ¬ (l.char whole.length ≠ byte '.' ∨ l.char (whole.length + 1) = byte '.') := by
    obtain ⟨d, ds, rfl⟩ := List.exists_cons_of_ne_nil hpoint
    have hd : l.char (whole.length + 1) = d := by
      unfold Lexer.char
      rw [hl', List.getD_append_right _ _ _ _ (Nat.le_add_right _ 1), Nat.add_sub_cancel_left]
      rfl
    rw [char_append hl', hd, not_or]
    exact ⟨not_not_intro rfl, (digit_spec d (hpart d List.mem_cons_self)).1⟩
  rw [hlex]
  unfold Lexer.lexNumber
  dsimp only
  rw [if_neg hhex, htake, if_neg hnext, if_neg (Nat.not_le.mpr hsmall), hlen, if_neg hlong, char_append hl, hstart,
    if_neg Bool.false_ne_true, hl, strtod_eq hwhole hpart hrest hne hexpo]
  exact leaves_emitValue hnan rfl hl

end Reals

/-! Strings. -/

theorem zero_not_mem_escape {t : Bytes} (h : 0 ∉ t) : 0 ∉ escape t := by
  intro h0
  obtain ⟨c, hc, h0⟩ := List.mem_flatMap.mp h0
  obtain ⟨d, hd, hback⟩ | ⟨hsame, -⟩ := escapeByte_cases c
  · rw [hd] at h0
    obtain h0 | h0 := List.mem_pair.mp h0
    · exact absurd h0 (by decide)
    · rw [← h0] at hback
      cases hback
  · rw [hsame] at h0
    exact h (List.mem_singleton.mp h0 ▸ hc)

theorem leaves_string {t : Bytes} (hzero : 0 ∉ t) (hrest : t = [] → rest.getD 0 0 ≠ byte '"')
    (hl : l.buffer = byte '"' :: (escape t ++ [byte '"']) ++ rest) :
    l.lexToken.Leaves l ⟨.string, some (.string (escape t))⟩ rest := by
  have hl : l.buffer = byte '"' :: (escape t ++ byte '"' :: rest) := by
    rw [hl, List.cons_append, List.append_assoc]
    rfl
  have hlen : Lexer.stringLength (escape t ++ byte '"' :: rest) = (escape t).length := by
    rw [stringLength_written, Reads.stringLength_stop (.inl rfl), Nat.add_zero]
  have hbody : (l.advance 1).buffer = escape t ++ byte '"' :: rest := by
    change l.buffer.drop 1 = _
    rw [hl]
    rfl
  -- It does not begin with three quotes.
  have htriple : ¬ (l.char 1 = byte '"' ∧ l.char 2 = byte '"') := by
    rintro ⟨h1, h2⟩
    unfold Lexer.char at h1 h2
    rw [hl] at h1 h2
    cases ht : t with
    | nil =>
      rw [ht] at h2
      exact hrest ht h2
    | cons c t =>
      rw [ht] at h1
      obtain ⟨d, hd, -⟩ | ⟨hc, -, hquote, -⟩ := escapeByte_cases c
      · rw [escape, List.flatMap_cons, hd] at h1
        exact absurd h1 (show byte '\\' ≠ byte '"' by decide)
      · rw [escape, List.flatMap_cons, hc] at h1
        exact hquote h1
  have hlex : l.lexToken = l.lexString := by
    unfold Lexer.lexToken
    rw [hl]
    dsimp only
    rw [if_neg (by decide), if_neg (by decide), if_pos rfl, if_neg htriple]
  have hstop : ((l.advance 1).advance (escape t).length).buffer = byte '"' :: rest := by
    change (l.advance 1).buffer.drop _ = _
    rw [hbody, List.drop_left]
  have hrun : l.lexToken = { lexer := l.setBuffer rest, type := some .string, value := some (.string (escape t)) } := by
    rw [hlex]
    unfold Lexer.lexString
    dsimp only
    rw [hbody, hlen]
    have hquote : ((l.advance 1).advance (escape t).length).char 0 = byte '"' := by
      unfold Lexer.char
      rw [hstop]
      rfl
    rw [if_pos hquote, List.take_left]
    congr 1
    change ((l.advance 1).advance (escape t).length).setBuffer
      (((l.advance 1).advance (escape t).length).buffer.drop 1) = _
    rw [hstop]
    rfl
  rw [hrun]
  refine ⟨⟨rfl, rfl, rfl, fun lit hlit => ?_⟩, rfl⟩
  obtain rfl : Literal.string (escape t) = lit := Option.some.inj hlit
  exact zero_not_mem_escape hzero

/-- The lexer reads the token that is written. -/
theorem leaves_of_before (h : Before rest text tok) (hl : l.buffer = text ++ rest) :
    l.lexToken.Leaves l tok rest := by
  cases h with
  | operator hmem hlongest => exact leaves_operator hmem hlongest hl
  | keyword hmem hrest => exact leaves_keyword hmem hrest hl
  | yes hrest => exact leaves_boolean true hrest hl
  | no hrest => exact leaves_boolean false hrest hl
  | name hname hrest => exact leaves_name hname hrest hl
  | integer hne hdigits hsmall hrest hdot => exact leaves_integer hne hdigits hsmall hrest hdot hl
  | real hne hwhole hsmall hpoint hpart hrest hnan =>
    exact leaves_real hwhole hpart (not_word_spec _ hrest).1 hne hsmall hpoint hrest hnan hl
  | string hzero hrest => exact leaves_string hzero hrest hl

/-! Tokens one after the other. -/

/-- No token begins as what is skipped in front of it does. -/
theorem Before.start (h : Before rest text tok) : ∃ c cs, text = c :: cs ∧ Lexer.isBlank c = false ∧
    c ≠ byte '#' ∧ c ≠ byte '\n' := by
  have hword (hstart : Lexer.isWordStart (text.getD 0 0) = true) : ∃ c cs, text = c :: cs ∧
      Lexer.isBlank c = false ∧ c ≠ byte '#' ∧ c ≠ byte '\n' := by
    cases text with
    | nil => cases hstart
    | cons c cs =>
      obtain ⟨-, hhash, hblank, hline⟩ := wordStart_spec c hstart
      exact ⟨c, cs, rfl, hblank, hhash, hline⟩
  have hdigit {ds : Bytes} (more : Bytes) (hne : ds ≠ []) (hdigits : ∀ c ∈ ds, isDigit c = true) :
      ∃ c cs, ds ++ more = c :: cs ∧ Lexer.isBlank c = false ∧ c ≠ byte '#' ∧ c ≠ byte '\n' := by
    obtain ⟨c, cs, rfl⟩ := List.exists_cons_of_ne_nil hne
    obtain ⟨-, hhash, hblank, hline, -⟩ := digit_spec c (hdigits c List.mem_cons_self)
    exact ⟨c, cs ++ more, rfl, hblank, hhash, hline⟩
  cases h with
  | operator hmem =>
    obtain ⟨hne, -, -, -, hline, hhash, hblank⟩ := operators_spec.2 _ hmem
    obtain ⟨c, cs, rfl⟩ := List.exists_cons_of_ne_nil hne
    exact ⟨c, cs, rfl, hblank, hhash, hline⟩
  | keyword hmem => exact hword (keywords_spec _ hmem).1
  | yes => exact hword rfl
  | no => exact hword rfl
  | name hname =>
    simp only [isName, Bool.and_eq_true] at hname
    exact hword hname.1.1
  | integer hne hdigits =>
    have hstart := hdigit [] hne hdigits
    rwa [List.append_nil] at hstart
  | real hne hwhole => exact hdigit _ hne hwhole
  | string => exact ⟨_, _, rfl, by decide, by decide, by decide⟩

theorem skip_blanks {blanks : Bytes} (hblanks : ∀ c ∈ blanks, Lexer.isBlank c = true) {c : UInt8} {cs : Bytes}
    (hc : Lexer.isBlank c = false ∧ c ≠ byte '#' ∧ c ≠ byte '\n') (hl : l.buffer = blanks ++ c :: cs) :
    l.skipWhitespaceAndComments = l.setBuffer (c :: cs) := by
  obtain ⟨hblank, hhash, hline⟩ := hc
  have hblank : Lexer.isBlank ((c :: cs).getD 0 0) = false := hblank
  unfold Lexer.skipWhitespaceAndComments
  rw [hl, Lexer.skipBlanks, dropWhile_append hblanks hblank]
  have hone : Lexer.skipOne (0 < l.bracketDepth) (c :: cs) = none := by
    unfold Lexer.skipOne
    dsimp only
    rw [if_neg fun h => hline h.1, if_neg hhash]
  rw [hone]

/-- The lexer behind a list of tokens. -/
def Lexer.past (l : Lexer) (toks : List Token) (rest : Bytes) : Lexer :=
  ({ l with bracketDepth := toks.foldl (fun n t => bracketAfter n t.type) l.bracketDepth } : Lexer).setBuffer rest

/-- The lexer gives the tokens that are written, and then those behind them. -/
theorem gives_of_spells {toks more : List Token} (h : Spells text toks rest) (hl : l.buffer = text)
    (hpending : l.pendingDedents ≤ 0) (hline : l.atLineStart = false)
    (hmore : Gives (l.past toks rest) more) : Gives l (toks ++ more) := by
  induction h generalizing l with
  | nil rest =>
    rw [List.nil_append]
    have hsame : l.past [] rest = l := by
      obtain ⟨⟨name, start, buffer⟩, indents, pending, atStart, depth⟩ := l
      cases hl
      rfl
    rwa [hsame] at hmore
  | @cons blanks text behind rest tok toks hblanks hbefore _ ih =>
    obtain ⟨c, cs, hcs, hc⟩ := hbefore.start
    have hskip : l.skipWhitespaceAndComments = l.setBuffer (text ++ behind) := by
      rw [hcs] at hl ⊢
      exact skip_blanks hblanks hc hl
    obtain ⟨his, hlexer⟩ := leaves_of_before (l := l.setBuffer (text ++ behind)) hbefore rfl
    have hlex : l.lex = (l.setBuffer (text ++ behind)).lexToken := by
      unfold Lexer.lex
      rw [if_neg (Int.not_lt.mpr hpending), hline, if_neg Bool.false_ne_true, hskip]
    rw [List.cons_append]
    refine ⟨hlex ▸ his, ?_⟩
    rw [hlex, hlexer]
    exact ih rfl hpending hline hmore

end Tokens

end Aer.Compiler

namespace Aer.Machine.Expr

open Aer.Data Aer.Compiler

/-! Parentheses. -/

/-- The operators are those of a source, and so are the operands. -/
def Proper : Expr Leaf → Prop
  | operand a => a.Writable
  | group e | unary _ e => e.Proper
  | binary op l r => binaryOperator (operatorToken op) = some (precedence op, op) ∧ l.Proper ∧ r.Proper
  | logical _ l r | when l r => l.Proper ∧ r.Proper
  | choose c a b => c.Proper ∧ a.Proper ∧ b.Proper

section Written
variable {α : Type}

def place (bare : Bool) (e : Expr α) : Expr α := if bare then e else group e

def asLeft (prec : Nat) (e : Expr α) : Expr α := e.place (decide (prec ≤ e.level) && !e.isOpen)

def asRight (prec : Nat) (e : Expr α) : Expr α := e.place (decide (prec < e.level))

/-- The tree with parentheses around what would not stay together without. -/
def written : Expr α → Expr α
  | operand a => operand a
  | group e => group e.written
  | unary (.as type) e => unary (.as type) (e.written.asLeft castPrecedence)
  | unary op e => unary op (e.written.place (e.written.level == unaryLevel))
  | binary op l r => binary op (l.written.asLeft (precedence op)) (r.written.asRight (precedence op))
  | logical decisive l r =>
      logical decisive (l.written.asLeft (logicalPrecedence decisive))
        (r.written.asRight (logicalPrecedence decisive))
  | choose c a b => choose c.written (a.written.place !a.written.dangles) b.written
  | when c a => when c.written a.written

end Written

section Fits
variable {e : Expr Leaf} {prec : Nat}

theorem fits_asLeft (h : e.Fits) (hprec : prec ≤ unaryLevel) :
    (e.asLeft prec).Fits ∧ prec ≤ (e.asLeft prec).level ∧ (e.asLeft prec).isOpen = false := by
  unfold asLeft place
  split
  · next hbare =>
    simp only [Bool.and_eq_true, decide_eq_true_eq, Bool.not_eq_true'] at hbare
    exact ⟨h, hbare⟩
  · exact ⟨h, hprec, rfl⟩

theorem fits_asRight (h : e.Fits) (hprec : prec < unaryLevel) :
    (e.asRight prec).Fits ∧ prec < (e.asRight prec).level := by
  unfold asRight place
  split
  · next hbare => exact ⟨h, of_decide_eq_true hbare⟩
  · exact ⟨h, hprec⟩

theorem logicalPrecedence_lt (decisive : Bool) : logicalPrecedence decisive < unaryLevel := by
  cases decisive <;> decide

/-- Every tree can be written. -/
theorem fits_written (h : e.Proper) : e.written.Fits := by
  have hsign {e : Expr Leaf} (h : e.Fits) :
      (e.place (e.level == unaryLevel)).Fits ∧ (e.place (e.level == unaryLevel)).level = unaryLevel := by
    unfold place
    split
    · next hbare => exact ⟨h, eq_of_beq hbare⟩
    · exact ⟨h, rfl⟩
  induction e with
  | operand a => exact h
  | group e ih => exact ih h
  | unary op e ih =>
    cases op with
    | as type => exact fits_asLeft (ih h) (by decide)
    | _ => exact hsign (ih h)
  | binary op l r ihl ihr =>
    exact ⟨h.1, fits_asLeft (ihl h.2.1) (precedence_lt op).le, fits_asRight (ihr h.2.2) (precedence_lt op)⟩
  | logical decisive l r ihl ihr =>
    exact ⟨fits_asLeft (ihl h.1) (logicalPrecedence_lt decisive).le,
      fits_asRight (ihr h.2) (logicalPrecedence_lt decisive)⟩
  | choose c a b ihc iha ihb =>
    have hends : (a.written.place !a.written.dangles).Fits ∧
        (a.written.place !a.written.dangles).dangles = false := by
      unfold place
      split
      · next hbare => exact ⟨iha h.2.1, by simpa using hbare⟩
      · exact ⟨iha h.2.1, rfl⟩
    exact ⟨ihc h.1, hends.1, hends.2, ihb h.2.2⟩
  | when c a ihc iha => exact ⟨ihc h.1, iha h.2⟩

/-- A tree that needs no more parentheses than it has gets none. -/
theorem written_of_fits (h : e.Fits) : e.written = e := by
  have hleft {e : Expr Leaf} {prec : Nat} (hlevel : prec ≤ e.level) (hopen : e.isOpen = false) :
      e.asLeft prec = e := by
    unfold asLeft
    rw [decide_eq_true hlevel, hopen]
    rfl
  have hright {e : Expr Leaf} {prec : Nat} (hlevel : prec < e.level) : e.asRight prec = e := by
    unfold asRight
    rw [decide_eq_true hlevel]
    rfl
  induction e with
  | operand a => rfl
  | group e ih => exact congrArg group (ih h)
  | unary op e ih =>
    cases op with
    | as type => rw [written, ih h.1, hleft h.2.1 h.2.2]
    | _ =>
      rw [written, ih h.1, h.2]
      · rfl
      · simp
  | binary op l r ihl ihr =>
    obtain ⟨-, ⟨hl, hbinds, hclosed⟩, hr, hbinds'⟩ := h
    rw [written, ihl hl, ihr hr, hleft hbinds hclosed, hright hbinds']
  | logical decisive l r ihl ihr =>
    obtain ⟨⟨hl, hbinds, hclosed⟩, hr, hbinds'⟩ := h
    rw [written, ihl hl, ihr hr, hleft hbinds hclosed, hright hbinds']
  | choose c a b ihc iha ihb =>
    obtain ⟨hc, ha, hends, hb⟩ := h
    rw [written, ihc hc, iha ha, ihb hb, hends]
    rfl
  | when c a ihc iha => rw [written, ihc h.1, iha h.2]

end Fits

section Names
variable {α : Type}

theorem operands_place (bare : Bool) (e : Expr α) : (e.place bare).operands = e.operands := by
  cases bare <;> rfl

theorem operands_written (e : Expr α) : e.written.operands = e.operands := by
  induction e with
  | unary op e ih =>
    cases op
    all_goals
      simp only [written, asLeft, operands, operands_place, ih]
  | _ => simp_all only [written, asLeft, asRight, operands, operands_place]

theorem names_written (e : Expr Leaf) : e.written.names = e.names := by
  unfold names
  rw [operands_written]

end Names

section Meaning
variable {α β : Type} {R : α → β → Prop} {e : Expr α} {d : Expr β}

theorem rel_place {bare : Bool} (h : Rel R (e.place bare) d) :
    ∃ d', Rel R e d' ∧ ∀ cfg got s, d.eval cfg got s = d'.eval cfg got s := by
  cases bare with
  | true => exact ⟨d, h, fun _ _ _ => rfl⟩
  | false =>
    cases h with
    | group h => exact ⟨_, h, fun _ _ _ => rfl⟩

/-- Parentheses do not change what a tree evaluates to. -/
theorem rel_written (h : Rel R e.written d) :
    ∃ d', Rel R e d' ∧ ∀ cfg got s, d.eval cfg got s = d'.eval cfg got s := by
  have hplaced {bare : Bool} {e : Expr α} {d : Expr β} (h : Rel R (e.written.place bare) d)
      (ih : ∀ {d : Expr β}, Rel R e.written d →
        ∃ d', Rel R e d' ∧ ∀ cfg got s, d.eval cfg got s = d'.eval cfg got s) :
      ∃ d', Rel R e d' ∧ ∀ cfg got s, d.eval cfg got s = d'.eval cfg got s := by
    obtain ⟨d', h', heval⟩ := rel_place h
    obtain ⟨d'', h'', heval'⟩ := ih h'
    exact ⟨d'', h'', fun cfg got s => (heval cfg got s).trans (heval' cfg got s)⟩
  induction e generalizing d with
  | operand a => exact ⟨d, h, fun _ _ _ => rfl⟩
  | group e ih =>
    cases h with
    | group h =>
      obtain ⟨d', h', heval⟩ := ih h
      exact ⟨.group d', .group h', heval⟩
  | unary op e ih =>
    have hop : ∃ bare, (unary op e).written = unary op (e.written.place bare) := by
      cases op <;> exact ⟨_, rfl⟩
    obtain ⟨bare, hbare⟩ := hop
    rw [hbare] at h
    cases h with
    | unary _ h =>
      obtain ⟨d', h', heval⟩ := hplaced h ih
      exact ⟨.unary op d', .unary op h', fun cfg got s => by rw [eval, eval, heval]⟩
  | binary op l r ihl ihr =>
    cases h with
    | binary _ hl hr =>
      obtain ⟨l', hl', hevall⟩ := hplaced hl ihl
      obtain ⟨r', hr', hevalr⟩ := hplaced hr ihr
      refine ⟨.binary op l' r', .binary op hl' hr', fun cfg got s => ?_⟩
      rw [eval, eval, hevall]
      simp only [hevalr]
  | logical decisive l r ihl ihr =>
    cases h with
    | logical _ hl hr =>
      obtain ⟨l', hl', hevall⟩ := hplaced hl ihl
      obtain ⟨r', hr', hevalr⟩ := hplaced hr ihr
      refine ⟨.logical decisive l' r', .logical decisive hl' hr', fun cfg got s => ?_⟩
      rw [eval, eval, hevall, funext (hevalr cfg got)]
  | choose c a b ihc iha ihb =>
    cases h with
    | choose hc ha hb =>
      obtain ⟨c', hc', hevalc⟩ := ihc hc
      obtain ⟨a', ha', hevala⟩ := hplaced ha iha
      obtain ⟨b', hb', hevalb⟩ := ihb hb
      refine ⟨.choose c' a' b', .choose hc' ha' hb', fun cfg got s => ?_⟩
      rw [eval, eval, hevalc]
      simp only [hevala, hevalb]
  | when c a ihc iha =>
    cases h with
    | when hc ha =>
      obtain ⟨c', hc', hevalc⟩ := ihc hc
      obtain ⟨a', ha', hevala⟩ := iha ha
      refine ⟨.when c' a', .when hc' ha', fun cfg got s => ?_⟩
      rw [eval, eval, hevalc]
      simp only [hevala]

end Meaning

end Aer.Machine.Expr

namespace Aer.Compiler

open Aer.Data Aer.Memory Aer.Machine Aer.Lib.Interaction

theorem Leaf.bracketAfter_token (a : Leaf) (n : Nat) : Lexer.bracketAfter n a.token.type = n := by
  cases a with
  | name b => rfl
  | constant p =>
    cases p with
    | boolean b => cases b <;> rfl
    | _ => rfl

/-- Behind an expression as many brackets are open as in front of it. -/
theorem bracketAfter_tokens (e : Expr Leaf) (n : Nat) :
    e.tokens.foldl (fun n t => Lexer.bracketAfter n t.type) n = n := by
  have hop (op : Opcode) (n : Nat) : Lexer.bracketAfter n (operatorToken op) = n := by cases op <;> rfl
  have hlogical (decisive : Bool) (n : Nat) : Lexer.bracketAfter n (logicalToken decisive) = n := by
    cases decisive <;> rfl
  induction e generalizing n with
  | operand a => exact a.bracketAfter_token n
  | group e ih =>
    simp only [Expr.tokens, List.cons_append, List.foldl_cons, List.foldl_append, List.foldl_nil, ih]
    rfl
  | unary op e ih =>
    cases op
    all_goals
      simp only [Expr.tokens, List.foldl_cons, List.foldl_append, List.foldl_nil, ih]
      rfl
  | binary op l r ihl ihr => simp only [Expr.tokens, List.foldl_cons, List.foldl_append, ihl, ihr, hop]
  | logical decisive l r ihl ihr => simp only [Expr.tokens, List.foldl_cons, List.foldl_append, ihl, ihr, hlogical]
  | choose c a b ihc iha ihb =>
    simp only [Expr.tokens, List.cons_append, List.foldl_cons, List.foldl_append, ihc, iha, ihb]
    rfl
  | when c a ihc iha =>
    simp only [Expr.tokens, List.cons_append, List.foldl_cons, List.foldl_append, ihc, iha]
    rfl

/-- `(1 + 2) * -3`, without its parentheses -/
def product : Expr Leaf :=
  .binary .mul (.binary .add (.operand (.constant (.integer 1))) (.operand (.constant (.integer 2))))
    (.unary .negate (.operand (.constant (.integer 3))))

end Aer.Compiler
