import Aer.Compiler.Balance
import Aer.Compiler.StringLiterals

set_option linter.all false

/-! Literals as defaults: what the parser takes a literal for in the position of a default and
in an expression, the ways from the pool to the omitted argument or field, and when the two
values are one. -/
namespace Aer.Compiler

open Aer.Data Aer.Memory Aer.Machine Aer.Lib.Interaction

/-! Which strings are decoded to themselves. -/

def isEscaped (c : UInt8) : Bool :=
  [byte 'n', byte 't', byte '\\', byte '"', byte '\x7b'].contains c

/-- Some backslash of the text is the beginning of an escape. -/
def hasEscape : Bytes → Bool
  | [] => false
  | [_] => false
  | c :: d :: rest => if c = byte '\\' then isEscaped d || hasEscape rest else hasEscape (d :: rest)

theorem unescapeByte_length (c : UInt8) :
    (unescapeByte c).length = if isEscaped c then 1 else 2 := by
  unfold unescapeByte isEscaped
  split <;> grind

theorem unescapeByte_plain {c : UInt8} (h : isEscaped c = false) : unescapeByte c = [byte '\\', c] := by
  unfold isEscaped at h
  unfold unescapeByte
  grind

theorem unescape_length_le (s : Bytes) : (unescape s).length ≤ s.length := by
  fun_induction unescape s with
  | case1 => exact le_rfl
  | case2 => exact le_rfl
  | case3 d rest ih =>
    have hlen := unescapeByte_length d
    simp only [List.length_append, List.length_cons]
    split at hlen <;> omega
  | case4 c d rest hne ih =>
    simp only [List.length_cons] at ih ⊢
    omega

theorem unescape_eq_iff (s : Bytes) : unescape s = s ↔ hasEscape s = false := by
  fun_induction unescape s with
  | case1 => exact iff_of_true rfl rfl
  | case2 => exact iff_of_true rfl rfl
  | case3 d rest ih =>
    rw [hasEscape, if_pos rfl, Bool.or_eq_false_iff]
    cases hd : isEscaped d with
    | true =>
      -- An escape that is decoded makes the text shorter.
      refine iff_of_false (fun h => ?_) (fun h => nomatch h.1)
      have hlen := congrArg List.length h
      have hle := unescape_length_le rest
      simp only [List.length_append, List.length_cons, unescapeByte_length, hd, if_true] at hlen
      omega
    | false =>
      rw [unescapeByte_plain hd]
      simpa using ih
  | case4 c d rest hne ih =>
    rw [hasEscape, if_neg hne, List.cons_inj_right]
    exact ih

/-! The literals. -/

/-- A literal of one token. -/
inductive Lit
  | integer (n : Int)
  | real (d : Double)
  | boolean (b : Bool)
  | null
  | string (raw : Bytes)

/-- The parser is at the token of the literal. A string has no name in braces. -/
def Lit.At : Lit → Parser → Prop
  | integer n, u => u.tokenType = .integer ∧ Parser.asInt u.heap u.tokenValue = some n ∧
      0 ≤ n ∧ n < 2 ^ 63
  | real d, u => u.tokenType = .real ∧ u.tokenValue = .real d
  | boolean b, u => (u.tokenType = .true ∨ u.tokenType = .false) ∧ u.tokenValue = .boolean b
  | null, u => u.tokenType = .null
  | string raw, u => AtString raw u ∧ 0 ∉ raw ∧ segmentLength raw = raw.length

def Lit.isNumber : Lit → Bool
  | integer _ | real _ => true
  | boolean _ | null | string _ => false

/-- A literal with its sign; only numbers have one. -/
structure Signed where
  negative : Bool
  lit : Lit
  number : negative = true → lit.isNumber = true

/-- The parser is at the sign of the literal, or at its token. -/
def Signed.At (l : Signed) (u : Parser) : Prop :=
  if l.negative then u.tokenType = .subtract ∧ l.lit.At u.lex else l.lit.At u

/-- The factory keeps a single NaN. -/
def oneNaN (d : Double) : Double := if d.isNaN then .nan else d

/-- What the literal is taken for as a default. -/
def Signed.default (l : Signed) : Plain :=
  match l.lit with
  | .integer n => .integer (if l.negative then -n else n)
  | .real d => .real (oneNaN (if l.negative then d.neg else d))
  | .boolean b => .boolean b
  | .null => .null
  | .string raw => .string raw

/-- What the literal without its sign is taken for in an expression. -/
def Signed.operand (l : Signed) : Plain :=
  match l.lit with
  | .integer n => .integer n
  | .real d => .real (oneNaN d)
  | .boolean b => .boolean b
  | .null => .null
  | .string raw => .string (if raw.length < 4096 then unescape raw else [])

/-- The instruction `OP_NEGATE`. -/
def Plain.negate : Plain → Plain
  | integer n => .integer (wrap64 (-n))
  | real d => .real (oneNaN d.neg)
  | p => p

/-- The entry that stands for a constant: a zero is shared with the other zero. -/
def served (pool : List AerVal) : Plain → Plain
  | .real d => .real (if d.magnitude = 0 ∧ AerVal.real d.neg ∈ pool then d.neg else d)
  | p => p

section Pooled
variable {s : Parser} {v : AerVal}

theorem addPool_real (s : Parser) (d : Double) : s.addPool (.real d) =
    match s.chunk.pool.findIdx? (Parser.samePoolVal s.heap · (.real d)) with
    | some i => (i, s)
    | none => (s.chunk.pool.length, s.setChunk { s.chunk with pool := s.chunk.pool ++ [.real d] }) :=
  rfl

theorem plain_of_content {h : Heap} {e : AerVal} {p : Plain} (he : content h e = .plain p) :
    plain h e = p := by
  cases e with
  | function c => cases he
  | _ => exact Content.plain.inj he

theorem content_literal {h : Heap} (hv : IsLiteral h v) : content h v = .plain (plain h v) := by
  cases v with
  | function c => exact hv.elim
  | _ => rfl

/-- The entry that is shared with a zero is a zero. -/
theorem real_of_samePoolVal {h : Heap} {e : AerVal} {d : Double}
    (he : Parser.samePoolVal h e (.real d) = true) : e = .real d ∨ (d.magnitude = 0 ∧ e = .real d.neg) := by
  cases e with
  | real x =>
    have hnan := ((beq_iff_key x d).mp he).1
    rcases (Double.beq_eq_true_iff hnan.1 hnan.2).mp he with rfl | ⟨hx, hd⟩
    · exact .inl rfl
    · rcases Double.eq_or_neg_of_zero hx hd with rfl | rfl
      · exact .inl rfl
      · exact .inr ⟨hd, rfl⟩
  | _ => cases he

theorem confused_real {h : Heap} {e : AerVal} {d : Double} :
    Confused h e (.real d) ↔ d.magnitude = 0 ∧ e = .real d.neg := by
  constructor
  · intro hc
    cases e with
    | real x =>
      obtain ⟨hx, hd, hne⟩ := hc
      exact ⟨hd, congrArg _ ((Double.eq_or_neg_of_zero hx hd).resolve_left hne)⟩
    | _ => cases hc
  · rintro ⟨hd, rfl⟩
    exact ⟨(Double.magnitude_neg d).trans hd, hd, Double.neg_ne d⟩

/-- What the pool has for a literal. -/
theorem entry_addPool (hs : Sound s.chunk s.heap) (hv : IsLiteral s.heap v) :
    ∃ e, (s.addPool v).2.chunk.pool[(s.addPool v).1]? = some e ∧
      content s.heap e = .plain (served s.chunk.pool (plain s.heap v)) := by
  have hserves := serves_addPool hs hv.constant
  obtain ⟨e, he, hiff⟩ := hserves.entry
  refine ⟨e, he, ?_⟩
  rw [content_literal hv] at hiff
  have hsame (hnot : ∀ e ∈ s.chunk.pool, ¬ Confused s.heap e v) :
      content s.heap e = .plain (plain s.heap v) := hiff.mpr hnot
  cases v with
  | real d =>
    by_cases hother : d.magnitude = 0 ∧ AerVal.real d.neg ∈ s.chunk.pool
    · simp only [plain, served, if_pos hother]
      have hneg : e = .real d.neg := by
        rw [addPool_real] at he
        split at he
        · next i hi =>
          obtain ⟨hlt, hshare, -⟩ := List.findIdx?_eq_some_iff_getElem.mp hi
          rw [List.getElem?_eq_getElem hlt, Option.some.injEq] at he
          rw [he] at hshare
          refine ((real_of_samePoolVal hshare).resolve_left fun hd => ?_).2
          subst hd
          exact hiff.mp rfl _ hother.2 (confused_real.mpr ⟨hother.1, rfl⟩)
        · next hi =>
          have hshare := List.findIdx?_eq_none_iff.mp hi _ hother.2
          rw [(samePoolVal_iff s.heap _ _).mpr (keys_of_confused
            (confused_real.mpr ⟨hother.1, rfl⟩))] at hshare
          cases hshare
      rw [hneg]
      rfl
    · simp only [plain, served, if_neg hother]
      refine hsame fun x hx hc => hother ?_
      obtain ⟨hd, rfl⟩ := confused_real.mp hc
      exact ⟨hd, hx⟩
  | function c => exact hv.elim
  | _ =>
    refine hsame fun x _ hc => ?_
    cases x <;> exact hc

end Pooled

/-! When the two are one. -/

/-- What the literal comes to in an expression. -/
def Signed.inExpression (pool : List AerVal) (l : Signed) : Plain :=
  if l.negative then (served pool l.operand).negate else served pool l.operand

/-- The literal is no long string and none with an escape, and a zero is taken for the other zero in both
positions or in none. -/
def Signed.Faithful (defaults exprs : List AerVal) (l : Signed) : Prop :=
  match l.lit with
  | .real d => d.magnitude = 0 →
      (AerVal.real (if l.negative then d.neg else d).neg ∈ defaults ↔ AerVal.real d.neg ∈ exprs)
  | .string raw => raw.length < 4096 ∧ hasEscape raw = false
  | _ => True

theorem oneNaN_of_zero {d : Double} (h : d.magnitude = 0) : oneNaN d = d := by
  rw [oneNaN, (key_of_isZero h).1]
  rfl

theorem magnitude_oneNaN {d : Double} (h : d.magnitude ≠ 0) : (oneNaN d).magnitude ≠ 0 := by
  unfold oneNaN
  split
  · exact fun h => absurd (key_of_isZero h).1 (by decide)
  · exact h

theorem oneNaN_neg (d : Double) : oneNaN (oneNaN d).neg = oneNaN d.neg := by
  unfold oneNaN
  rw [Double.isNaN_neg d]
  split
  · next hd => rfl
  · next hd => rw [Double.isNaN_neg, if_neg hd]

theorem served_of_ne_zero {pool : List AerVal} {d : Double} (h : d.magnitude ≠ 0) :
    served pool (.real d) = .real d :=
  congrArg Plain.real (if_neg fun hc => h hc.1)

theorem served_zero {pool : List AerVal} {d : Double} (h : d.magnitude = 0) :
    served pool (.real d) = .real (if AerVal.real d.neg ∈ pool then d.neg else d) := by
  simp only [served, h, true_and]

theorem wrap64_of_isLong {n : Int} (h : IsLong n) : wrap64 n = n := by
  obtain ⟨hlo, hhi⟩ := h
  unfold wrap64
  omega

/-- The value of a real default and of the real in an expression. -/
theorem real_eq_iff (defaults exprs : List AerVal) (negative : Bool) (d : Double) :
    served defaults (.real (oneNaN (if negative then d.neg else d))) =
        (if negative then (served exprs (.real (oneNaN d))).negate else served exprs (.real (oneNaN d))) ↔
      (d.magnitude = 0 →
        (AerVal.real (if negative then d.neg else d).neg ∈ defaults ↔ AerVal.real d.neg ∈ exprs)) := by
  have hmag : (if negative then d.neg else d).magnitude = d.magnitude := by
    cases negative
    · rfl
    · exact Double.magnitude_neg d
  by_cases hd : d.magnitude = 0
  · have hx := hmag.trans hd
    generalize hxd : (if negative = true then d.neg else d) = x at hx
    have hexpr : (if negative = true then (served exprs (.real (oneNaN d))).negate
        else served exprs (.real (oneNaN d))) =
        .real (if AerVal.real d.neg ∈ exprs then x.neg else x) := by
      rw [oneNaN_of_zero hd, served_zero hd]
      cases negative
      · rw [← hxd]
        rfl
      · rw [← hxd]
        simp only [if_true, Plain.negate]
        split
        · rw [Double.neg_neg, oneNaN_of_zero hd]
        · rw [oneNaN_of_zero ((Double.magnitude_neg d).trans hd)]
    rw [hexpr, oneNaN_of_zero hx, served_zero hx, Plain.real.injEq, imp_iff_right hd]
    have hne := Double.neg_ne x
    by_cases hs : AerVal.real x.neg ∈ defaults <;> by_cases he : AerVal.real d.neg ∈ exprs <;>
      simp [hs, he, hne, hne.symm]
  · refine iff_of_true ?_ fun h => absurd h hd
    rw [served_of_ne_zero (magnitude_oneNaN (hmag.trans_ne hd)), served_of_ne_zero (magnitude_oneNaN hd)]
    cases negative
    · rfl
    · exact congrArg Plain.real (oneNaN_neg d).symm

theorem faithful_iff {defaults exprs : List AerVal} {l : Signed}
    (hint : ∀ n, l.lit = .integer n → 0 ≤ n ∧ n < 2 ^ 63) :
    served defaults l.default = l.inExpression exprs ↔ l.Faithful defaults exprs := by
  obtain ⟨negative, lit, number⟩ := l
  have hplain (h : lit.isNumber = false) : negative = false :=
    Bool.eq_false_iff.mpr fun hn => by rw [number hn] at h; cases h
  cases lit with
  | integer n =>
    obtain ⟨hlo, hhi⟩ := hint n rfl
    refine iff_of_true ?_ trivial
    cases negative
    · rfl
    · exact congrArg Plain.integer (wrap64_of_isLong ⟨by omega, by omega⟩).symm
  | real d => exact real_eq_iff defaults exprs negative d
  | boolean b =>
    obtain rfl := hplain rfl
    exact iff_of_true rfl trivial
  | null =>
    obtain rfl := hplain rfl
    exact iff_of_true rfl trivial
  | string raw =>
    obtain rfl := hplain rfl
    change Plain.string raw = .string (if raw.length < 4096 then unescape raw else []) ↔
      raw.length < 4096 ∧ hasEscape raw = false
    rw [← unescape_eq_iff, Plain.string.injEq]
    split
    · next hlen => rw [eq_comm, and_iff_right hlen]
    · next hlen =>
      refine iff_of_false (fun h => ?_) fun h => hlen h.1
      rw [h] at hlen
      exact hlen (by decide)

/-! The parser at a literal. -/

/-- The parser with a number of levels of nesting more. -/
def Parser.deeper (s : Parser) (n : Nat) : Parser :=
  { s with ctx := { s.ctx with exprDepth := s.ctx.exprDepth + n } }

/-- The parser one level up. -/
def Parser.shallower (s : Parser) : Parser :=
  { s with ctx := { s.ctx with exprDepth := s.ctx.exprDepth - 1 } }

section Basic
variable {s t u : Parser} {v : AerVal}

theorem emits_refl (hs : Sound s.chunk s.heap) : Emits [] s s :=
  ⟨(List.append_nil _).symm, hs, List.prefix_rfl, .refl _ _⟩

/-- A step that leaves the chunk alone and only allocates. -/
theorem Emits.of_grows (hs : Sound s.chunk s.heap) (hchunk : t.chunk = s.chunk) (hg : HeapGrows s t) :
    Emits [] s t := by
  have hkeeps : KeepsPool s.chunk.pool s.heap t.heap := keepsPool_of_growsBut (hg hs.wf)
  exact ⟨by rw [hchunk, List.append_nil], hs.kept (hchunk ▸ rfl) (hchunk ▸ rfl) hkeeps,
    hchunk ▸ List.prefix_rfl, hkeeps⟩

theorem Emits.lex (hs : Sound s.chunk s.heap) : Emits [] s s.lex := .of_grows hs (lex_chunk s) (.lex s)

/-- A literal is the same after more has been allocated. -/
theorem literal_grows (hs : s.heap.PoolsWf) (hg : HeapGrows s t) (hv : IsLiteral s.heap v) :
    IsLiteral t.heap v ∧ plain t.heap v = plain s.heap v :=
  (keepsPool_of_growsBut (hg hs) : KeepsPool [v] _ _).literal List.mem_cons_self hv

theorem run_consume_of_ne {type : TokenType} (h : u.tokenType ≠ type) :
    (consume type).run execBasic u = .done false u := by
  change (if (u.tokenType == type) = true then _ else _ : P Bool).run execBasic u = _
  rw [if_neg (by simpa using h)]
  rfl

theorem run_consume_of_eq {type : TokenType} (h : u.tokenType = type) :
    (consume type).run execBasic u = .done true u.lex := by
  change (if (u.tokenType == type) = true then _ else _ : P Bool).run execBasic u = _
  rw [if_pos (by simpa using h)]
  rfl

theorem run_emitPush (hs : Sound s.chunk s.heap) (hv : IsLiteral s.heap v) :
    ∃ i t e, (emitPush v).run execBasic s = .done () t ∧ Emits (instructionWords .push [i]) s t ∧
      t.chunk.pool[i]? = some e ∧
      content t.heap e = .plain (served s.chunk.pool (plain s.heap v)) ∧ t.ctx = s.ctx := by
  let s₁ := s.setChunk (s.chunk.emitOp .push)
  have hpush : Emits [Opcode.push.word] s s₁ := (Compiles.emit hs _).toEmits
  have hv₁ : IsLiteral s₁.heap v := hv
  obtain ⟨e, he, hplain⟩ := entry_addPool hpush.sound hv₁
  have hserves := serves_addPool hpush.sound hv₁.constant
  obtain ⟨hctx, -, -, hcode⟩ := addPool_same s₁ v
  let s₂ := (s₁.addPool v).2
  have hpool : Emits [] s₁ s₂ := by
    refine ⟨by rw [hcode, List.append_nil], ?_, hserves.kept, ?_⟩
    · rw [hserves.heap]
      exact hserves.sound
    · rw [hserves.heap]
      exact .refl _ _
  let i := (s₁.addPool v).1
  have hemit : Emits [(i : Int)] s₂ (s₂.setChunk (s₂.chunk.emit i)) := (Compiles.emit hpool.sound _).toEmits
  refine ⟨i, _, e, rfl, (hpush.trans hpool).trans hemit, he, ?_, hctx⟩
  exact (congrArg (fun h => content h e) hserves.heap).trans hplain

/-- An entry of the pool is kept. -/
theorem Emits.entry {ws : List Int} (h : Emits ws s t) (hs : Sound s.chunk s.heap) {i : Nat} {e : AerVal}
    (he : s.chunk.pool[i]? = some e) :
    t.chunk.pool[i]? = some e ∧ content t.heap e = content s.heap e := by
  have hmem := List.mem_of_getElem? he
  obtain ⟨more, hmore⟩ := h.pool
  refine ⟨?_, (h.keeps.constant hmem (hs.constants e hmem)).2.1⟩
  rw [← hmore, List.getElem?_append_left (List.getElem?_eq_some_iff.mp he).1, he]

/-- The code pushes this constant. -/
structure Pushes (s t : Parser) (p : Plain) (i : Nat) : Prop where
  emits : Emits (instructionWords .push [i]) s t
  entry : ∃ e, t.chunk.pool[i]? = some e ∧ content t.heap e = .plain p
  ctx : t.ctx = s.ctx

theorem run_parseConstant (hs : Sound s.chunk s.heap) (hv : IsLiteral s.heap v) :
    ∃ i t, (parseConstant v).run execBasic s = .done () t ∧
      Pushes s t (served s.chunk.pool (plain s.heap v)) i := by
  obtain ⟨i, t, e, ht, hemits, he, hplain, hctx⟩ := run_emitPush hs hv
  have hlex := Emits.lex hemits.sound
  obtain ⟨he', hcontent⟩ := hlex.entry hemits.sound he
  refine ⟨i, t.lex, run_bind_done.mpr ⟨(), t, ht, rfl⟩, ?_, ⟨e, he', hcontent.trans hplain⟩,
    (lex_ctx t).trans hctx⟩
  have hall := hemits.trans hlex
  rwa [List.append_nil] at hall

theorem zero_not_mem_unescape {raw : Bytes} (h : 0 ∉ raw) : 0 ∉ unescape raw := by
  fun_induction unescape raw with
  | case1 => exact h
  | case2 => exact h
  | case3 d rest ih =>
    simp only [List.mem_cons, not_or] at h
    rw [List.mem_append, not_or]
    refine ⟨?_, ih h.2.2⟩
    unfold unescapeByte
    split
    · decide
    split
    · decide
    split <;> simp [h.2.1]
    decide
  | case4 c d rest hne ih =>
    rw [List.mem_cons, not_or] at h ⊢
    exact ⟨h.1, ih h.2⟩

/-- The constant of a string without names; one that is too long becomes the empty string. -/
theorem run_poolEscaped {raw : Bytes} (hzero : 0 ∉ raw) (hs : Sound s.chunk s.heap) :
    ∃ i t, (poolEscapedString raw).run execBasic s = .done i t ∧ Emits [] s t ∧ t.ctx = s.ctx ∧
      StringAt t i (if raw.length < 4096 then unescape raw else []) := by
  unfold poolEscapedString
  split
  · next hlen =>
    obtain ⟨i, t, ht, hc, hctx, -, -, hi⟩ := run_poolText (zero_not_mem_unescape hzero) hs
    exact ⟨i, t, ht, hc.toEmits, hctx, hi⟩
  · obtain ⟨i, t, ht, hc, hctx, -, -, hi⟩ := run_poolText (s := s.errorAt (bytes
      "String literal too long (max 4095 bytes)")) List.not_mem_nil hs
    exact ⟨i, t, ht, ⟨hc.code, hc.sound, hc.pool, hc.keeps⟩, hctx, hi⟩

theorem run_parseString_plain {raw : Bytes} {r : Parsers} (hu : AtString raw u) (hzero : 0 ∉ raw)
    (hplain : segmentLength raw = raw.length) (hs : Sound u.chunk u.heap) :
    ∃ i t, (parseString r).run execBasic u = .done () t ∧
      Pushes u t (.string (if raw.length < 4096 then unescape raw else [])) i := by
  obtain ⟨-, c, hvalue, hdata⟩ := hu
  have htext : execBasic .tokenText u = .done raw u := by
    rw [← hdata, execBasic, hvalue]
  let u₁ := u.setChunk (u.chunk.emitOp .push)
  have hpush : Emits [Opcode.push.word] u u₁ := (Compiles.emit hs _).toEmits
  obtain ⟨i, u₂, hu₂, hpool, hctx, c', hc', hdata'⟩ := run_poolEscaped hzero hpush.sound
  have hemit : Emits [(i : Int)] u₂ (u₂.setChunk (u₂.chunk.emit i)) := (Compiles.emit hpool.sound _).toEmits
  have hlex := Emits.lex hemit.sound
  obtain ⟨he, hcontent⟩ := hlex.entry hemit.sound hc'
  refine ⟨i, _, ?_, ?_, ⟨_, he, hcontent.trans ?_⟩, (lex_ctx _).trans hctx⟩
  · unfold parseString
    rw [run_bind, run_perform', htext, Outcome.done_andThen, if_neg (by rw [hplain]; exact lt_irrefl _),
      run_bind, show (emitOp .push : P Unit).run execBasic u = .done () u₁ from rfl, Outcome.done_andThen,
      run_bind, hu₂]
    rfl
  · have hall := ((hpush.trans hpool).trans hemit).trans hlex
    rwa [List.append_nil] at hall
  · exact congrArg (fun b => Content.plain (.string b)) hdata'

/-- The factory of integers. -/
theorem literal_aerInt {h : Heap} (hw : h.PoolsWf) (n : Int) :
    IsLiteral (h.aerInt n).2 (h.aerInt n).1 ∧ plain (h.aerInt n).2 (h.aerInt n).1 = .integer n := by
  unfold Heap.aerInt
  split
  · exact ⟨trivial, rfl⟩
  · refine ⟨(Pool.live_alloc hw.longs n _).mpr (.inl rfl), congrArg Plain.integer ?_⟩
    exact (congrFun (Pool.alloc_data h.longs n) _).trans (Function.update_self _ _ _)

theorem run_makeInt (n : Int) (hs : Sound s.chunk s.heap) :
    ∃ v t, (perform (.makeInt n)).run execBasic s = .done v t ∧ Emits [] s t ∧ t.chunk = s.chunk ∧
      t.ctx = s.ctx ∧ IsLiteral t.heap v ∧ plain t.heap v = .integer n := by
  obtain ⟨hlit, hplain⟩ := literal_aerInt hs.wf n
  exact ⟨_, _, rfl, .of_grows hs rfl (.of_grows fun hw => Heap.grows_aerInt hw n), rfl, rfl, hlit, hplain⟩

/-- The literal in an expression, without its sign. -/
theorem run_primaryInner {l : Lit} {r : Parsers} {functionExpr : P Unit} (hu : l.At u)
    (hs : Sound u.chunk u.heap) :
    ∃ i t, (parsePrimaryInner r functionExpr).run execBasic u = .done () t ∧
      Pushes u t (served u.chunk.pool (Signed.operand ⟨false, l, nofun⟩)) i := by
  have htoken {type : TokenType} (h : u.tokenType = type) : execBasic .token u = .done type u := by
    rw [execBasic, h]
  unfold parsePrimaryInner
  cases l with
  | integer n =>
    obtain ⟨htype, hn, -⟩ := hu
    have hint : execBasic .tokenInt u = .done n u := by
      rw [execBasic, hn]
      rfl
    obtain ⟨v, w, hw, hemits, hchunk, hctx, hv, hplain⟩ := run_makeInt n hs
    obtain ⟨i, t, ht, hpush⟩ := run_parseConstant hemits.sound hv
    rw [hplain, hchunk] at hpush
    refine ⟨i, t, ?_, ⟨?_, hpush.entry, hpush.ctx.trans hctx⟩⟩
    · rw [run_bind, run_perform', htoken htype, Outcome.done_andThen]
      dsimp only
      rw [run_bind, run_perform', hint, Outcome.done_andThen, run_bind, hw, Outcome.done_andThen]
      exact ht
    · have hall := hemits.trans hpush.emits
      rwa [List.nil_append] at hall
  | real d =>
    obtain ⟨htype, hd⟩ := hu
    have hreal : execBasic .tokenReal u = .done d u := by
      rw [execBasic, hd]
    obtain ⟨i, t, ht, hpush⟩ := run_parseConstant (v := aerReal d) hs trivial
    refine ⟨i, t, ?_, hpush⟩
    rw [run_bind, run_perform', htoken htype, Outcome.done_andThen]
    dsimp only
    rw [run_bind, run_perform', hreal, Outcome.done_andThen]
    exact ht
  | boolean b =>
    obtain ⟨htype, hb⟩ := hu
    have hbool : execBasic .tokenBool u = .done b u := by
      rw [execBasic, hb]
    obtain ⟨i, t, ht, hpush⟩ := run_parseConstant (v := aerBool b) hs trivial
    refine ⟨i, t, ?_, hpush⟩
    rcases htype with htype | htype <;>
    · rw [run_bind, run_perform', htoken htype, Outcome.done_andThen]
      dsimp only
      rw [run_bind, run_perform', hbool, Outcome.done_andThen]
      exact ht
  | null =>
    obtain ⟨i, t, ht, hpush⟩ := run_parseConstant (v := .null) hs trivial
    refine ⟨i, t, ?_, hpush⟩
    rw [run_bind, run_perform', htoken hu, Outcome.done_andThen]
    exact ht
  | string raw =>
    obtain ⟨hat, hzero, hplain⟩ := hu
    obtain ⟨i, t, ht, hpush⟩ := run_parseString_plain (r := r) hat hzero hplain hs
    refine ⟨i, t, ?_, hpush⟩
    rw [run_bind, run_perform', htoken hat.1, Outcome.done_andThen]
    exact ht

/-- A program one level deeper. -/
theorem run_nested {p : P Unit} (hdepth : s.ctx.exprDepth < exprDepthMax)
    (hp : p.run execBasic (s.deeper 1) = .done () t) :
    (nested p).run execBasic s = .done () (t.shallower) := by
  have henter : exprDepthEnter.run execBasic s = .done true (s.deeper 1) := by
    change ((if exprDepthMax ≤ s.ctx.exprDepth then _ else _ : P Bool).run execBasic s) = _
    rw [if_neg (Nat.not_le.mpr hdepth)]
    rfl
  exact run_bind_done.mpr ⟨true, _, henter, run_bind_done.mpr ⟨(), t, hp, rfl⟩⟩

theorem lex_withCtx (s : Parser) (c : Context) :
    ({ s with ctx := c } : Parser).lex = { s.lex with ctx := c } := by
  have hset (s : Parser) (v : Option Literal) :
      ({ s with ctx := c } : Parser).setLiteral v = { s.setLiteral v with ctx := c } := by
    cases v <;> rfl
  have hreports (rs : List Report) (s : Parser) :
      rs.foldl Parser.report { s with ctx := c } = { rs.foldl Parser.report s with ctx := c } := by
    induction rs generalizing s with
    | nil => rfl
    | cons r rs ih => exact ih (s.report r)
  unfold Parser.lex
  rw [← hset, ← hreports]

theorem Lit.At.withCtx {l : Lit} (h : l.At u) (c : Context) : l.At { u with ctx := c } := by
  cases l <;> exact h

/-- The token of a literal begins no unary expression. -/
theorem Lit.At.not_operator {l : Lit} (h : l.At u) :
    u.tokenType ≠ .not ∧ u.tokenType ≠ .bitwiseNot ∧ u.tokenType ≠ .subtract := by
  have hof {type : TokenType} (ht : u.tokenType = type)
      (hne : type ≠ .not ∧ type ≠ .bitwiseNot ∧ type ≠ .subtract) :
      u.tokenType ≠ .not ∧ u.tokenType ≠ .bitwiseNot ∧ u.tokenType ≠ .subtract := ht ▸ hne
  cases l with
  | integer n => exact hof h.1 (by decide)
  | real d => exact hof h.1 (by decide)
  | boolean b => exact h.1.elim (fun ht => hof ht (by decide)) fun ht => hof ht (by decide)
  | null => exact hof h (by decide)
  | string raw => exact hof h.1.1 (by decide)

/-- The literal without a sign as a unary expression. -/
theorem run_unary_plain {l : Lit} {k : Nat} (hu : l.At u) (hs : Sound u.chunk u.heap)
    (hdepth : u.ctx.exprDepth + 2 ≤ exprDepthMax) :
    ∃ i t, (parsers (k + 1)).unary.run execBasic u = .done () t ∧
      Pushes u t (served u.chunk.pool (Signed.operand ⟨false, l, nofun⟩)) i := by
  let r := parsers k
  let u₁ := u.deeper 1
  let u₂ := u.deeper 2
  obtain ⟨i, t, ht, hpush⟩ := run_primaryInner (r := r) (u := u₂)
    (hu.withCtx _) hs
  obtain ⟨hnot, hbits, hsub⟩ : u₁.tokenType ≠ .not ∧ u₁.tokenType ≠ .bitwiseNot ∧
      u₁.tokenType ≠ .subtract := hu.not_operator
  have hprimary : (parsePrimary r (parseFunctionExpr r)).run execBasic u₁ = .done () t.shallower :=
    run_nested (show u.ctx.exprDepth + 1 < exprDepthMax by omega) ht
  have hinner : (parseUnaryInner r (parseFunctionExpr r)).run execBasic u₁ = .done () t.shallower := by
    unfold parseUnaryInner
    rw [run_bind, run_consume_of_ne hnot, Outcome.done_andThen, if_neg (by decide), run_bind,
      run_consume_of_ne hbits, Outcome.done_andThen, if_neg (by decide), run_bind,
      run_consume_of_ne hsub, Outcome.done_andThen, if_neg (by decide), hprimary]
  have hemits := hpush.emits
  refine ⟨i, t.shallower.shallower, run_nested (by omega) hinner,
    ⟨hemits.code, hemits.sound, hemits.pool, hemits.keeps⟩, hpush.entry, ?_⟩
  unfold Parser.shallower
  dsimp only
  rw [hpush.ctx]
  rfl

/-- The code of the literal with its sign. -/
def Signed.words (l : Signed) (i : Nat) : List Int :=
  instructionWords .push [i] ++ if l.negative then instructionWords .negate [] else []

/-- The literal in an expression. -/
theorem run_unary_literal {l : Signed} {k : Nat} (hu : l.At u) (hs : Sound u.chunk u.heap)
    (hdepth : u.ctx.exprDepth + 3 ≤ exprDepthMax) :
    ∃ i t, (parsers (k + 2)).unary.run execBasic u = .done () t ∧ Emits (l.words i) u t ∧
      ∃ e, t.chunk.pool[i]? = some e ∧ content t.heap e = .plain (served u.chunk.pool l.operand) := by
  obtain ⟨negative, lit, number⟩ := l
  cases negative with
  | false =>
    obtain ⟨i, t, ht, hpush⟩ := run_unary_plain (k := k + 1) (u := u) (l := lit) hu hs (by omega)
    refine ⟨i, t, ht, ?_, hpush.entry⟩
    have hemits := hpush.emits
    rwa [← List.append_nil (instructionWords .push [i])] at hemits
  | true =>
    obtain ⟨htype, hlit⟩ := hu
    let u₁ := u.deeper 1
    have hlex : u₁.lex = { u.lex with ctx := u₁.ctx } := lex_withCtx u u₁.ctx
    have hs₁ : Emits [] u₁ u₁.lex := .lex hs
    have hdepth₁ : u₁.lex.ctx.exprDepth + 2 ≤ exprDepthMax := by
      rw [lex_ctx]
      exact hdepth
    obtain ⟨i, t, ht, hpush⟩ := run_unary_plain (k := k) (u := u₁.lex) (l := lit)
      (hlex ▸ hlit.withCtx u₁.ctx) hs₁.sound hdepth₁
    have hne {type : TokenType} (h : .subtract ≠ type) : u₁.tokenType ≠ type := by
      rw [show u₁.tokenType = .subtract from htype]
      exact h
    have hnegate : Emits [Opcode.negate.word] t (t.setChunk (t.chunk.emitOp .negate)) :=
      (Compiles.emit hpush.emits.sound _).toEmits
    have hinner : (parseUnaryInner (parsers (k + 1)) (parseFunctionExpr (parsers (k + 1)))).run execBasic u₁ =
        .done () (t.setChunk (t.chunk.emitOp .negate)) := by
      unfold parseUnaryInner
      rw [run_bind, run_consume_of_ne (hne (by decide)),
        Outcome.done_andThen, if_neg (by decide), run_bind,
        run_consume_of_ne (hne (by decide)),
        Outcome.done_andThen, if_neg (by decide), run_bind,
        run_consume_of_eq (show u₁.tokenType = .subtract from htype), Outcome.done_andThen, if_pos rfl,
        run_bind, ht]
      rfl
    have hemits := (hs₁.trans hpush.emits).trans hnegate
    refine ⟨i, _, run_nested (by omega) hinner, ⟨hemits.code, hemits.sound, hemits.pool, hemits.keeps⟩, ?_⟩
    obtain ⟨e, he, hplain⟩ := hpush.entry
    rw [lex_chunk] at hplain
    exact ⟨e, he, hplain⟩

/-- The value of a default, behind its sign. -/
def defaultValue (negative : Bool) : P (Option AerVal) := do
  match ← perform .token with
  | .integer => do
      let n ← perform .tokenInt
      pure (some (← perform (.makeInt (if negative then -n else n))))
  | .real => do
      let d ← perform .tokenReal
      pure (some (aerReal (if negative then d.neg else d)))
  | type => do
      if negative then pure none
      else
        match type with
        | .true | .false => pure (some (aerBool (← perform .tokenBool)))
        | .null => pure (some .null)
        | .string => pure (some (← perform (.makeString (← perform .tokenText))))
        | _ => pure none

theorem parseLiteralDefault_eq : parseLiteralDefault = (do
    let v ← defaultValue (← consume .subtract)
    if v.isSome then lex
    return v) := by
  unfold parseLiteralDefault defaultValue
  refine bind_congr fun negative => ?_
  rw [bind_assoc]
  refine bind_congr fun type => ?_
  cases type <;> cases negative <;> rfl

theorem run_defaultValue {l : Signed} (hu : l.lit.At u) (hs : Sound u.chunk u.heap) :
    ∃ v t, (defaultValue l.negative).run execBasic u = .done (some v) t ∧ Emits [] u t ∧
      IsLiteral t.heap v ∧ plain t.heap v = l.default := by
  obtain ⟨negative, lit, number⟩ := l
  have htoken {type : TokenType} (h : u.tokenType = type) : execBasic .token u = .done type u := by
    rw [execBasic, h]
  have hplain (h : lit.isNumber = false) : negative = false :=
    Bool.eq_false_iff.mpr fun hn => by rw [number hn] at h; cases h
  unfold defaultValue
  cases lit with
  | integer n =>
    obtain ⟨htype, hn, -⟩ := hu
    have hint : execBasic .tokenInt u = .done n u := by
      rw [execBasic, hn]
      rfl
    obtain ⟨v, w, hw, hemits, -, -, hv, hvalue⟩ := run_makeInt (if negative then -n else n) hs
    refine ⟨v, w, ?_, hemits, hv, hvalue⟩
    rw [run_bind, run_perform', htoken htype, Outcome.done_andThen]
    dsimp only
    rw [run_bind, run_perform', hint, Outcome.done_andThen, run_bind, hw]
    rfl
  | real d =>
    obtain ⟨htype, hd⟩ := hu
    have hreal : execBasic .tokenReal u = .done d u := by
      rw [execBasic, hd]
    refine ⟨aerReal (if negative then d.neg else d), u, ?_, emits_refl hs, trivial, rfl⟩
    rw [run_bind, run_perform', htoken htype, Outcome.done_andThen]
    dsimp only
    rw [run_bind, run_perform', hreal]
    rfl
  | boolean b =>
    obtain ⟨htype, hb⟩ := hu
    obtain rfl := hplain rfl
    have hbool : execBasic .tokenBool u = .done b u := by
      rw [execBasic, hb]
    refine ⟨aerBool b, u, ?_, emits_refl hs, trivial, rfl⟩
    rcases htype with htype | htype <;>
    · rw [run_bind, run_perform', htoken htype, Outcome.done_andThen]
      dsimp only
      rw [if_neg (by decide), run_bind, run_perform', hbool]
      rfl
  | null =>
    obtain rfl := hplain rfl
    refine ⟨.null, u, ?_, emits_refl hs, trivial, rfl⟩
    rw [run_bind, run_perform', htoken hu]
    rfl
  | string raw =>
    obtain rfl := hplain rfl
    obtain ⟨⟨htype, c, hvalue, hdata⟩, hzero, -⟩ := hu
    have htext : execBasic .tokenText u = .done raw u := by
      rw [← hdata, execBasic, hvalue]
    let t : Parser := { u with heap := (u.heap.aerMakeString raw).2 }
    have hraw := data_aerMakeString u.heap raw
    refine ⟨(u.heap.aerMakeString raw).1, t, ?_, .of_grows hs rfl (.of_grows fun hw =>
      Heap.grows_aerMakeString hw raw), ⟨(Pool.live_alloc hs.wf.strings raw _).mpr (.inl rfl), ?_⟩,
      congrArg Plain.string hraw⟩
    · rw [run_bind, run_perform', htoken htype, Outcome.done_andThen]
      dsimp only
      rw [if_neg (by decide), run_bind, run_perform', htext, Outcome.done_andThen, run_bind]
      rfl
    · intro b hb hb0
      have hb' : b ∈ (u.heap.aerMakeString raw).2.strings.data (u.heap.strings.alloc raw).1 := hb
      rw [hraw] at hb'
      exact hzero (hb0 ▸ hb')

/-- The literal as a default. -/
theorem run_literalDefault {l : Signed} (hu : l.At u) (hs : Sound u.chunk u.heap) :
    ∃ v t, parseLiteralDefault.run execBasic u = .done (some v) t ∧ Emits [] u t ∧
      IsLiteral t.heap v ∧ plain t.heap v = l.default := by
  have hend {s : Parser} (hl : l.lit.At s) (hs : Sound s.chunk s.heap) : ∃ v t,
      (do
        let v ← defaultValue l.negative
        if v.isSome then lex
        return v : P (Option AerVal)).run execBasic s = .done (some v) t ∧ Emits [] s t ∧
      IsLiteral t.heap v ∧ plain t.heap v = l.default := by
    obtain ⟨v, t, ht, hemits, hv, hplain⟩ := run_defaultValue hl hs
    obtain ⟨hv', hplain'⟩ := literal_grows hemits.sound.wf (.lex t) hv
    refine ⟨v, t.lex, ?_, hemits.trans (.lex hemits.sound), hv', hplain'.trans hplain⟩
    exact run_bind_done.mpr ⟨some v, t, ht, rfl⟩
  rw [parseLiteralDefault_eq]
  unfold Signed.At at hu
  split at hu
  · next hneg =>
    have hlex := Emits.lex hs
    obtain ⟨v, t, ht, hemits, hv, hplain⟩ := hend hu.2 hlex.sound
    refine ⟨v, t, ?_, hlex.trans hemits, hv, hplain⟩
    rw [hneg] at ht
    rw [run_bind, run_consume_of_eq hu.1, Outcome.done_andThen, ht]
  · next hpos =>
    obtain ⟨-, -, hsub⟩ := hu.not_operator
    obtain ⟨v, t, ht, hemits, hv, hplain⟩ := hend hu hs
    refine ⟨v, t, ?_, hemits, hv, hplain⟩
    rw [Bool.not_eq_true] at hpos
    rw [hpos] at ht
    rw [run_bind, run_consume_of_ne hsub, Outcome.done_andThen, ht]

end Basic

/-! The machine that runs the code. -/

/-- The machine has the constants of the parser. -/
def Carries (t : Parser) (s : State) : Prop :=
  ∀ (i : Nat) (e : AerVal), t.chunk.pool[i]? = some e → s.chunk.pool[i]? = some e ∧
    IsConstant s.chunk.pool s.heap e ∧ content s.heap e = content t.heap e

end Aer.Compiler

namespace Aer.Machine

open Aer.Data Aer.Memory Aer.Lib.Interaction
open Aer.Compiler (Plain plain content IsLiteral IsConstant Signed literal_aerInt plain_of_content)

section Literals
variable {cfg : Config} {site : Nat → Nat} {s t x : State} {vs : List AerVal} {v : AerVal}

/-- A machine about to run this code. -/
structure AboutToRun (site : Nat → Nat) (ws : List Int) (s : State) : Prop where
  names : NamesLive s
  clear : s.runtimeHadError = false
  room : s.vm.stackTop < vmStackMax
  caches : CachesAgree site s
  code : CodeAt s s.vm.ip ws

/-- The factory of integers in the machine. -/
theorem run_newInt (cfg : Config) (h : At site s t x vs) (ht : NamesLive t) (n : Int) :
    ∃ u y w, (perform (.newInt n)).run (exec cfg) x = .done w y ∧ At site s u y vs ∧
      plain u.heap w = .integer n ∧ u.runtimeHadError = t.runtimeHadError := by
  have hrun := run_values cfg (ValueOnly.perform (o := .newInt n) rfl) ht h
  rw [show (perform (.newInt n)).run (exec cfg) t =
    .done (t.heap.aerInt n).1 { t with heap := (t.heap.aerInt n).2 } from rfl] at hrun
  obtain ⟨-, y, hy, hat, -⟩ := hrun
  exact ⟨_, y, _, hy, hat, (literal_aerInt ht.pools n).2, rfl⟩

/-- `OP_NEGATE` behind its operand. -/
def negateValue (v : AerVal) : Handler Unit :=
  match v with
  | .integer _ | .long _ => do push (← perform (.newInt (wrap64 (-(← perform (.asInt v))))))
  | .real d => push (aerReal d.neg)
  | _ => errorNull (bytes "Negation requires a numeric type")

variable (cfg) in
theorem run_negate (h : At site s t x (vs ++ [v])) (ht : NamesLive t) (hv : IsLiteral t.heap v)
    (hnumber : (∃ n, plain t.heap v = .integer n) ∨ ∃ d, plain t.heap v = .real d)
    (hroom : s.vm.stackTop + vs.length < vmStackMax)
    (hcode : CodeAt x x.vm.ip (instructionWords .negate [])) :
    ∃ u y w, instruction.run (exec cfg) x = .done () y ∧ At site s u y (vs ++ [w]) ∧
      plain u.heap w = (plain t.heap v).negate ∧ u.runtimeHadError = t.runtimeHadError := by
  obtain ⟨y, hy, hat, hip⟩ := (h.atIp (x.vm.ip + 1)).pop cfg vs
  have hrun : instruction.run (exec cfg) x = (negateValue v).run (exec cfg) y := by
    rw [run_instruction hcode]
    change (pop >>= negateValue).run (exec cfg) (x.atIp (x.vm.ip + 1)) = _
    rw [run_bind, hy, Outcome.done_andThen]
  have hint {n : Int} (hn : t.asInt v = some n) : ∃ u y' w,
      (do push (← perform (.newInt (wrap64 (-(← perform (.asInt v)))))) : Handler Unit).run
        (exec cfg) y = .done () y' ∧ At site s u y' (vs ++ [w]) ∧
      plain u.heap w = .integer (wrap64 (-n)) ∧ u.runtimeHadError = t.runtimeHadError := by
    have hasInt : exec cfg (.asInt v) y = .done n y := by
      have hcore : y.asInt v = t.asInt v := congrArg (fun s => s.asInt v) hat.core
      simp only [exec]
      rw [hcore, hn]
      rfl
    obtain ⟨u, z, w, hz, hatz, hplain, herror⟩ := run_newInt cfg hat ht (wrap64 (-n))
    obtain ⟨y', hy', haty', -⟩ := hatz.push cfg hroom w
    refine ⟨u, y', w, ?_, haty', hplain, herror⟩
    rw [run_bind, perform, run_perform, hasInt, Outcome.done_andThen, run_bind, hz,
      Outcome.done_andThen, hy']
  rw [hrun]
  cases v with
  | integer n => exact hint rfl
  | long c => exact hint (if_pos hv)
  | real d =>
    obtain ⟨y', hy', haty', -⟩ := hat.push cfg hroom (aerReal d.neg)
    exact ⟨t, y', _, hy', haty', rfl, rfl⟩
  | _ => rcases hnumber with ⟨n, hn⟩ | ⟨d, hd⟩ <;> contradiction

variable (cfg) in
/-- What the code of a literal leaves on the stack. -/
theorem run_literalCode {l : Signed} {i : Nat} {e : AerVal} {p : Plain}
    (hready : AboutToRun site (l.words i) s) (he : s.chunk.pool[i]? = some e)
    (hlit : IsConstant s.chunk.pool s.heap e) (hp : content s.heap e = .plain p)
    (hnumber : l.negative = true → (∃ n, p = .integer n) ∨ ∃ d, p = .real d) :
    ∃ z y w, Proceeds cfg (if l.negative then 2 else 1) s y ∧ At site s z y [w] ∧
      plain z.heap w = if l.negative then p.negate else p := by
  have hplain := plain_of_content hp
  have hstart : At site s s s [] :=
    ⟨rfl, ⟨rfl, fun _ _ => rfl, fun i hi => nomatch hi⟩, hready.caches, rfl⟩
  have hload := run_load cfg hstart (.const i) trivial hready.room hready.code.left
  rw [show (Operand.const i).got s = .value e by simp only [Operand.got, he]; rfl] at hload
  obtain ⟨y, hy, hat, hip⟩ := hload
  have hno : y.runtimeHadError = false := (hadError_of_core hat.core).trans hready.clear
  cases hneg : l.negative with
  | false => exact ⟨s, y, e, .one hy hno, hat, hplain⟩
  | true =>
    have hcode := hready.code.right
    rw [hneg] at hcode
    have hcodey : CodeAt y y.vm.ip (instructionWords .negate []) := by
      rw [hip]
      exact hcode.of_code (code_of_core hat.core)
    have hliteral : IsLiteral s.heap e := by
      cases e with
      | function c => cases hp
      | _ => exact hlit
    obtain ⟨z, w, r, hw, hatw, hnegate, herror⟩ := run_negate cfg hat hready.names hliteral
      (hplain ▸ hnumber hneg) hready.room hcodey
    have hnow : w.runtimeHadError = false :=
      (hadError_of_core hatw.core).trans (herror.trans hready.clear)
    refine ⟨z, w, r, (Proceeds.one hy hno).trans (.one hw hnow), hatw, ?_⟩
    rw [hnegate, hplain]
    rfl

/-! What becomes of the defaults: the shape of a struct, and a function. -/

/-- The words behind the count of an `OP_DEFINE_STRUCT`. -/
def fieldWords : List (Nat × AerVal) → List Nat → List Int
  | f :: fields, i :: is => (f.1 : Int) :: (i : Int) :: fieldWords fields is
  | _, _ => []

variable (cfg) in
theorem run_readFields {fields : List (Nat × AerVal)} {is : List Nat} {x : State} {pool : List AerVal}
    (hsame : x.chunk.pool = pool) (hpool : List.Forall₂ (fun f i => pool[i]? = some f.2) fields is)
    (hcode : CodeAt x x.vm.ip (fieldWords fields is)) :
    ∃ ip, (readFields fields.length).run (exec cfg) x = .done fields (x.atIp ip) := by
  induction hpool generalizing x with
  | nil => exact ⟨x.vm.ip, rfl⟩
  | @cons f i fields is hf hpool ih =>
    have hentry : exec cfg (.constant i) (x.atIp (x.vm.ip + 2)) = .done f.2 (x.atIp (x.vm.ip + 2)) := by
      change orFault x.chunk.pool[i]? _ = _
      rw [hsame, hf]
      rfl
    have hrest : CodeAt (x.atIp (x.vm.ip + 2)) (x.vm.ip + 2) (fieldWords fields is) := hcode.tail.tail
    obtain ⟨ip, hip⟩ := ih (x := x.atIp (x.vm.ip + 2)) hsame hrest
    have hargs : CodeAt (x.atIp (x.vm.ip + 1)) (x.vm.ip + 1) ((i : Int) :: fieldWords fields is) := hcode.tail
    refine ⟨ip, ?_⟩
    rw [List.length_cons, readFields, run_arg hcode, run_arg hargs]
    change ((perform (.constant i)) >>= _).run (exec cfg) (x.atIp (x.vm.ip + 2)) = _
    rw [run_bind, perform, run_perform, hentry, Outcome.done_andThen, run_bind, hip]
    rfl

/-- The shape that the instruction defines has the constants as its defaults. -/
theorem run_defineStruct {name : Nat} {fields : List (Nat × AerVal)} {is : List Nat} {x : State}
    (hpool : List.Forall₂ (fun f i => x.chunk.pool[i]? = some f.2) fields is)
    (hcode : CodeAt x x.vm.ip (instructionWords .defineStruct [name, fields.length] ++ fieldWords fields is)) :
    ∃ y, instruction.run (exec cfg) x = .done () y ∧
      y.heap.shapes = x.heap.shapes ++ [⟨name, fields⟩] := by
  have hargs : CodeAt (x.atIp (x.vm.ip + 1)) (x.vm.ip + 1)
      ((name : Int) :: (fields.length : Int) :: fieldWords fields is) := hcode.tail
  have hcount : CodeAt (x.atIp (x.vm.ip + 2)) (x.vm.ip + 2)
      ((fields.length : Int) :: fieldWords fields is) := hargs.tail
  have hfields : CodeAt (x.atIp (x.vm.ip + 3)) (x.vm.ip + 3) (fieldWords fields is) := hcount.tail
  obtain ⟨ip, hip⟩ := run_readFields cfg (x := x.atIp (x.vm.ip + 3)) rfl hpool hfields
  let y : State :=
    { (x.atIp ip) with
      heap := { x.heap with shapes := x.heap.shapes ++ [⟨name, fields⟩] }
      chunk := { x.chunk with shapes := x.chunk.shapes ++ [x.heap.shapes.length] } }
  refine ⟨y, ?_, rfl⟩
  rw [run_instruction hcode]
  change lblDefineStruct.run (exec cfg) (x.atIp (x.vm.ip + 1)) = _
  unfold lblDefineStruct
  rw [run_arg hargs]
  change ((perform .readIdx) >>= _).run (exec cfg) (x.atIp (x.vm.ip + 2)) = _
  rw [run_arg hcount]
  change ((readFields fields.length) >>= _).run (exec cfg) (x.atIp (x.vm.ip + 3)) = _
  rw [run_bind, hip]
  rfl

/-- An instance has the defaults of its shape for the fields that are left out. -/
theorem run_construct {name : Bytes} {id : Nat} {args : List AerVal} {shape : Shape} {x : State}
    (hid : x.heap.shapes[id]? = some shape) (hargs : args.length ≤ shape.fields.length) :
    ∃ c y, (construct name id args).run (exec cfg) x = .done (.array c) y ∧
      (y.heap.arrays.data c).items = args ++ (shape.fields.drop args.length).map Prod.snd := by
  have hshape : exec cfg (.shape id) x = .done shape x := by
    change orFault x.heap.shapes[id]? x = _
    rw [hid]
    rfl
  let a : AerArray := ⟨args ++ (shape.fields.drop args.length).map Prod.snd, shape.fields.length, some id⟩
  refine ⟨(x.heap.arrays.alloc a).1, { x with heap := (x.heap.newArray a).2 }, ?_, ?_⟩
  · unfold construct
    rw [run_bind, perform, run_perform, hshape, Outcome.done_andThen]
    dsimp only
    rw [if_neg (Nat.not_lt.mpr hargs)]
    rfl
  · have hdata := congrFun (Pool.alloc_data x.heap.arrays a) (x.heap.arrays.alloc a).1
    rw [Function.update_self] at hdata
    exact congrArg AerArray.items hdata

variable (cfg) in
theorem run_readConstants {vs : List AerVal} {is : List Nat} {x : State} {pool : List AerVal}
    (hsame : x.chunk.pool = pool) (hpool : List.Forall₂ (fun v i => pool[i]? = some v) vs is)
    (hcode : CodeAt x x.vm.ip (is.map fun i => (i : Int))) :
    ∃ ip, (readConstants vs.length).run (exec cfg) x = .done vs (x.atIp ip) := by
  induction hpool generalizing x with
  | nil => exact ⟨x.vm.ip, rfl⟩
  | @cons v i vs is hv hpool ih =>
    have hentry : exec cfg (.constant i) (x.atIp (x.vm.ip + 1)) = .done v (x.atIp (x.vm.ip + 1)) := by
      change orFault x.chunk.pool[i]? _ = _
      rw [hsame, hv]
      rfl
    have hrest : CodeAt (x.atIp (x.vm.ip + 1)) (x.vm.ip + 1) (is.map fun i => (i : Int)) := hcode.tail
    obtain ⟨ip, hip⟩ := ih (x := x.atIp (x.vm.ip + 1)) hsame hrest
    refine ⟨ip, ?_⟩
    rw [List.length_cons, readConstants, run_arg hcode, run_bind, perform, run_perform, hentry,
      Outcome.done_andThen, run_bind, hip]
    rfl

/-- A closure has the constants as its defaults. -/
theorem run_makeClosure {codeOffset arity minArity hasReceiver receiverType upvalueCount : Nat}
    {vs : List AerVal} {is : List Nat} {x : State}
    (hpool : List.Forall₂ (fun v i => x.chunk.pool[i]? = some v) vs is) (hlen : vs.length = arity - minArity)
    (hcode : CodeAt x x.vm.ip (instructionWords .makeClosure
      [codeOffset, arity, minArity, hasReceiver, receiverType, upvalueCount] ++ is.map fun i => (i : Int)))
    (hups : upvalueCount ≤ x.vm.pendingUpvalueCount) (hroom : x.vm.stackTop < vmStackMax) :
    ∃ y c, instruction.run (exec cfg) x = .done () y ∧ y.vm.stack x.vm.stackTop = .function c ∧
      (y.heap.functions.data c).defaults = vs ∧ (y.heap.functions.data c).minArity = minArity ∧
      (y.heap.functions.data c).arity = arity := by
  have h1 := CodeAt.tail hcode
  have h2 := h1.tail
  have h3 := h2.tail
  have h4 := h3.tail
  have h5 := h4.tail
  have h6 := h5.tail
  have h7 := h6.tail
  let w : State := { x.atIp (x.vm.ip + 7) with vm := { (x.atIp (x.vm.ip + 7)).vm with pendingUpvalueCount := 0 } }
  obtain ⟨ip, hip⟩ := run_readConstants cfg (x := w) rfl hpool h7
  let f : AerFunction :=
    { codeOffset, arity, minArity, defaults := vs, hasReceiver := hasReceiver != 0, receiverType
      upvalues := (List.range upvalueCount).map x.vm.pendingUpvalues }
  have htake : exec cfg (.takeUpvalues upvalueCount) (x.atIp (x.vm.ip + 7)) = .done f.upvalues w :=
    if_pos hups
  let c := (x.heap.functions.alloc f).1
  have hdata : (x.heap.functions.alloc f).2.data c = f :=
    (congrFun (Pool.alloc_data x.heap.functions f) c).trans (Function.update_self _ _ _)
  let z : State := { w.atIp ip with heap := (x.heap.newFunction f).2 }
  let y : State :=
    { z with vm := { z.vm.setStack z.vm.stackTop (.function c) with stackTop := z.vm.stackTop + 1 } }
  have hpush : (push (.function c)).run (exec cfg) z = .done () y := by
    have hz : z.push (.function c) = .done () y := if_pos hroom
    exact (run_perform _ _ _).trans hz
  refine ⟨y, c, ?_, ?_, congrArg AerFunction.defaults hdata, congrArg AerFunction.minArity hdata,
    congrArg AerFunction.arity hdata⟩
  · rw [run_instruction hcode]
    change lblMakeClosure.run (exec cfg) (x.atIp (x.vm.ip + 1)) = _
    unfold lblMakeClosure
    rw [run_arg h1]
    change ((perform .readIdx) >>= _).run (exec cfg) (x.atIp (x.vm.ip + 2)) = _
    rw [run_arg h2]
    change ((perform .readIdx) >>= _).run (exec cfg) (x.atIp (x.vm.ip + 3)) = _
    rw [run_arg h3]
    change ((perform .readIdx) >>= _).run (exec cfg) (x.atIp (x.vm.ip + 4)) = _
    rw [run_arg h4]
    change ((perform .readIdx) >>= _).run (exec cfg) (x.atIp (x.vm.ip + 5)) = _
    rw [run_arg h5]
    change ((perform .readIdx) >>= _).run (exec cfg) (x.atIp (x.vm.ip + 6)) = _
    rw [run_arg h6]
    change ((perform (.takeUpvalues upvalueCount)) >>= _).run (exec cfg) (x.atIp (x.vm.ip + 7)) = _
    rw [run_bind, perform, run_perform, htake, Outcome.done_andThen, ← hlen, run_bind, hip,
      Outcome.done_andThen]
    exact hpush
  · exact Function.update_self _ _ _

end Literals

end Aer.Machine

namespace Aer.Compiler

open Aer.Data Aer.Memory Aer.Machine Aer.Lib.Interaction

/-! The ways of a default into the pool. -/

/-- The default read at `u` enters the pool at `t`. -/
def Defaulted (exec : Exec Op Op.Ans Parser Stop) (u t : Parser) (v : AerVal) : Prop :=
  ∃ w, parseLiteralDefault.run exec u = .done (some v) w ∧ HeapGrows w t

section Routes
variable {env : Env} {fuel imports : Nat} {s t : Parser}

/-- A parameter's default is its entry in the pool. -/
theorem run_parseParamDefault {l l' : ParamList} (hassign : s.tokenType = .assign)
    (h : (parseParamDefault l).run (exec env fuel imports) s = .done (some l') t) :
    ∃ v w, Defaulted (exec env fuel imports) s.lex w v ∧ t = (w.addPool v).2 ∧
      l' = { l with defaults := l.defaults ++ [(w.addPool v).1] } := by
  unfold parseParamDefault at h
  rw [run_bind, run_of_basic env fuel imports (run_consume_of_eq hassign), Outcome.done_andThen,
    if_pos rfl] at h
  obtain ⟨v, w, hv, h⟩ := run_bind_done.mp h
  cases v with
  | none =>
    obtain ⟨_, _, _, h⟩ := run_bind_done.mp h
    cases h
  | some v =>
    obtain ⟨i, x, hx, h⟩ := run_bind_done.mp h
    unfold addPool at hx
    rw [run_perform', exec_basic env fuel imports (by simp)] at hx
    cases hx
    cases h
    exact ⟨v, w, ⟨w, hv, .of_eq rfl⟩, rfl, rfl⟩

theorem heapGrows_run (hrun : env.RunsGrow) {α : Type} {p : P α} {a : α}
    (h : p.run (exec env fuel imports) s = .done a t) : HeapGrows s t :=
  run_invariant (I := HeapGrows s) h (.of_eq rfl) fun o u a v hu ho =>
    hu.trans (heapGrows_exec hrun fuel imports o u a v ho)

theorem Defaulted.later {u : Parser} {v : AerVal} (h : Defaulted (exec env fuel imports) u s v)
    (hst : HeapGrows s t) : Defaulted (exec env fuel imports) u t v := by
  obtain ⟨w, hw, hgrows⟩ := h
  exact ⟨w, hw, hgrows.trans hst⟩

/-- Every field has a default of its own, or null. -/
def FieldsDefaulted (exec : Exec Op Op.Ans Parser Stop) (fields : List (Nat × AerVal)) (t : Parser) : Prop :=
  ∀ f ∈ fields, f.2 = .null ∨ ∃ u, Defaulted exec u t f.2

theorem FieldsDefaulted.later {fields : List (Nat × AerVal)}
    (h : FieldsDefaulted (exec env fuel imports) fields s) (hst : HeapGrows s t) :
    FieldsDefaulted (exec env fuel imports) fields t := by
  intro f hf
  obtain hnull | ⟨u, hu⟩ := h f hf
  · exact .inl hnull
  · exact .inr ⟨u, hu.later hst⟩

/-- One turn of the loop over the fields. -/
def fieldTurn (fields : List (Nat × AerVal)) :
    P (List (Nat × AerVal) ⊕ Option (List (Nat × AerVal))) := do
  if [TokenType.endOfFile, .dedent].contains (← perform .token) then return .inr (some fields)
  else if ← consume .newLine then return .inl fields
  else if ← equal .identifier then
    if maxStructFields ≤ fields.length then
      errorAt "Too many struct fields"
      return .inr none
    else
      let name ← poolToken
      lex
      let dflt ← if ← consume .assign then parseLiteralDefault else pure (some .null)
      match dflt with
      | none =>
          errorAt "Struct field defaults must be a literal value"
          return .inr none
      | some dflt =>
          unless [TokenType.dedent, .endOfFile].contains (← perform .token) do
            require .newLine "expected newline after struct field"
          return .inl (fields ++ [(name, dflt)])
  else
    errorAt "Expected field name"
    return .inr none

/-- The fields a turn goes on with, or ends with. -/
def TurnDefaulted (exec : Exec Op Op.Ans Parser Stop)
    (next : List (Nat × AerVal) ⊕ Option (List (Nat × AerVal))) (t : Parser) : Prop :=
  match next with
  | .inl fields | .inr (some fields) => FieldsDefaulted exec fields t
  | .inr none => True

theorem run_fieldTurn (hrun : env.RunsGrow) {fields : List (Nat × AerVal)}
    {next : List (Nat × AerVal) ⊕ Option (List (Nat × AerVal))}
    (h : (fieldTurn fields).run (exec env fuel imports) s = .done next t)
    (hfields : FieldsDefaulted (exec env fuel imports) fields s) :
    TurnDefaulted (exec env fuel imports) next t := by
  have hgrows := hfields.later (heapGrows_run hrun h)
  unfold fieldTurn at h
  obtain ⟨type, u₁, hu₁, h⟩ := run_bind_done.mp h
  split at h
  · cases h
    exact hgrows
  obtain ⟨newLine, u₂, hu₂, h⟩ := run_bind_done.mp h
  split at h
  · cases h
    exact hgrows
  obtain ⟨name, u₃, hu₃, h⟩ := run_bind_done.mp h
  split at h
  · split at h
    · obtain ⟨_, _, _, h⟩ := run_bind_done.mp h
      cases h
      trivial
    · obtain ⟨name, u₄, hu₄, h⟩ := run_bind_done.mp h
      obtain ⟨_, u₅, hu₅, h⟩ := run_bind_done.mp h
      obtain ⟨assigned, u₆, hu₆, h⟩ := run_bind_done.mp h
      have hsome {dflt : AerVal} {u₇ : Parser}
          (hdflt : dflt = .null ∨ ∃ u, Defaulted (exec env fuel imports) u u₇ dflt)
          (h : (do
            unless [TokenType.dedent, .endOfFile].contains (← perform .token) do
              require .newLine "expected newline after struct field"
            return .inl (fields ++ [(name, dflt)]) :
              P (List (Nat × AerVal) ⊕ Option (List (Nat × AerVal)))).run (exec env fuel imports) u₇ =
            .done next t) :
          TurnDefaulted (exec env fuel imports) next t := by
        have hend : next = .inl (fields ++ [(name, dflt)]) := by
          obtain ⟨type, u₈, hu₈, h⟩ := run_bind_done.mp h
          split at h
          · cases h
            rfl
          · obtain ⟨_, _, _, h⟩ := run_bind_done.mp h
            cases h
            rfl
        subst hend
        have hlast := heapGrows_run hrun h
        refine List.forall_mem_append.mpr ⟨hgrows, fun f hf => ?_⟩
        obtain rfl := List.mem_singleton.mp hf
        exact hdflt.imp id fun ⟨u, hu⟩ => ⟨u, hu.later hlast⟩
      split at h
      · obtain ⟨dflt, u₇, hu₇, h⟩ := run_bind_done.mp h
        cases dflt with
        | none =>
          obtain ⟨_, _, _, h⟩ := run_bind_done.mp h
          cases h
          trivial
        | some dflt => exact hsome (.inr ⟨u₆, u₇, hu₇, .of_eq rfl⟩) h
      · exact hsome (.inl rfl) h
  · obtain ⟨_, _, _, h⟩ := run_bind_done.mp h
    cases h
    trivial

theorem run_parseFields (hrun : env.RunsGrow) {r : Parsers} {fields : List (Nat × AerVal)}
    (h : (parseFields r).run (exec env fuel imports) s = .done (some fields) t) :
    FieldsDefaulted (exec env fuel imports) fields t := by
  have hloop (n : Nat) (start : List (Nat × AerVal)) (s : Parser)
      (hstart : FieldsDefaulted (exec env fuel imports) start s)
      (h : (loop fieldTurn n start).run (exec env fuel imports) s = .done (some fields) t) :
      FieldsDefaulted (exec env fuel imports) fields t := by
    induction n generalizing start s with
    | zero =>
      unfold loop stuck at h
      obtain ⟨e, _, _, _⟩ := run_bind_done.mp h
      exact e.elim
    | succ n ih =>
      obtain ⟨next, u, hu, h⟩ := run_bind_done.mp h
      have hnext := run_fieldTurn hrun hu hstart
      cases next with
      | inl fields' => exact ih fields' u hnext h
      | inr fields' =>
        cases h
        exact hnext
  exact hloop r.fuel [] s (fun f hf => absurd hf List.not_mem_nil) h

theorem pool_addPool (s : Parser) (v : AerVal) : s.chunk.pool <+: (s.addPool v).2.chunk.pool := by
  unfold Parser.addPool
  cases v <;> dsimp only <;> split <;>
    first
      | exact List.prefix_rfl
      | exact List.prefix_append _ _

/-- The constants of the fields are requested one after the other. -/
theorem run_emitFields {fields : List (Nat × AerVal)}
    (h : (emitFields fields).run (exec env fuel imports) s = .done () t) :
    s.chunk.pool <+: t.chunk.pool ∧ ∃ is, t.chunk.code = s.chunk.code ++ fieldWords fields is ∧
      List.Forall₂ (fun f i => ∃ u, HeapGrows s u ∧ (u.addPool f.2).1 = i ∧
        (u.addPool f.2).2.chunk.pool <+: t.chunk.pool) fields is := by
  have hbasic {o : Op} (ho : ∀ name path, o ≠ .addImport name path) (s : Parser) :=
    exec_basic env fuel imports ho s
  induction fields generalizing s with
  | nil =>
    cases h
    exact ⟨List.prefix_rfl, [], (List.append_nil _).symm, .nil⟩
  | cons f fields ih =>
    obtain ⟨name, dflt⟩ := f
    obtain ⟨_, u, hu, h⟩ := run_bind_done.mp h
    unfold emitNat emit at hu
    rw [run_perform', hbasic (by simp)] at hu
    cases hu
    obtain ⟨i, v, hv, h⟩ := run_bind_done.mp h
    unfold addPool at hv
    rw [run_perform', hbasic (by simp)] at hv
    cases hv
    obtain ⟨_, w, hw, h⟩ := run_bind_done.mp h
    unfold emitNat emit at hw
    rw [run_perform', hbasic (by simp)] at hw
    cases hw
    let x := s.setChunk (s.chunk.emit name)
    obtain ⟨hpool, is, hcode, hfields⟩ := ih h
    have hsame := (addPool_same x dflt).2.2.2
    have hheap : (x.addPool dflt).2.heap = s.heap := HeapGrows.addPool x dflt
    refine ⟨(pool_addPool x dflt).trans hpool, (x.addPool dflt).1 :: is, ?_, .cons ⟨x, .of_eq rfl, rfl, hpool⟩ ?_⟩
    · rw [hcode]
      change ((x.addPool dflt).2.chunk.code ++ [_]) ++ _ = _
      rw [hsame]
      change ((s.chunk.code ++ [_]) ++ [_]) ++ _ = _
      rw [List.append_assoc, List.append_assoc]
      rfl
    · refine hfields.imp fun f i ⟨u, hgrows, hi, hsub⟩ => ⟨u, ?_, hi, hsub⟩
      exact HeapGrows.trans (.of_eq hheap) hgrows

theorem exists_of_mem_left {α β : Type} {R : α → β → Prop} {l : List α} {l' : List β}
    (h : List.Forall₂ R l l') {a : α} (ha : a ∈ l) : ∃ b ∈ l', R a b := by
  induction h with
  | nil => cases ha
  | @cons x y l l' hxy _ ih =>
    rcases List.mem_cons.mp ha with rfl | ha
    · exact ⟨y, List.mem_cons_self, hxy⟩
    · obtain ⟨b, hb, hab⟩ := ih ha
      exact ⟨b, List.mem_cons_of_mem y hb, hab⟩

theorem run_poolVals {is : List Nat} {vs : List AerVal}
    (h : (poolVals is).run (exec env fuel imports) s = .done vs t) :
    t = s ∧ List.Forall₂ (fun v i => s.chunk.pool[i]? = some v) vs is := by
  induction is generalizing vs t with
  | nil =>
    cases h
    exact ⟨rfl, .nil⟩
  | cons i is ih =>
    obtain ⟨v, u, hu, h⟩ := run_bind_done.mp h
    rw [run_perform', exec_basic env fuel imports (by simp)] at hu
    change Parser.orStuck s.chunk.pool[i]? s = _ at hu
    cases hv : s.chunk.pool[i]? with
    | none =>
      rw [hv] at hu
      cases hu
    | some v =>
      rw [hv] at hu
      cases hu
      obtain ⟨vs', w, hw, hend⟩ := run_bind_done.mp h
      obtain ⟨hsame, hvs⟩ := ih hw
      cases hend
      exact ⟨hsame, .cons hv hvs⟩

/-- The function of a definition without captured variables: its constant has the entries of
its defaults, unless another function is taken for it. -/
theorem run_functionValue {sig : FunctionSig} (hs : Sound s.chunk s.heap)
    (hlits : ∀ (i : Nat) (v : AerVal), i ∈ sig.defaults → s.chunk.pool[i]? = some v → IsLiteral s.heap v)
    (h : (emitPlainFunctionValue sig).run (exec env fuel imports) s = .done () t) :
    ∃ vs v i e, List.Forall₂ (fun v i => s.chunk.pool[i]? = some v) vs sig.defaults ∧
      content t.heap v = .function sig.funcStart sig.arity sig.minArity (vs.map (plain s.heap)) sig.receiver ∧
      t.chunk.code = s.chunk.code ++ instructionWords .push [i] ∧ t.chunk.pool[i]? = some e ∧
      (content t.heap e = content t.heap v ↔ ∀ x ∈ s.chunk.pool, ¬ Confused t.heap x v) := by
  have hbasic {o : Op} (ho : ∀ name path, o ≠ .addImport name path) (s : Parser) :=
    exec_basic env fuel imports ho s
  unfold emitPlainFunctionValue at h
  obtain ⟨vs, u, hvs, hrest⟩ := run_bind_done.mp h
  obtain ⟨hsame, hpool⟩ := run_poolVals hvs
  rw [hsame] at hrest
  clear h
  obtain ⟨v, u', hu', h⟩ := run_bind_done.mp hrest
  rw [run_perform', hbasic (by simp)] at hu'
  cases hu'
  obtain ⟨_, w, hw, h⟩ := run_bind_done.mp h
  unfold emitOp emit at hw
  rw [run_perform', hbasic (by simp)] at hw
  cases hw
  obtain ⟨i, x, hx, h⟩ := run_bind_done.mp h
  unfold addPool at hx
  rw [run_perform', hbasic (by simp)] at hx
  cases hx
  unfold emitNat emit at h
  rw [run_perform', hbasic (by simp)] at h
  cases h
  let f : AerFunction :=
    { codeOffset := sig.funcStart, arity := sig.arity, minArity := sig.minArity, defaults := vs
      hasReceiver := sig.receiver.isSome, receiverType := sig.receiver.getD 0, upvalues := [] }
  let c := (s.heap.functions.alloc f).1
  let s₁ : Parser := { s with heap := (s.heap.newFunction f).2 }
  let s₂ := s₁.setChunk (s₁.chunk.emitOp .push)
  have hgrows : HeapGrows s s₁ := .of_grows fun hw => Heap.grows_newFunction hw f
  have hs₁ : Emits [] s s₁ := .of_grows hs rfl hgrows
  have hs₂ : Emits [Opcode.push.word] s₁ s₂ := (Compiles.emit hs₁.sound _).toEmits
  have hdata : s₁.heap.functions.data c = f :=
    (congrFun (Pool.alloc_data s.heap.functions f) c).trans (Function.update_self _ _ _)
  have hmem : ∀ d ∈ vs, d ∈ s.chunk.pool ∧ IsLiteral s.heap d := by
    intro d hd
    obtain ⟨i, hi, hid⟩ := exists_of_mem_left hpool hd
    exact ⟨List.mem_of_getElem? hid, hlits i d hi hid⟩
  have hconst : IsConstant s₂.chunk.pool s₂.heap (.function c) := by
    refine ⟨(Pool.live_alloc hs.wf.functions f c).mpr (.inl rfl), fun d hd => ?_⟩
    rw [show s₂.heap.functions.data c = f from hdata] at hd
    exact ⟨(hmem d hd).1, (literal_grows hs.wf hgrows (hmem d hd).2).1⟩
  have hserves := serves_addPool hs₂.sound hconst
  obtain ⟨e, he, hiff⟩ := hserves.entry
  have hheap := hserves.heap
  refine ⟨vs, .function c, _, e, hpool, ?_, ?_, he, ?_⟩
  · have hplain : f.defaults.map (plain s₁.heap) = vs.map (plain s.heap) :=
      List.map_congr_left fun d hd => (literal_grows hs.wf hgrows (hmem d hd).2).2
    have hreceiver : receiver f = sig.receiver := by
      change (if sig.receiver.isSome = true then some (sig.receiver.getD 0) else none) = sig.receiver
      cases sig.receiver <;> rfl
    have hcontent : content s₁.heap (.function c) =
        .function sig.funcStart sig.arity sig.minArity (vs.map (plain s.heap)) sig.receiver := by
      simp only [content, hdata, hplain, hreceiver]
      rfl
    rw [← hcontent]
    exact congrArg (fun h => content h (.function c)) hheap
  · change (s₂.addPool (.function c)).2.chunk.code ++ [_] = _
    rw [(addPool_same s₂ _).2.2.2]
    exact List.append_assoc _ _ _
  · change content (s₂.addPool (.function c)).2.heap e = content (s₂.addPool (.function c)).2.heap _ ↔
      ∀ x ∈ s.chunk.pool, ¬ Confused (s₂.addPool (.function c)).2.heap x (.function c)
    rw [hheap]
    exact hiff

end Routes

/-- What is left out of a call is the default of its parameter. -/
theorem omitted_default {f : AerFunction} {args : List AerVal} {k : Nat} (hleast : f.minArity ≤ args.length)
    (hk : args.length ≤ k) : (args ++ omittedDefaults f args.length)[k]? = f.defaults[k - f.minArity]? := by
  rw [List.getElem?_append_right hk, omittedDefaults, List.getElem?_drop]
  congr 1
  omega

/-- The value of a default and the value of the same literal in an expression. -/
theorem default_value {env : Env} {fuel imports k : Nat} {l : Signed} {u t u' : Parser} {v : AerVal}
    (hu : l.At u) (hs : Sound u.chunk u.heap) (hdefault : Defaulted (exec env fuel imports) u t v)
    (ht : Sound t.chunk t.heap) (hu' : l.At u') (hs' : Sound u'.chunk u'.heap)
    (hdepth : u'.ctx.exprDepth + 3 ≤ exprDepthMax) :
    ∃ i t', (parsers (k + 2)).unary.run (exec env fuel imports) u' = .done () t' ∧
      t'.chunk.code = u'.chunk.code ++ l.words i ∧
      ∀ {cfg : Config} {site : Nat → Nat} {s s' : State}, Carries (t.addPool v).2 s → Carries t' s' →
        AboutToRun site (l.words i) s' →
        ∃ e z y w, s.chunk.pool[(t.addPool v).1]? = some e ∧
          Proceeds cfg (if l.negative then 2 else 1) s' y ∧ At site s' z y [w] ∧
          (plain z.heap w = plain s.heap e ↔ l.Faithful t.chunk.pool u'.chunk.pool) := by
  obtain ⟨w₀, hw₀, hgrows⟩ := hdefault
  obtain ⟨v', w, hw, hemits, hlit, hplain⟩ := run_literalDefault hu hs
  have hsame := run_of_basic env fuel imports hw
  rw [hw₀] at hsame
  cases hsame
  obtain ⟨hlit', hplain'⟩ := literal_grows hemits.sound.wf hgrows hlit
  obtain ⟨e, he, hcontent⟩ := entry_addPool ht hlit'
  rw [hplain', hplain] at hcontent
  obtain ⟨i, t', ht', hcode, e', he', hcontent'⟩ := run_unary_literal (k := k) hu' hs' hdepth
  refine ⟨i, t', run_of_basic env fuel imports ht', hcode.code, fun {cfg site s s'} hc hc' hready => ?_⟩
  obtain ⟨hse, -, hsc⟩ := hc _ _ he
  obtain ⟨hse', hconst, hsc'⟩ := hc' _ _ he'
  have hnumber : l.negative = true → (∃ n, served u'.chunk.pool l.operand = .integer n) ∨
      ∃ d, served u'.chunk.pool l.operand = .real d := by
    intro hneg
    obtain ⟨negative, lit, number⟩ := l
    cases lit with
    | integer n => exact .inl ⟨n, rfl⟩
    | real d => exact .inr ⟨_, rfl⟩
    | _ => cases number hneg
  obtain ⟨z, y, x, hy, hat, hx⟩ := run_literalCode cfg hready hse' hconst (hsc'.trans hcontent') hnumber
  refine ⟨e, z, y, x, hse, hy, hat, ?_⟩
  have hheap : (t.addPool v).2.heap = t.heap := HeapGrows.addPool t v
  rw [hx, plain_of_content (hsc.trans (hheap ▸ hcontent)), eq_comm]
  exact faithful_iff fun n hn => by
    have hat : l.lit.At u ∨ l.lit.At u.lex := by
      unfold Signed.At at hu
      split at hu
      · exact .inr hu.2
      · exact .inl hu
    rw [hn] at hat
    rcases hat with ⟨-, -, hrange⟩ | ⟨-, -, hrange⟩ <;> exact hrange

/-- Defaults mean what they say: which literals are bound as what they come to in an
expression, and the ways of a default to a parameter or a field that is left out. -/
theorem defaults_mean_iff (env : Env) (fuel imports : Nat) :
    (∀ {k : Nat} {l : Signed} {u t u' : Parser} {v : AerVal}, l.At u → Sound u.chunk u.heap →
      Defaulted (exec env fuel imports) u t v → Sound t.chunk t.heap → l.At u' →
      Sound u'.chunk u'.heap → u'.ctx.exprDepth + 3 ≤ exprDepthMax →
      ∃ i t', (parsers (k + 2)).unary.run (exec env fuel imports) u' = .done () t' ∧
        t'.chunk.code = u'.chunk.code ++ l.words i ∧
        ∀ {cfg : Config} {site : Nat → Nat} {s s' : State}, Carries (t.addPool v).2 s → Carries t' s' →
          AboutToRun site (l.words i) s' →
          ∃ e z y w, s.chunk.pool[(t.addPool v).1]? = some e ∧
            Proceeds cfg (if l.negative then 2 else 1) s' y ∧ At site s' z y [w] ∧
            (plain z.heap w = plain s.heap e ↔ l.Faithful t.chunk.pool u'.chunk.pool)) ∧
    (∀ {ps ps' : ParamList} {s t : Parser}, s.tokenType = .assign →
      (parseParamDefault ps).run (exec env fuel imports) s = .done (some ps') t →
      ∃ v w, Defaulted (exec env fuel imports) s.lex w v ∧ t = (w.addPool v).2 ∧
        ps' = { ps with defaults := ps.defaults ++ [(w.addPool v).1] }) ∧
    (∀ {sig : FunctionSig} {s t : Parser}, Sound s.chunk s.heap →
      (∀ (i : Nat) (v : AerVal), i ∈ sig.defaults → s.chunk.pool[i]? = some v → IsLiteral s.heap v) →
      (emitPlainFunctionValue sig).run (exec env fuel imports) s = .done () t →
      ∃ vs v i e, List.Forall₂ (fun v i => s.chunk.pool[i]? = some v) vs sig.defaults ∧
        content t.heap v =
          .function sig.funcStart sig.arity sig.minArity (vs.map (plain s.heap)) sig.receiver ∧
        t.chunk.code = s.chunk.code ++ instructionWords .push [i] ∧ t.chunk.pool[i]? = some e ∧
        (content t.heap e = content t.heap v ↔ ∀ x ∈ s.chunk.pool, ¬ Confused t.heap x v)) ∧
    (∀ {cfg : Config} {codeOffset arity minArity hasReceiver receiverType upvalueCount : Nat}
      {vs : List AerVal} {is : List Nat} {x : State},
      List.Forall₂ (fun v i => x.chunk.pool[i]? = some v) vs is → vs.length = arity - minArity →
      CodeAt x x.vm.ip (instructionWords .makeClosure
        [codeOffset, arity, minArity, hasReceiver, receiverType, upvalueCount] ++ is.map fun i => (i : Int)) →
      upvalueCount ≤ x.vm.pendingUpvalueCount → x.vm.stackTop < vmStackMax →
      ∃ y c, instruction.run (Machine.exec cfg) x = .done () y ∧ y.vm.stack x.vm.stackTop = .function c ∧
        (y.heap.functions.data c).defaults = vs ∧ (y.heap.functions.data c).minArity = minArity ∧
        (y.heap.functions.data c).arity = arity) ∧
    (∀ {f : AerFunction} {args : List AerVal} {k : Nat}, f.minArity ≤ args.length → args.length ≤ k →
      (args ++ omittedDefaults f args.length)[k]? = f.defaults[k - f.minArity]?) ∧
    (env.RunsGrow → ∀ {r : Parsers} {fields : List (Nat × AerVal)} {s t : Parser},
      (parseFields r).run (exec env fuel imports) s = .done (some fields) t →
      FieldsDefaulted (exec env fuel imports) fields t) ∧
    (∀ {fields : List (Nat × AerVal)} {s t : Parser},
      (emitFields fields).run (exec env fuel imports) s = .done () t →
      ∃ is, t.chunk.code = s.chunk.code ++ fieldWords fields is ∧
        List.Forall₂ (fun f i => ∃ u, HeapGrows s u ∧ (u.addPool f.2).1 = i ∧
          (u.addPool f.2).2.chunk.pool <+: t.chunk.pool) fields is) ∧
    (∀ {cfg : Config} {name : Nat} {fields : List (Nat × AerVal)} {is : List Nat} {x : State},
      List.Forall₂ (fun f i => x.chunk.pool[i]? = some f.2) fields is →
      CodeAt x x.vm.ip (instructionWords .defineStruct [name, fields.length] ++ fieldWords fields is) →
      ∃ y, instruction.run (Machine.exec cfg) x = .done () y ∧
        y.heap.shapes = x.heap.shapes ++ [⟨name, fields⟩]) ∧
    ∀ {cfg : Config} {name : Bytes} {id : Nat} {args : List AerVal} {shape : Shape} {x : State},
      x.heap.shapes[id]? = some shape → args.length ≤ shape.fields.length →
      ∃ c y, (construct name id args).run (Machine.exec cfg) x = .done (.array c) y ∧
        (y.heap.arrays.data c).items = args ++ (shape.fields.drop args.length).map Prod.snd :=
  ⟨fun hu hs hd ht hu' hs' hdepth => default_value hu hs hd ht hu' hs' hdepth,
    fun hassign h => run_parseParamDefault hassign h, fun hs hlits h => run_functionValue hs hlits h,
    fun hpool hlen hcode hups hroom => run_makeClosure hpool hlen hcode hups hroom,
    fun hleast hk => omitted_default hleast hk, fun hrun _ _ _ _ h => run_parseFields hrun h,
    fun h => (run_emitFields h).2, fun hpool hcode => run_defineStruct hpool hcode,
    fun hid hargs => run_construct hid hargs⟩

/-- A literal of three bytes, the last two of which are an escape. -/
def escapedLine : Signed := ⟨false, .string (bytes "a\\n"), nofun⟩

/-- The default is a text of three bytes, and the expression one of two. -/
theorem default_escape : ∃ (v d e : AerVal) (i : Nat) (w t : Parser),
    parseLiteralDefault.run (exec .alone 0 0) (literalState (bytes "a\\n")) = .done (some v) w ∧
      (w.addPool v).2.chunk.pool[(w.addPool v).1]? = some d ∧
      (parsers 2).unary.run (exec .alone 0 0) (literalState (bytes "a\\n")) = .done () t ∧
      t.chunk.code = instructionWords .push [i] ∧ t.chunk.pool[i]? = some e ∧
      content (w.addPool v).2.heap d = .plain (.string (bytes "a\\n")) ∧
      content t.heap e = .plain (.string (bytes "a\n")) ∧
      content (w.addPool v).2.heap d ≠ content t.heap e := by
  let u := literalState (bytes "a\\n")
  have hat : escapedLine.At u := ⟨atString_literalState _, by decide, by decide⟩
  have hinit : Heap.PoolsWf (Heap.init.aerMakeString (bytes "a\\n")).2 :=
    (Heap.grows_aerMakeString Heap.poolsWf_init _).wf Heap.poolsWf_init
  have hs : Sound u.chunk u.heap := .start hinit
  obtain ⟨v, w, hw, hemits, hlit, hplain⟩ := run_literalDefault hat hs
  obtain ⟨d, hd, hcontent⟩ := entry_addPool hemits.sound hlit
  obtain ⟨i, t, ht, hcode, e, he, hcontent'⟩ := run_unary_literal (k := 0) hat hs (by decide)
  rw [hplain, ← HeapGrows.addPool w v] at hcontent
  have hdefault : content (w.addPool v).2.heap d = .plain (.string (bytes "a\\n")) := hcontent
  have hexpr : content t.heap e = .plain (.string (bytes "a\n")) := by
    rw [hcontent']
    exact congrArg (fun b => Content.plain (.string b)) (by decide)
  refine ⟨v, d, e, i, w, t, run_of_basic .alone 0 0 hw, hd, run_of_basic .alone 0 0 ht, hcode.code, he,
    hdefault, hexpr, ?_⟩
  rw [hdefault, hexpr]
  decide

end Aer.Compiler
