import Aer.Compiler.Interpolation
import Aer.Compiler.LexReads
import Aer.Compiler.PoolSharing
import Aer.Machine.StringParts

set_option linter.all false

/-! What a string literal denotes: how a text is written between quotes, where the lexer, the
scanner for braces and the decoder find its escapes, and what the emitted code pushes. -/
namespace Aer.Compiler

open Aer.Data Aer.Memory Aer.Machine Aer.Lib.Interaction

/-! Escapes: how a text is written between quotes. -/

def escapeByte (c : UInt8) : Bytes :=
  if c = 10 then [byte '\\', byte 'n']
  else if c = 9 then [byte '\\', byte 't']
  else if c = byte '\\' ∨ c = byte '"' ∨ c = byte '\x7b' then [byte '\\', c]
  else [c]

def escape (t : Bytes) : Bytes := t.flatMap escapeByte

/-- A byte is written as an escape pair, or as itself when it is no special one. -/
theorem escapeByte_cases (c : UInt8) :
    (∃ d, escapeByte c = [byte '\\', d] ∧ unescapeByte d = [c]) ∨
      (escapeByte c = [c] ∧ c ≠ byte '\\' ∧ c ≠ byte '"' ∧ c ≠ byte '\x7b' ∧ c ≠ byte '\n') := by
  unfold escapeByte
  split
  · next h => exact .inl ⟨byte 'n', rfl, by rw [h]; rfl⟩
  split
  · next h => exact .inl ⟨byte 't', rfl, by rw [h]; rfl⟩
  split
  · next h =>
    refine .inl ⟨c, rfl, ?_⟩
    rcases h with rfl | rfl | rfl <;> rfl
  · next hn _ h =>
    simp only [not_or] at h
    exact .inr ⟨rfl, h.1, h.2.1, h.2.2, hn⟩

theorem escape_cons (c : UInt8) (t : Bytes) : escape (c :: t) = escapeByte c ++ escape t := rfl

/-- The decoder undoes the writing, whatever comes next. -/
theorem unescape_escape (t rest : Bytes) : unescape (escape t ++ rest) = t ++ unescape rest := by
  induction t with
  | nil => rfl
  | cons c t ih =>
    rw [escape_cons, List.append_assoc]
    obtain ⟨d, hc, hd⟩ | ⟨hc, hne, -⟩ := escapeByte_cases c
    · rw [hc]
      change unescape (byte '\\' :: d :: (escape t ++ rest)) = _
      rw [unescape, if_pos rfl, hd, ih]
      rfl
    · rw [hc, List.singleton_append]
      generalize hw : escape t ++ rest = w at ih
      cases w with
      | nil =>
        rw [unescape, List.cons_append, ← ih]
        rfl
      | cons d w => rw [unescape, if_neg hne, ih, List.cons_append]

/-- The scanner for braces passes over what is written. -/
theorem segmentLength_escape (t rest : Bytes) :
    segmentLength (escape t ++ rest) = (escape t).length + segmentLength rest := by
  induction t with
  | nil => simp [escape]
  | cons c t ih =>
    rw [escape_cons, List.append_assoc, List.length_append]
    obtain ⟨d, hc, -⟩ | ⟨hc, hne, -, hbrace, -⟩ := escapeByte_cases c
    · rw [hc]
      change segmentLength (byte '\\' :: d :: (escape t ++ rest)) = _
      rw [segmentLength, if_pos rfl, ih]
      simp only [List.length_cons, List.length_nil]
      omega
    · rw [hc, List.singleton_append, List.length_singleton]
      generalize hw : escape t ++ rest = w at ih
      cases w with
      | nil =>
        rw [segmentLength, if_neg hbrace]
        rw [segmentLength] at ih
        omega
      | cons d w =>
        rw [segmentLength, if_neg hne, if_neg hbrace, ih]
        omega

open Lexer Reads in
/-- And the lexer, on its way to the closing quote. -/
theorem stringLength_written (t rest : Bytes) :
    stringLength (escape t ++ rest) = (escape t).length + stringLength rest := by
  induction t with
  | nil => simp [escape]
  | cons c t ih =>
    rw [escape_cons, List.append_assoc, List.length_append]
    obtain ⟨d, hc, -⟩ | ⟨hc, hne, hquote, -, hline⟩ := escapeByte_cases c
    · rw [hc]
      change stringLength (byte '\\' :: d :: (escape t ++ rest)) = _
      rw [stringLength_escape, ih]
      simp only [List.length_cons, List.length_nil]
      omega
    · rw [hc, List.singleton_append, List.length_singleton,
        stringLength_cons (by simp [hquote, hline]) hne, ih]
      omega

open Lexer Reads in
theorem stringLength_plain {b : Bytes} (hb : ∀ c ∈ b, c ≠ byte '"' ∧ c ≠ byte '\n' ∧ c ≠ byte '\\')
    (rest : Bytes) : stringLength (b ++ rest) = b.length + stringLength rest := by
  induction b with
  | nil => simp
  | cons c b ih =>
    rw [List.forall_mem_cons] at hb
    obtain ⟨⟨hquote, hline, hne⟩, hb⟩ := hb
    rw [List.cons_append, stringLength_cons (by simp [hquote, hline]) hne, ih hb, List.length_cons]
    omega

/-! The pieces of what is written. -/

/-- What a string literal is made of. -/
inductive Item
  | seg (t : Bytes)
  | var (n : Bytes)
  deriving DecidableEq

def Item.isSeg : Item → Bool
  | seg _ => true
  | var _ => false

/-- The item as it stands in the source. -/
def Item.written : Item → Bytes
  | seg t => escape t
  | var n => byte '\x7b' :: n ++ [byte '\x7d']

def written (items : List Item) : Bytes := items.flatMap Item.written

def Item.pieces : Item → List Piece
  | seg t => textPiece (escape t)
  | var n => [.name n]

/-- The items of a literal of the language: names of variables, and segments of text that the
source can hold, no two of them side by side. -/
structure Writable (items : List Item) : Prop where
  names : ∀ n, .var n ∈ items → isName n = true
  text : ∀ t, .seg t ∈ items → 0 ∉ t ∧ byte '\r' ∉ t
  apart : items.IsChain fun a b => ¬ (a.isSeg = true ∧ b.isSeg = true)

theorem Writable.tail {a : Item} {items : List Item} (h : Writable (a :: items)) : Writable items where
  names n hn := h.names n (List.mem_cons_of_mem a hn)
  text t ht := h.text t (List.mem_cons_of_mem a ht)
  apart := h.apart.tail

theorem plain_of_isWord {c : UInt8} (h : Lexer.isWord c = true) :
    c ≠ byte '"' ∧ c ≠ byte '\n' ∧ c ≠ byte '\\' ∧ c ≠ 0 ∧ c ≠ byte '\r' := by
  refine ⟨?_, ?_, ?_, ?_, ?_⟩ <;>
  · rintro rfl
    revert h
    decide

theorem isWord_of_isName {n : Bytes} (h : isName n = true) {c : UInt8} (hc : c ∈ n) :
    Lexer.isWord c = true := by
  simp only [isName, Bool.and_eq_true, List.all_eq_true] at h
  exact h.1.2 c hc

/-- The bytes of a name in braces. -/
theorem plain_name {n : Bytes} (h : isName n = true) : ∀ c ∈ (Item.var n).written,
    c ≠ byte '"' ∧ c ≠ byte '\n' ∧ c ≠ byte '\\' ∧ c ≠ 0 ∧ c ≠ byte '\r' := by
  intro c hc
  simp only [Item.written, List.cons_append, List.mem_cons, List.mem_append, List.not_mem_nil,
    or_false] at hc
  rcases hc with rfl | hc | rfl
  · decide
  · exact plain_of_isWord (isWord_of_isName h hc)
  · decide

open Lexer Reads in
theorem stringLength_items {items : List Item} (h : Writable items) (rest : Bytes) :
    stringLength (written items ++ byte '"' :: rest) = (written items).length := by
  induction items with
  | nil => exact stringLength_stop (.inl rfl)
  | cons a items ih =>
    change stringLength (a.written ++ written items ++ byte '"' :: rest) =
      (a.written ++ written items).length
    rw [List.append_assoc, List.length_append, ← ih h.tail]
    cases a with
    | seg t => exact stringLength_written t _
    | var n =>
      refine stringLength_plain (fun c hc => ?_) _
      obtain ⟨hquote, hline, hslash, -⟩ := plain_name (h.names n List.mem_cons_self) c hc
      exact ⟨hquote, hline, hslash⟩

/-- Opening the file leaves the text of the literal as it is. -/
theorem kept_escape {t : Bytes} (h0 : 0 ∉ t) (hr : byte '\r' ∉ t) :
    ∀ c ∈ escape t, c ≠ 0 ∧ c ≠ byte '\r' := by
  intro c hc
  obtain ⟨d, hd, hc⟩ := List.mem_flatMap.mp hc
  unfold escapeByte at hc
  split at hc
  · rcases List.mem_pair.mp hc with rfl | rfl <;> decide
  split at hc
  · rcases List.mem_pair.mp hc with rfl | rfl <;> decide
  split at hc
  · rcases List.mem_pair.mp hc with rfl | rfl
    · decide
    · exact ⟨fun he => h0 (he ▸ hd), fun he => hr (he ▸ hd)⟩
  · obtain rfl := List.mem_singleton.mp hc
    exact ⟨fun he => h0 (he ▸ hd), fun he => hr (he ▸ hd)⟩

theorem kept_written {items : List Item} (h : Writable items) :
    ∀ c ∈ written items, c ≠ 0 ∧ c ≠ byte '\r' := by
  intro c hc
  obtain ⟨a, ha, hc⟩ := List.mem_flatMap.mp hc
  cases a with
  | seg t => exact kept_escape (h.text t ha).1 (h.text t ha).2 c hc
  | var n =>
    obtain ⟨-, -, -, h0, hr⟩ := plain_name (h.names n ha) c hc
    exact ⟨h0, hr⟩

theorem normalize_append {b : Bytes} (h : ∀ c ∈ b, c ≠ 0 ∧ c ≠ byte '\r') (rest : Bytes) :
    normalize (b ++ rest) = b ++ normalize rest := by
  have hstring : cString (b ++ rest) = b ++ cString rest :=
    List.takeWhile_append_of_pos fun c hc => by simpa using (h c hc).1
  rw [normalize, hstring, List.filter_append, normalize]
  congr 1
  exact List.filter_eq_self.mpr fun c hc => decide_eq_true (h c hc).2

/-- What stands between the quotes is one token. -/
theorem lexToken_written {items : List Item} (h : Writable items) {rest : Bytes}
    (hrest : written items = [] → (normalize rest).getD 0 0 ≠ byte '"') {l : Lexer}
    (hl : l.buffer = normalize (byte '"' :: written items ++ byte '"' :: rest)) :
    l.lexToken = { lexer := l.advance ((written items).length + 2), type := some .string,
                   value := some (.string (written items)) } := by
  have hbuffer : l.buffer = byte '"' :: (written items ++ byte '"' :: normalize rest) := by
    rw [hl, normalize_append _ (byte '"' :: rest), List.cons_append]
    · exact congrArg _ (congrArg _ (normalize_append (b := [byte '"'])
        (List.forall_mem_singleton.mpr ⟨by decide, by decide⟩) rest))
    · exact List.forall_mem_cons.mpr ⟨by decide, kept_written h⟩
  have hlen := stringLength_items h (normalize rest)
  have htriple : ¬ (l.char 1 = byte '"' ∧ l.char 2 = byte '"') := by
    rintro ⟨h1, h2⟩
    rw [Lexer.char, hbuffer] at h1 h2
    cases hw : written items with
    | nil =>
      rw [hw] at h2
      exact hrest hw h2
    | cons c w =>
      rw [hw] at h1 hlen
      obtain rfl : c = byte '"' := h1
      rw [List.cons_append, Reads.stringLength_stop (.inl rfl)] at hlen
      cases hlen
  unfold Lexer.lexToken
  rw [hbuffer]
  dsimp only
  rw [if_neg (by decide), if_neg (by decide), if_pos rfl, if_neg htriple]
  have hbody : (l.advance 1).buffer = written items ++ byte '"' :: normalize rest := by
    change l.buffer.drop 1 = _
    rw [hbuffer]
    rfl
  have hadvance (k m : Nat) : (l.advance k).advance m = l.advance (k + m) := by
    change l.setBuffer ((l.buffer.drop k).drop m) = _
    rw [List.drop_drop]
    rfl
  have hquote : ((l.advance 1).advance (written items).length).char 0 = byte '"' := by
    change ((l.advance 1).buffer.drop (written items).length).getD 0 0 = _
    rw [hbody, List.drop_left]
    rfl
  unfold Lexer.lexString
  dsimp only
  rw [hbody, hlen, if_pos hquote, List.take_left, hadvance, hadvance]
  congr 2
  omega

/-- The pieces behind a piece of text. -/
def namePieces : Bytes → List Piece
  | [] => []
  | _ :: behind =>
      match behind.dropWhile (· ≠ byte '\x7d') with
      | [] => [.unclosed]
      | _ :: rest => .name (behind.takeWhile (· ≠ byte '\x7d')) :: pieces rest

theorem pieces_eq (s : Bytes) :
    pieces s = textPiece (s.take (segmentLength s)) ++ namePieces (s.drop (segmentLength s)) := by
  rw [pieces]
  congr 1
  cases s.drop (segmentLength s) with
  | nil => rfl
  | cons c behind =>
    unfold namePieces
    dsimp only
    cases behind.dropWhile (· ≠ byte '\x7d') <;> rfl

/-- Text before something that begins with a brace, or before the end, is a piece of its own. -/
theorem pieces_text (t : Bytes) {rest : Bytes} (hrest : segmentLength rest = 0) :
    pieces (escape t ++ rest) = textPiece (escape t) ++ pieces rest := by
  have hlen : segmentLength (escape t ++ rest) = (escape t).length := by
    rw [segmentLength_escape, hrest, Nat.add_zero]
  rw [pieces_eq, hlen, List.take_left, List.drop_left, pieces_eq rest, hrest]
  rfl

theorem pieces_name {n : Bytes} (rest : Bytes) (hn : isName n = true) :
    pieces (byte '\x7b' :: n ++ byte '\x7d' :: rest) = .name n :: pieces rest := by
  obtain ⟨ht, hd⟩ := takeWhile_name rest (not_mem_of_isName hn)
  have hzero : segmentLength (byte '\x7b' :: n ++ byte '\x7d' :: rest) = 0 := by
    cases n <;> rfl
  rw [pieces_eq, hzero]
  simp only [List.take_zero, List.drop_zero, List.cons_append, namePieces, hd, ht]
  rfl

theorem pieces_written {items : List Item} (h : Writable items) :
    pieces (written items) = items.flatMap Item.pieces := by
  induction items with
  | nil =>
    rw [written, List.flatMap_nil, pieces]
    rfl
  | cons a items ih =>
    have hrest := ih h.tail
    rw [List.flatMap_cons, ← hrest]
    cases a with
    | var n =>
      have hn := h.names n List.mem_cons_self
      have := pieces_name (written items) hn
      simpa [written, Item.written, Item.pieces] using this
    | seg t =>
      refine pieces_text t ?_
      cases items with
      | nil => rfl
      | cons b items =>
        cases b with
        | var n => cases n <;> rfl
        | seg t' => exact absurd ⟨rfl, rfl⟩ (List.isChain_cons_cons.mp h.apart).1

/-! What is emitted. -/

/-- The context with more captured variables. -/
def captureAll (c : Context) (names : List Nat) : Context :=
  { c with captureCtx :=
    { c.captureCtx with capturedNames := c.captureCtx.capturedNames ++ names } }

theorem captureAll_nil (c : Context) : captureAll c [] = c := by
  rw [captureAll, List.append_nil]

theorem captureAll_append (c : Context) (xs ys : List Nat) :
    captureAll (captureAll c xs) ys = captureAll c (xs ++ ys) := by
  simp only [captureAll, List.append_assoc]

/-- A step that appends code, and keeps the pool and what it tells. -/
structure Emits (ws : List Int) (s t : Parser) : Prop where
  code : t.chunk.code = s.chunk.code ++ ws
  sound : Sound t.chunk t.heap
  pool : s.chunk.pool <+: t.chunk.pool
  keeps : KeepsPool s.chunk.pool s.heap t.heap

theorem Emits.trans {ws ws' : List Int} {s t u : Parser} (h : Emits ws s t) (h' : Emits ws' t u) :
    Emits (ws ++ ws') s u where
  code := by rw [h'.code, h.code, List.append_assoc]
  sound := h'.sound
  pool := h.pool.trans h'.pool
  keeps := by
    refine ⟨fun hw => h'.keeps.wf (h.keeps.wf hw), fun v hp hv n hn => ?_⟩
    have hmid := (h.keeps.constant hp hv).1.mono h.pool.subset
    obtain ⟨hlive, hdata⟩ := h'.keeps.cells v (h.pool.subset hp) hmid n hn
    exact ⟨hlive, (h.keeps.cells v hp hv n hn).2.trans hdata⟩

/-- And the resolution of the names before. -/
structure Compiles (ws : List Int) (s t : Parser) : Prop extends Emits ws s t where
  caches : s.chunk.addrCache.length ≤ t.chunk.addrCache.length
  ctx : ∃ names, t.ctx = captureAll s.ctx names

namespace Compiles
variable {ws ws' : List Int} {s t u : Parser}

theorem trans (h : Compiles ws s t) (h' : Compiles ws' t u) : Compiles (ws ++ ws') s u where
  toEmits := h.toEmits.trans h'.toEmits
  caches := h.caches.trans h'.caches
  ctx := by
    obtain ⟨xs, hx⟩ := h.ctx
    obtain ⟨ys, hy⟩ := h'.ctx
    exact ⟨xs ++ ys, by rw [hy, hx, captureAll_append]⟩

/-- A step that leaves the pool, the heap and the context alone. -/
theorem of_same (hs : Sound s.chunk s.heap) (hcode : t.chunk.code = s.chunk.code ++ ws)
    (hpool : t.chunk.pool = s.chunk.pool) (hnames : t.chunk.nameIndex = s.chunk.nameIndex)
    (hheap : t.heap = s.heap) (hcaches : s.chunk.addrCache.length ≤ t.chunk.addrCache.length)
    (hctx : ∃ names, t.ctx = captureAll s.ctx names) : Compiles ws s t where
  code := hcode
  sound := hheap ▸ hs.kept hpool hnames (.refl _ _)
  pool := hpool ▸ List.prefix_rfl
  keeps := hheap ▸ .refl _ _
  caches := hcaches
  ctx := hctx

theorem refl (hs : Sound s.chunk s.heap) : Compiles [] s s :=
  .of_same hs (List.append_nil _).symm rfl rfl rfl le_rfl ⟨[], (captureAll_nil _).symm⟩

theorem emit (hs : Sound s.chunk s.heap) (w : Int) : Compiles [w] s (s.setChunk (s.chunk.emit w)) :=
  .of_same hs rfl rfl rfl rfl le_rfl ⟨[], (captureAll_nil _).symm⟩

end Compiles

/-- A pool entry that is a string with this text. -/
def StringAt (t : Parser) (i : Nat) (b : Bytes) : Prop :=
  ∃ c, t.chunk.pool[i]? = some (.string c) ∧ t.heap.strings.data c = b

theorem StringAt.later {ws : List Int} {s t : Parser} (hs : Sound s.chunk s.heap) (h : Compiles ws s t)
    {i : Nat} {b : Bytes} (hi : StringAt s i b) : StringAt t i b := by
  obtain ⟨c, hc, hdata⟩ := hi
  have hmem := List.mem_of_getElem? hc
  obtain ⟨more, hmore⟩ := h.pool
  refine ⟨c, ?_, ?_⟩
  · rw [← hmore, List.getElem?_append_left (List.getElem?_eq_some_iff.mp hc).1, hc]
  · have := (h.keeps.cells _ hmem (hs.constants _ hmem) (.string c) rfl).2
    exact Eq.trans this hdata

/-- A request changes the pool alone. -/
theorem addPool_same (s : Parser) (v : AerVal) : (s.addPool v).2.ctx = s.ctx ∧
    (s.addPool v).2.reports = s.reports ∧ (s.addPool v).2.chunk.addrCache = s.chunk.addrCache ∧
    (s.addPool v).2.chunk.code = s.chunk.code := by
  unfold Parser.addPool
  cases v <;> dsimp only <;> split <;> exact ⟨rfl, rfl, rfl, rfl⟩

/-- The constant of a text. -/
theorem run_poolText {b : Bytes} (hb : 0 ∉ b) {s : Parser} (hs : Sound s.chunk s.heap) :
    ∃ i t, (do addPool (← perform (.makeString b)) : P Nat).run execBasic s = .done i t ∧
      Compiles [] s t ∧ t.ctx = s.ctx ∧ t.reports = s.reports ∧
      t.chunk.addrCache = s.chunk.addrCache ∧ StringAt t i b := by
  let s' : Parser := { s with heap := (s.heap.aerMakeString b).2 }
  have hgrows := Heap.grows_aerMakeString hs.wf b
  have hkeeps : KeepsPool s.chunk.pool s.heap s'.heap := keepsPool_of_growsBut (hgrows.but _)
  have hs' : Sound s'.chunk s'.heap := hs.kept rfl rfl hkeeps
  have hdata := data_aerMakeString s.heap b
  have hlive : s'.heap.strings.Live (s.heap.strings.alloc b).1 :=
    (Pool.live_alloc hs.wf.strings b _).mpr (.inl rfl)
  have hconst : IsConstant s'.chunk.pool s'.heap (.string (s.heap.strings.alloc b).1) := by
    refine ⟨hlive, ?_⟩
    rw [show s'.heap.strings.data (s.heap.strings.alloc b).1 = b from hdata]
    exact fun c hc h0 => hb (h0 ▸ hc)
  have hserves := serves_addPool hs' hconst
  obtain ⟨hctx, hreports, hcaches, hcode⟩ := addPool_same s' (.string (s.heap.strings.alloc b).1)
  refine ⟨_, (s'.addPool (.string (s.heap.strings.alloc b).1)).2, rfl, ?_, hctx, hreports, hcaches, ?_⟩
  · refine ⟨⟨?_, hserves.heap ▸ hserves.sound, hserves.kept, hserves.heap ▸ hkeeps⟩, hcaches ▸ le_rfl,
      [], hctx.trans (captureAll_nil _).symm⟩
    rw [hcode, List.append_nil]
  · obtain ⟨e, he, hiff⟩ := hserves.entry
    have hsame := hiff.mpr fun e _ hc => by cases e <;> exact hc
    rw [show content s'.heap (.string (s.heap.strings.alloc b).1) = .plain (.string b) by
      simp only [content, plain]
      exact congrArg (fun b => Content.plain (.string b)) hdata] at hsame
    cases e with
    | string c =>
      refine ⟨c, he, ?_⟩
      rw [hserves.heap]
      injection hsame with hsame
      injection hsame
    | _ => cases hsame

/-- Reports are only added. -/
theorem reports_le {α : Type} {p : P α} {s t : Parser} {a : α} (h : p.run execBasic s = .done a t) :
    s.reports.length ≤ t.reports.length := by
  have hreport (rs : List Report) (s : Parser) :
      s.reports.length ≤ (rs.foldl Parser.report s).reports.length := by
    induction rs generalizing s with
    | nil => exact le_rfl
    | cons r rs ih => exact (Nat.le_succ _).trans (ih (s.report r))
  refine run_invariant (I := fun t => s.reports.length ≤ t.reports.length) h le_rfl
    fun o t a u ht he => ht.trans ?_
  cases o with
  | lex =>
    cases he
    have hset (v : Option Literal) (s : Parser) : (s.setLiteral v).reports = s.reports := by
      unfold Parser.setLiteral
      rcases v with _ | v
      · rfl
      · cases v <;> rfl
    unfold Parser.lex
    rw [hset]
    exact hreport _ { t with lexer := t.lexer.lex.lexer, tokenType := t.lexer.lex.type.getD t.tokenType }
  | errorAt msg =>
    cases he
    exact Nat.le_succ _
  | addPool v =>
    cases he
    unfold Parser.addPool
    cases v <;> dsimp only <;> split <;> exact le_rfl
  | tokenText | tokenInt | tokenReal | tokenBool | patch _ _ | poolVal _ =>
    simp only [execBasic, Parser.orStuck] at he
    split at he <;> cases he
    exact le_rfl
  | addImport _ _ | stuck => cases he
  | _ =>
    cases he
    exact le_rfl

/-- The code that loads a name, as the parser has resolved it. -/
def LoadsName (t : Parser) (n : Bytes) (l : Loader) : Prop :=
  ∃ i, StringAt t i n ∧
    if t.ctx.capturing = true ∧ t.ctx.captureIsLocal i = false then
      i ∈ t.ctx.captureCtx.capturedNames ∧ l = .upvalue (t.ctx.captureSlot i)
    else
      match t.ctx.currentParamSlot i with
      | some k => l = .slot k
      | none => ∃ c < t.chunk.addrCache.length, l = .name i c

theorem LoadsName.later {ws : List Int} {s t : Parser} (hs : Sound s.chunk s.heap)
    (h : Compiles ws s t) {n : Bytes} {l : Loader} (hl : LoadsName s n l) : LoadsName t n l := by
  obtain ⟨i, hi, hl⟩ := hl
  obtain ⟨names, hctx⟩ := h.ctx
  refine ⟨i, hi.later hs h, ?_⟩
  have hslot (hmem : i ∈ s.ctx.captureCtx.capturedNames) :
      (captureAll s.ctx names).captureSlot i = s.ctx.captureSlot i :=
    List.idxOf_append_of_mem hmem
  rw [hctx]
  change if s.ctx.capturing = true ∧ s.ctx.captureIsLocal i = false then
      i ∈ s.ctx.captureCtx.capturedNames ++ names ∧ l = .upvalue ((captureAll s.ctx names).captureSlot i)
    else match s.ctx.currentParamSlot i with
      | some k => l = .slot k
      | none => ∃ c < t.chunk.addrCache.length, l = .name i c
  split at hl
  · next hcapt =>
    rw [if_pos hcapt, hslot hl.1]
    exact ⟨List.mem_append_left names hl.1, hl.2⟩
  · next hcapt =>
    rw [if_neg hcapt]
    split at hl
    · exact hl
    · obtain ⟨c, hc, hl⟩ := hl
      exact ⟨c, hc.trans_le h.caches, hl⟩

/-- The classification of a read name, when it is not one captured variable too many. -/
theorem run_captureClassify {i : Nat} {s t : Parser} {captured : Bool} (hs : Sound s.chunk s.heap)
    (h : (captureClassify i false).run execBasic s = .done captured t)
    (hreports : t.reports.length = s.reports.length) : Compiles [] s t ∧
      captured = !t.ctx.captureIsLocal i ∧
      (captured = true → i ∈ t.ctx.captureCtx.capturedNames) := by
  unfold captureClassify context at h
  rw [run_bind, run_perform'] at h
  change ((if s.ctx.captureIsLocal i = true then pure false else _ : P Bool).run execBasic s) = _ at h
  split at h
  · next hlocal =>
    cases h
    exact ⟨.refl hs, by rw [hlocal]; rfl, fun hc => nomatch hc⟩
  next hlocal =>
  have hcaptured : true = !s.ctx.captureIsLocal i := by rw [Bool.not_eq_true] at hlocal; rw [hlocal]; rfl
  split at h
  · next hc =>
    cases h
    exact ⟨.refl hs, hcaptured, fun _ => List.contains_iff_mem.mp hc⟩
  split at h
  · next hw => exact absurd hw.1 (by decide)
  split at h
  · cases h
    exact ⟨.of_same hs (List.append_nil _).symm rfl rfl rfl le_rfl ⟨[i], rfl⟩, hcaptured,
      fun _ => List.mem_append_right _ (List.mem_singleton_self i)⟩
  · cases h
    exact absurd hreports (Nat.succ_ne_self _)

theorem run_emitLoad {i : Nat} {n : Bytes} {s t : Parser} (hs : Sound s.chunk s.heap)
    (hi : StringAt s i n) (h : (emitLoad i).run execBasic s = .done () t)
    (hreports : t.reports.length = s.reports.length) :
    ∃ l : Loader, Compiles l.words s t ∧ LoadsName t n l := by
  -- What is emitted once the name has been classified.
  have hplain (u : Parser) (hu : Sound u.chunk u.heap) (hi : StringAt u i n)
      (hlocal : ¬ (u.ctx.capturing = true ∧ u.ctx.captureIsLocal i = false))
      (h : (do
          match (← context).currentParamSlot i with
          | some slot =>
              emitOp .loadLocal
              emitNat slot
          | none =>
              emitOp .load
              emitNat i
              emitNat (← addAddrCache) : P Unit).run execBasic u = .done () t) :
      ∃ l : Loader, Compiles l.words u t ∧ LoadsName t n l := by
    unfold context at h
    rw [run_bind, run_perform'] at h
    change ((match u.ctx.currentParamSlot i with
      | some slot => _
      | none => _ : P Unit).run execBasic u) = _ at h
    cases hslot : u.ctx.currentParamSlot i with
    | some slot =>
      rw [hslot] at h
      cases h
      have hc : Compiles (Loader.slot slot).words u _ :=
        .of_same (t := (u.setChunk (u.chunk.emitOp .loadLocal)).setChunk
          ((u.chunk.emitOp .loadLocal).emit slot)) hu (List.append_assoc _ _ _) rfl rfl rfl le_rfl
          ⟨[], (captureAll_nil _).symm⟩
      refine ⟨.slot slot, hc, i, hi.later hu hc, ?_⟩
      refine Eq.mpr (if_neg hlocal) ?_
      change match u.ctx.currentParamSlot i with
        | some k => Loader.slot slot = .slot k
        | none => _
      rw [hslot]
    | none =>
      rw [hslot] at h
      cases h
      have hlen : u.chunk.addrCache.length < (u.chunk.addrCache ++ [none]).length := by simp
      let c := (u.chunk.emitOp .load).emit i
      have hc : Compiles (Loader.name i u.chunk.addrCache.length).words u
          (u.setChunk (c.addAddrCache.2.emit c.addAddrCache.1)) := by
        refine .of_same hu ?_ rfl rfl rfl hlen.le ⟨[], (captureAll_nil _).symm⟩
        change ((u.chunk.code ++ [_]) ++ [_]) ++ [_] = _
        rw [List.append_assoc, List.append_assoc]
        rfl
      refine ⟨.name i u.chunk.addrCache.length, hc, i, hi.later hu hc, ?_⟩
      refine Eq.mpr (if_neg hlocal) ?_
      change match u.ctx.currentParamSlot i with
        | some k => _
        | none => ∃ c < (u.chunk.addrCache ++ [none]).length, Loader.name i u.chunk.addrCache.length = .name i c
      rw [hslot]
      exact ⟨_, hlen, rfl⟩
  unfold emitLoad context at h
  rw [run_bind, run_perform'] at h
  change ((if s.ctx.capturing = true then _ else _ : P Unit).run execBasic s) = _ at h
  split at h
  · next hcapturing =>
    obtain ⟨captured, u, hu, h⟩ := run_bind_done.mp h
    dsimp only at h
    have hsame : u.reports.length = s.reports.length :=
      le_antisymm (hreports ▸ reports_le h) (reports_le hu)
    obtain ⟨hcompiles, hlocal, hmem⟩ := run_captureClassify hs hu hsame
    have hiu := hi.later hs hcompiles
    split at h
    · next hcaptured =>
      cases h
      let c := (u.chunk.emitOp .loadUpvalue).emit (u.ctx.captureSlot i)
      have hc : Compiles (Loader.upvalue (u.ctx.captureSlot i)).words u (u.setChunk c) :=
        .of_same hcompiles.sound (List.append_assoc _ _ _) rfl rfl rfl le_rfl ⟨[], (captureAll_nil _).symm⟩
      refine ⟨.upvalue (u.ctx.captureSlot i), hcompiles.trans hc, i, hiu.later hcompiles.sound hc, ?_⟩
      have hcapt : u.ctx.capturing = true ∧ u.ctx.captureIsLocal i = false := by
        obtain ⟨names, hctx⟩ := hcompiles.ctx
        refine ⟨by rw [hctx]; exact hcapturing, ?_⟩
        rw [hcaptured] at hlocal
        simpa using hlocal.symm
      change if u.ctx.capturing = true ∧ u.ctx.captureIsLocal i = false then
          i ∈ u.ctx.captureCtx.capturedNames ∧
            Loader.upvalue (u.ctx.captureSlot i) = .upvalue (u.ctx.captureSlot i)
        else _
      rw [if_pos hcapt]
      exact ⟨hmem hcaptured, rfl⟩
    · next hcaptured =>
      obtain ⟨l, hl, hname⟩ := hplain u hcompiles.sound hiu (fun hcapt => hcaptured (by
        rw [hlocal, hcapt.2]
        rfl)) h
      exact ⟨l, hcompiles.trans hl, hname⟩
  · next hcapturing => exact hplain s hs hi (fun hcapt => hcapturing hcapt.1) h

/-- The part of the code that a piece of the literal has become. -/
inductive PieceAt (t : Parser) : Piece → Part → Prop
  | text {s : Bytes} {i : Nat} : StringAt t i (unescape s) → PieceAt t (.text s) (.text i)
  | name {n : Bytes} {l : Loader} : LoadsName t n l → PieceAt t (.name n) (.var l)

theorem PieceAt.later {ws : List Int} {s t : Parser} (hs : Sound s.chunk s.heap) (h : Compiles ws s t)
    {p : Piece} {q : Part} (hp : PieceAt s p q) : PieceAt t p q := by
  cases hp with
  | text hi => exact .text (hi.later hs h)
  | name hl => exact .name (hl.later hs h)

/-- The piece can be written in a literal. -/
def Piece.Writable : Piece → Prop
  | .text s => 0 ∉ unescape s
  | .name n => isName n = true
  | .unclosed => False

/-- What is emitted without an error is not refused. -/
theorem not_refused {p : Piece} {parts n : Nat} {s t : Parser}
    (h : (emitPiece p parts).run execBasic s = .done n t)
    (hreports : t.reports.length = s.reports.length) : ¬ p.Refused := by
  intro hp
  obtain ⟨_, u, hu, k, hk⟩ := ends_emitPiece_refused (fun _ _ _ => rfl) hp parts s
  rw [h] at hu
  cases hu
  have hlen := hk.reports
  omega

theorem zero_not_mem_of_isName {n : Bytes} (h : isName n = true) : 0 ∉ n := by
  intro hmem
  simp only [isName, Bool.and_eq_true, List.all_eq_true] at h
  exact absurd (h.1.2 _ hmem) (by decide)

/-- The parts that follow are joined to those before them. -/
def joinWords (parts : Nat) : List Int := if 0 < parts then instructionWords .add [] else []

theorem run_joinPart {parts n : Nat} {s t : Parser} (hs : Sound s.chunk s.heap)
    (h : (joinPart parts).run execBasic s = .done n t) :
    Compiles (joinWords parts) s t ∧ n = parts + 1 := by
  unfold joinPart at h
  unfold joinWords
  split at h
  · next hparts =>
    cases h
    rw [if_pos hparts]
    exact ⟨.emit hs _, rfl⟩
  · next hparts =>
    cases h
    rw [if_neg hparts]
    exact ⟨.refl hs, rfl⟩

theorem run_emitPiece {p : Piece} (hp : p.Writable) {parts n : Nat} {s t : Parser}
    (hs : Sound s.chunk s.heap) (h : (emitPiece p parts).run execBasic s = .done n t)
    (hreports : t.reports.length = s.reports.length) :
    ∃ q, Compiles (q.words ++ joinWords parts) s t ∧ n = parts + 1 ∧ PieceAt t p q := by
  have href := not_refused h hreports
  cases p with
  | text b =>
    let s₁ := s.setChunk (s.chunk.emitOp .push)
    have hpush : Compiles [Opcode.push.word] s s₁ := .emit hs _
    obtain ⟨i, s₂, hpool, hs₂, -, -, -, hi⟩ := run_poolText hp hpush.sound
    have hemit : Compiles [(i : Int)] s₂ (s₂.setChunk (s₂.chunk.emit i)) := .emit hs₂.sound _
    have hrun : (emitPiece (.text b) parts).run execBasic s =
        (joinPart parts).run execBasic (s₂.setChunk (s₂.chunk.emit i)) := by
      unfold emitPiece poolEscapedString
      dsimp only
      rw [if_pos (Nat.lt_of_not_le href), run_bind, show (emitOp .push : P Unit).run execBasic s = .done () s₁ from rfl,
        Outcome.done_andThen, run_bind, hpool, Outcome.done_andThen]
      rfl
    rw [hrun] at h
    obtain ⟨hjoin, rfl⟩ := run_joinPart hemit.sound h
    refine ⟨.text i, ?_, rfl, .text ((hi.later hs₂.sound hemit).later hemit.sound hjoin)⟩
    exact ((hpush.trans hs₂).trans hemit).trans hjoin
  | name b =>
    obtain ⟨i, s₁, hpool, hs₁, -, hsame, -, hi⟩ := run_poolText (zero_not_mem_of_isName hp) hs
    have hne : b.isEmpty = false := by
      cases b with
      | nil => exact absurd rfl (isName_ne_nil hp)
      | cons => rfl
    have hrun : (emitPiece (.name b) parts).run execBasic s =
        (do emitLoad i; emitOp .toStr; joinPart parts : P Nat).run execBasic s₁ := by
      have hassoc : (emitPiece (.name b) parts) = (do
          let i ← (do addPool (← perform (.makeString b)) : P Nat)
          emitLoad i
          emitOp .toStr
          joinPart parts) := by
        unfold emitPiece
        dsimp only
        rw [hne, if_neg (by decide), bind_assoc]
      rw [hassoc, run_bind, hpool, Outcome.done_andThen]
    rw [hrun] at h
    obtain ⟨_, s₂, hload, h⟩ := run_bind_done.mp h
    have hle := reports_le hload
    have hle' := reports_le h
    rw [hsame] at hle
    obtain ⟨l, hs₂, hl⟩ := run_emitLoad hs₁.sound hi hload (by rw [hsame]; omega)
    have hstr : Compiles [Opcode.toStr.word] s₂ (s₂.setChunk (s₂.chunk.emitOp .toStr)) :=
      .emit hs₂.sound _
    obtain ⟨hjoin, rfl⟩ := run_joinPart hstr.sound h
    refine ⟨.var l, ?_, rfl, .name ((hl.later hs₂.sound hstr).later hstr.sound hjoin)⟩
    have hall := ((hs₁.trans hs₂).trans hstr).trans hjoin
    rw [List.nil_append] at hall
    exact hall
  | unclosed => exact hp.elim

/-- The pieces behind the first. -/
theorem run_emitJoined {ps : List Piece} (hps : ∀ p ∈ ps, p.Writable) {parts n : Nat} (hparts : 0 < parts)
    {s t : Parser} (hs : Sound s.chunk s.heap) (h : (emitPieces ps parts).run execBasic s = .done n t)
    (hreports : t.reports.length = s.reports.length) :
    ∃ qs, Compiles (joinedWords qs) s t ∧ 0 < n ∧ List.Forall₂ (PieceAt t) ps qs := by
  induction ps generalizing parts s with
  | nil =>
    cases h
    exact ⟨[], .refl hs, hparts, .nil⟩
  | cons p ps ih =>
    rw [List.forall_mem_cons] at hps
    obtain ⟨m, u, hu, h⟩ := run_bind_done.mp h
    have hle := reports_le hu
    have hle' := reports_le h
    obtain ⟨q, hq, rfl, hat⟩ := run_emitPiece hps.1 hs hu (by omega)
    obtain ⟨qs, hqs, hn, hats⟩ := ih hps.2 (Nat.succ_pos parts) hq.sound h (by omega)
    refine ⟨q :: qs, ?_, hn, .cons (hat.later hq.sound hqs) hats⟩
    rw [joinWords, if_pos hparts] at hq
    exact hq.trans hqs

theorem run_emitPieces {ps : List Piece} (hps : ∀ p ∈ ps, p.Writable) (hne : ps ≠ []) {n : Nat}
    {s t : Parser} (hs : Sound s.chunk s.heap) (h : (emitPieces ps 0).run execBasic s = .done n t)
    (hreports : t.reports.length = s.reports.length) :
    ∃ qs, Compiles (partsWords qs) s t ∧ 0 < n ∧ List.Forall₂ (PieceAt t) ps qs := by
  cases ps with
  | nil => exact absurd rfl hne
  | cons p ps =>
    rw [List.forall_mem_cons] at hps
    obtain ⟨m, u, hu, h⟩ := run_bind_done.mp h
    have hle := reports_le hu
    have hle' := reports_le h
    obtain ⟨q, hq, rfl, hat⟩ := run_emitPiece hps.1 hs hu (by omega)
    obtain ⟨qs, hqs, hn, hats⟩ := run_emitJoined hps.2 Nat.one_pos hq.sound h (by omega)
    refine ⟨q :: qs, ?_, hn, .cons (hat.later hq.sound hqs) hats⟩
    have hall := hq.trans hqs
    rw [joinWords, if_neg (Nat.lt_irrefl 0), List.append_nil] at hall
    exact hall

/-! The literal as a whole. -/

/-- What an item stands for, when the variables are shown as the texts given. -/
def Item.text (shown : Bytes → Bytes) : Item → Bytes
  | seg t => t
  | var n => shown n

def meaning (shown : Bytes → Bytes) (items : List Item) : Bytes := items.flatMap (Item.text shown)

def Piece.shows (shown : Bytes → Bytes) : Piece → Bytes
  | text s => unescape s
  | name n => shown n
  | unclosed => []

theorem unescape_self (t : Bytes) : unescape (escape t) = t := by
  have hround := unescape_escape t []
  rwa [List.append_nil, unescape, List.append_nil] at hround

theorem textPiece_shows (w : Bytes) (shown : Bytes → Bytes) :
    (textPiece w).flatMap (Piece.shows shown) = unescape w := by
  cases w with
  | nil => rfl
  | cons c w => exact List.append_nil _

theorem pieces_shows {items : List Item} (h : Writable items) (shown : Bytes → Bytes) :
    (pieces (written items)).flatMap (Piece.shows shown) = meaning shown items := by
  rw [pieces_written h, List.flatMap_assoc, meaning]
  congr 1
  funext a
  cases a with
  | seg t => exact (textPiece_shows _ shown).trans (unescape_self t)
  | var n => exact List.append_nil _

theorem pieces_ne_nil {s : Bytes} (h : s ≠ []) : pieces s ≠ [] := by
  rw [pieces_eq]
  intro hnil
  obtain ⟨htext, hname⟩ := List.append_eq_nil_iff.mp hnil
  have htake : s.take (segmentLength s) = [] := by
    cases ht : s.take (segmentLength s) with
    | nil => rfl
    | cons c w =>
      rw [ht] at htext
      cases htext
  have hdrop : s.drop (segmentLength s) = [] := by
    cases hd : s.drop (segmentLength s) with
    | nil => rfl
    | cons c behind =>
      rw [hd] at hname
      unfold namePieces at hname
      dsimp only at hname
      split at hname <;> cases hname
  rw [← List.take_append_drop (segmentLength s) s, htake, hdrop] at h
  exact h rfl

theorem mem_pieces {items : List Item} (h : Writable items) {p : Piece} (hp : p ∈ pieces (written items)) :
    (∃ t, .seg t ∈ items ∧ p = .text (escape t)) ∨ ∃ n, .var n ∈ items ∧ p = .name n := by
  rw [pieces_written h] at hp
  obtain ⟨a, ha, hp⟩ := List.mem_flatMap.mp hp
  cases a with
  | var n => exact .inr ⟨n, ha, List.mem_singleton.mp hp⟩
  | seg t =>
    change p ∈ textPiece (escape t) at hp
    unfold textPiece at hp
    split at hp
    · cases hp
    · exact .inl ⟨t, ha, List.mem_singleton.mp hp⟩

theorem pieces_writable {items : List Item} (h : Writable items) :
    ∀ p ∈ pieces (written items), p.Writable := by
  intro p hp
  obtain ⟨t, ht, rfl⟩ | ⟨n, hn, rfl⟩ := mem_pieces h hp
  · rw [Piece.Writable, unescape_self]
    exact (h.text t ht).1
  · exact h.names n hn

/-- The code of a literal that is accepted. -/
theorem run_stringCode {items : List Item} (h : Writable items) {r : Parsers} {u v : Parser}
    (hu : AtString (written items) u) (hs : Sound u.chunk u.heap)
    (hfuel : (written items).length < r.fuel) (hrun : (stringCode r).run execBasic u = .done () v)
    (hreports : v.reports.length = u.reports.length) :
    ∃ qs ps, Compiles (partsWords ps) u v ∧ List.Forall₂ (PieceAt v) qs ps ∧ ps ≠ [] ∧
      (∀ shown, qs.flatMap (Piece.shows shown) = meaning shown items) ∧
      ∀ n, .name n ∈ qs → .var n ∈ items := by
  have hshows := pieces_shows h
  obtain ⟨-, c, hvalue, hdata⟩ := hu
  have htext : execBasic .tokenText u = .done (written items) u := by
    rw [← hdata, execBasic, hvalue]
  unfold stringCode at hrun
  rw [run_bind, run_perform', htext, Outcome.done_andThen] at hrun
  have hnames (n : Bytes) (hn : .name n ∈ pieces (written items)) : .var n ∈ items := by
    obtain ⟨t, _, ht⟩ | ⟨m, hm, hn⟩ := mem_pieces h hn
    · cases ht
    · cases hn
      exact hm
  split at hrun
  · next hseg =>
    rw [loop_parseStringPart hfuel] at hrun
    obtain ⟨n, w, hw, hrun⟩ := run_bind_done.mp hrun
    have hle := reports_le hw
    have hle' := reports_le hrun
    have hne := pieces_ne_nil (List.ne_nil_of_length_pos (Nat.zero_lt_of_lt hseg))
    obtain ⟨ps, hps, hn, hats⟩ := run_emitPieces (pieces_writable h) hne hs hw (by omega)
    rw [if_neg (by omega)] at hrun
    cases hrun
    refine ⟨_, ps, hps, hats, ?_, hshows, hnames⟩
    rintro rfl
    exact hne (List.forall₂_nil_right_iff.mp hats)
  · next hseg =>
    have hrun' : (emitPiece (.text (written items)) 0).run execBasic u = .done 1 v := by
      change (do
        emitOp .push
        emitNat (← poolEscapedString (written items))
        joinPart 0 : P Nat).run execBasic u = _
      obtain ⟨_, w, hw, hrun⟩ := run_bind_done.mp hrun
      obtain ⟨i, x, hx, hrun⟩ := run_bind_done.mp hrun
      exact run_bind_done.mpr ⟨(), w, hw, run_bind_done.mpr ⟨i, x, hx,
        run_bind_done.mpr ⟨(), v, hrun, rfl⟩⟩⟩
    have hpieces := pieces_of_segment hseg
    have hwritable : (Piece.text (written items)).Writable := by
      by_cases hempty : written items = []
      · rw [hempty]
        exact List.not_mem_nil
      · refine pieces_writable h _ ?_
        rw [hpieces, textPiece, if_neg (by simpa using hempty)]
        exact List.mem_singleton_self _
    obtain ⟨q, hq, -, hat⟩ := run_emitPiece hwritable hs hrun' hreports
    refine ⟨[.text (written items)], [q], ?_, .cons hat .nil, by simp, fun shown => ?_,
      fun n hn => by simp at hn⟩
    · exact hq
    · rw [← hshows shown, hpieces, textPiece_shows]
      exact List.append_nil _

/-- A machine about to run the code of a literal. -/
structure Loaded (site : Nat → Nat) (ps : List Part) (v : Parser) (s : State) : Prop where
  names : NamesLive s
  clear : s.runtimeHadError = false
  room : s.vm.stackTop + 1 < vmStackMax
  caches : CachesAgree site s
  sited : ∀ p ∈ ps, p.Sited site s
  code : CodeAt s s.vm.ip (partsWords ps)
  /-- The texts of the pool are those the parser has put there. -/
  constants : ∀ i b, StringAt v i b → ∃ c, s.chunk.pool[i]? = some (.string c) ∧ s.stringData c = some b

/-- The variables of the literal, where the parser has found them, are shown as these texts. -/
def Shows (items : List Item) (v : Parser) (s : State) (shown : Bytes → Bytes) : Prop :=
  ∀ n l, .var n ∈ items → LoadsName v n l → ∃ w, l.got s = .value w ∧ s.format w = some (shown n)

theorem says_of_pieceAt {items : List Item} {site : Nat → Nat} {v : Parser} {s : State} {ps : List Part}
    {shown : Bytes → Bytes} (hl : Loaded site ps v s) (hshown : Shows items v s shown) {qs : List Piece}
    {rs : List Part} (hats : List.Forall₂ (PieceAt v) qs rs) (hnames : ∀ n, .name n ∈ qs → .var n ∈ items) :
    List.Forall₂ (Part.Says s) rs (qs.map (Piece.shows shown)) := by
  induction hats with
  | nil => exact .nil
  | @cons q r qs rs hat _ ih =>
    refine .cons ?_ (ih fun n hn => hnames n (List.mem_cons_of_mem q hn))
    cases hat with
    | text hi => exact hl.constants _ _ hi
    | name hload => exact hshown _ _ (hnames _ List.mem_cons_self) hload

/-- A literal without variables has one segment. -/
theorem segment_written {items : List Item} (h : Writable items) (hvars : ∀ n, .var n ∉ items) :
    ∃ t, written items = escape t ∧ (t = [] ∨ .seg t ∈ items) := by
  cases items with
  | nil => exact ⟨[], rfl, .inl rfl⟩
  | cons a items =>
    cases a with
    | var n => exact absurd List.mem_cons_self (hvars n)
    | seg t =>
      cases items with
      | nil => exact ⟨t, List.append_nil _, .inr List.mem_cons_self⟩
      | cons b items =>
        cases b with
        | var n => exact absurd (List.mem_cons_of_mem _ List.mem_cons_self) (hvars n)
        | seg t' => exact absurd ⟨rfl, rfl⟩ (List.isChain_cons_cons.mp h.apart).1

/-- Short segments are accepted; in a closure a name may be one captured variable too many. -/
theorem reports_stringCode {items : List Item} (h : Writable items) {r : Parsers} {u v : Parser}
    (hu : AtString (written items) u) (hs : Sound u.chunk u.heap)
    (hfuel : (written items).length < r.fuel) (hrun : (stringCode r).run execBasic u = .done () v)
    (hshort : ∀ t, .seg t ∈ items → (escape t).length < 4096)
    (hvars : u.ctx.capturing = true → ∀ n, .var n ∉ items) : v.reports.length = u.reports.length := by
  have href : ¬ ∃ p ∈ pieces (written items), p.Refused := by
    rintro ⟨p, hp, href⟩
    obtain ⟨t, ht, rfl⟩ | ⟨n, hn, rfl⟩ := mem_pieces h hp
    · exact absurd (hshort t ht) (Nat.not_lt.mpr href)
    · exact isName_ne_nil (h.names n hn) href
  obtain ⟨w, hw, hcalm⟩ := stringCode_ends (fun _ _ _ => rfl) hu hfuel
  rw [hrun] at hw
  cases hw
  rw [if_neg href] at hcalm
  obtain ⟨k, hk, hzero⟩ := hcalm
  cases hcapt : u.ctx.capturing with
  | false =>
    rw [hk.reports, hzero hcapt]
    rfl
  | true =>
    obtain ⟨t, ht, hmem⟩ := segment_written h (hvars hcapt)
    have hseg : ¬ segmentLength (written items) < (written items).length := by
      have hlen := segmentLength_escape t []
      rw [List.append_nil] at hlen
      rw [ht, hlen]
      exact Nat.not_lt.mpr (Nat.le_add_right _ _)
    have htext : 0 ∉ unescape (escape t) ∧ (escape t).length < 4096 := by
      rw [unescape_self]
      rcases hmem with rfl | hmem
      · exact ⟨List.not_mem_nil, by decide⟩
      · exact ⟨(h.text t hmem).1, hshort t hmem⟩
    obtain ⟨-, c, hvalue, hdata⟩ := hu
    have htoken : execBasic .tokenText u = .done (written items) u := by
      rw [← hdata, execBasic, hvalue]
    have hpush : Compiles [Opcode.push.word] u (u.setChunk (u.chunk.emitOp .push)) := .emit hs _
    obtain ⟨i, x, hpool, -, -, hsame, -⟩ := run_poolText htext.1 hpush.sound
    unfold stringCode poolEscapedString at hrun
    rw [run_bind, run_perform', htoken, Outcome.done_andThen, if_neg hseg, run_bind,
      show (emitOp .push : P Unit).run execBasic u = .done () (u.setChunk (u.chunk.emitOp .push)) from rfl,
      Outcome.done_andThen, run_bind, ht, if_pos htext.2, hpool] at hrun
    cases hrun
    exact congrArg List.length hsame

/-- What the operations other than imports give. -/
theorem run_of_basic (env : Env) (fuel imports : Nat) {α : Type} {p : P α} {s t : Parser} {a : α}
    (h : p.run execBasic s = .done a t) : p.run (exec env fuel imports) s = .done a t := by
  refine run_mono (fun o s a t ho => ?_) h
  rw [exec_basic env fuel imports (fun name path he => by subst he; cases ho) s, ho]

/-- Three special bytes and a variable. -/
def greeting : List Item := [.seg (bytes "a\"\x7b\n"), .var (bytes "x")]

end Aer.Compiler
