import Aer.Compiler.Defaults
import Aer.Machine.ExprCode

set_option linter.all false

/-! How expressions are parsed: the tokens a tree of operators is written as, by precedence and
to the left, and that operator climbing reads the tree back and emits its code. -/
namespace Aer.Compiler

open Aer.Data Aer.Memory Aer.Machine Aer.Lib.Interaction

/-! The grammar. -/

/-- A token, with the value the lexer gives to a literal or a name. -/
structure Token where
  type : TokenType
  value : Option Literal := none

inductive Leaf
  | constant (p : Plain)
  | name (n : Bytes)

namespace Leaf

def token : Leaf → Token
  | constant .null => { type := .null }
  | constant (.boolean true) => ⟨.true, some (.boolean true)⟩
  | constant (.boolean false) => ⟨.false, some (.boolean false)⟩
  | constant (.integer n) => ⟨.integer, some (.integer n)⟩
  | constant (.real d) => ⟨.real, some (.real d)⟩
  | constant (.string b) => ⟨.string, some (.string (escape b))⟩
  | constant .other => { type := .endOfFile }
  | name n => ⟨.identifier, some (.string n)⟩

/-- The operand can be written in a source: of the reals only those no other constant is taken
for. -/
def Writable : Leaf → Prop
  | constant (.real d) => d.isNaN = false ∧ d.magnitude ≠ 0
  | constant (.string b) => 0 ∉ b ∧ (escape b).length < 4096
  | constant .other => False
  | constant .null | constant (.boolean _) | constant (.integer _) => True
  | name n => isName n = true

end Leaf

/-- The token of a binary operator. -/
def operatorToken : Opcode → TokenType
  | .bitwiseOr => .bitwiseOr
  | .bitwiseXor => .bitwiseXor
  | .bitwiseAnd => .bitwiseAnd
  | .eq => .equal
  | .neq => .notEqual
  | .lt => .less
  | .gt => .greater
  | .lte => .lessEqual
  | .gte => .greaterEqual
  | .isIn => .isIn
  | .lshift => .leftShift
  | .rshift => .rightShift
  | .add => .add
  | .sub => .subtract
  | .mul => .multiply
  | .div => .divide
  | .mod => .modulo
  | .floorDiv => .floorDivide
  | _ => .endOfFile

def precedence (op : Opcode) : Nat := ((binaryOperator (operatorToken op)).map Prod.fst).getD 0

def logicalToken (decisive : Bool) : TokenType := if decisive then .or else .and

def logicalPrecedence (decisive : Bool) : Nat := if decisive then 1 else 2

/-- The name of a type behind `as`. -/
def castName : CastType → Bytes
  | .string => bytes "string"
  | .integer => bytes "integer"
  | .float => bytes "float"
  | .boolean => bytes "boolean"

def castPrecedence : Nat := 11

/-- How tightly an expression without any binary operator holds together. -/
def unaryLevel : Nat := 12

end Aer.Compiler

namespace Aer.Machine.Expr

open Aer.Data Aer.Compiler

def tokens : Expr Leaf → List Token
  | operand a => [a.token]
  | group e => { type := .openParenthese } :: e.tokens ++ [{ type := .closeParenthese }]
  | unary .not e => { type := .not } :: e.tokens
  | unary .bitwiseNot e => { type := .bitwiseNot } :: e.tokens
  | unary .negate e => { type := .subtract } :: e.tokens
  | unary (.as type) e => e.tokens ++ [{ type := .as }, ⟨.identifier, some (.string (castName type))⟩]
  | binary op l r => l.tokens ++ { type := operatorToken op } :: r.tokens
  | logical decisive l r => l.tokens ++ { type := logicalToken decisive } :: r.tokens
  | choose c a b =>
      { type := .if } :: c.tokens ++ { type := .colon } :: a.tokens ++
        { type := .else } :: { type := .colon } :: b.tokens
  | when c a => { type := .if } :: c.tokens ++ { type := .colon } :: a.tokens

variable {α : Type}

/-- How tightly the outermost operator binds. -/
def level : Expr α → Nat
  | unary (.as _) _ => castPrecedence
  | binary op _ _ => precedence op
  | logical decisive _ _ => logicalPrecedence decisive
  | _ => unaryLevel

/-- The expression ends in a conditional, which any operator behind it belongs to. -/
def isOpen : Expr α → Bool
  | operand _ | group _ | unary (.as _) _ => false
  | unary _ e => e.isOpen
  | binary _ _ r | logical _ _ r => r.isOpen
  | choose _ _ _ | when _ _ => true

/-- It ends in a conditional whose `else` may still come. -/
def dangles : Expr α → Bool
  | operand _ | group _ | unary (.as _) _ => false
  | unary _ e => e.dangles
  | binary _ _ r | logical _ _ r => r.dangles
  | choose _ _ b => b.dangles
  | when _ _ => true

def size : Expr α → Nat
  | operand _ => 1
  | group e | unary _ e => e.size + 1
  | binary _ l r | logical _ l r | when l r => l.size + r.size + 1
  | choose c a b => c.size + a.size + b.size + 1

/-- The levels of nesting that the parser counts. -/
def nesting : Expr α → Nat
  | operand _ => 2
  | unary (.as _) e => e.nesting
  | unary _ e => e.nesting + 1
  | group e => e.nesting + 2
  | binary _ l r | logical _ l r => max l.nesting r.nesting
  | choose c a b => max c.nesting (max a.nesting b.nesting) + 2
  | when c a => max c.nesting a.nesting + 2

/-- The binary operators that the climbing loop takes in turn. -/
def spine : Expr α → Nat
  | binary _ l _ | logical _ l _ | unary (.as _) l => l.spine + 1
  | _ => 0

/-- A tree that is written without more parentheses than it has: operators of one level to the
left, and no operator behind a conditional. -/
def Fits : Expr Leaf → Prop
  | operand a => a.Writable
  | group e => e.Fits
  | unary (.as _) e => e.Fits ∧ castPrecedence ≤ e.level ∧ e.isOpen = false
  | unary _ e => e.Fits ∧ e.level = unaryLevel
  | binary op l r =>
      binaryOperator (operatorToken op) = some (precedence op, op) ∧
        (l.Fits ∧ precedence op ≤ l.level ∧ l.isOpen = false) ∧ r.Fits ∧ precedence op < r.level
  | logical decisive l r =>
      (l.Fits ∧ logicalPrecedence decisive ≤ l.level ∧ l.isOpen = false) ∧
        r.Fits ∧ logicalPrecedence decisive < r.level
  | choose c a b => c.Fits ∧ a.Fits ∧ a.dangles = false ∧ b.Fits
  | when c a => c.Fits ∧ a.Fits

/-- The variables, each as often as it is named. -/
def names (e : Expr Leaf) : List Bytes :=
  e.operands.filterMap fun
    | .name n => some n
    | .constant _ => none

/-- The token goes on with no such expression, where operators above `k` do. -/
structure Stops (e : Expr Leaf) (k : Nat) (type : TokenType) : Prop where
  behind : type ≠ .openParenthese ∧ type ≠ .openBracket ∧ type ≠ .dot
  operator : ∀ prec op, binaryOperator type = some (prec, op) → prec ≤ k ∧ e.isOpen = false
  dangling : e.dangles = true → type ≠ .else

theorem Stops.weaken {e : Expr Leaf} {j k : Nat} {type : TokenType} (h : e.Stops k type) (hk : k ≤ j) :
    e.Stops j type :=
  ⟨h.behind, fun prec op hop => ⟨(h.operator prec op hop).1.trans hk, (h.operator prec op hop).2⟩, h.dangling⟩

/-- Two trees of one shape, whose operands are related. -/
inductive Rel {β : Type} (R : α → β → Prop) : Expr α → Expr β → Prop
  | operand {a : α} {b : β} : R a b → Rel R (operand a) (operand b)
  | group {e : Expr α} {e' : Expr β} : Rel R e e' → Rel R (group e) (group e')
  | unary {e : Expr α} {e' : Expr β} (op : Unary) : Rel R e e' → Rel R (unary op e) (unary op e')
  | binary {l r : Expr α} {l' r' : Expr β} (op : Opcode) :
      Rel R l l' → Rel R r r' → Rel R (binary op l r) (binary op l' r')
  | logical {l r : Expr α} {l' r' : Expr β} (decisive : Bool) :
      Rel R l l' → Rel R r r' → Rel R (logical decisive l r) (logical decisive l' r')
  | choose {c a b : Expr α} {c' a' b' : Expr β} :
      Rel R c c' → Rel R a a' → Rel R b b' → Rel R (choose c a b) (choose c' a' b')
  | when {c a : Expr α} {c' a' : Expr β} : Rel R c c' → Rel R a a' → Rel R (when c a) (when c' a')

theorem Rel.mono {β : Type} {R Q : α → β → Prop} (hRQ : ∀ a b, R a b → Q a b) {e : Expr α} {e' : Expr β}
    (h : Rel R e e') : Rel Q e e' := by
  induction h with
  | operand h => exact .operand (hRQ _ _ h)
  | group _ ih => exact .group ih
  | unary op _ ih => exact .unary op ih
  | binary op _ _ ihl ihr => exact .binary op ihl ihr
  | logical decisive _ _ ihl ihr => exact .logical decisive ihl ihr
  | choose _ _ _ ihc iha ihb => exact .choose ihc iha ihb
  | when _ _ ihc iha => exact .when ihc iha

/-- Every operand is that of one in the other tree. -/
theorem Rel.of_mem {β : Type} {R : α → β → Prop} {e : Expr α} {e' : Expr β} (h : Rel R e e') {b : β}
    (hb : b ∈ e'.operands) : ∃ a ∈ e.operands, R a b := by
  have hsides {l r : List α} {p q : List β} (ihl : b ∈ p → ∃ a ∈ l, R a b)
      (ihr : b ∈ q → ∃ a ∈ r, R a b) (hb : b ∈ p ++ q) : ∃ a ∈ l ++ r, R a b := by
    obtain hb | hb := List.mem_append.mp hb
    · obtain ⟨a, ha, hab⟩ := ihl hb
      exact ⟨a, List.mem_append_left _ ha, hab⟩
    · obtain ⟨a, ha, hab⟩ := ihr hb
      exact ⟨a, List.mem_append_right _ ha, hab⟩
  induction h with
  | @operand a b' h =>
    obtain rfl := List.mem_singleton.mp hb
    exact ⟨a, List.mem_singleton_self a, h⟩
  | group _ ih | unary _ _ ih => exact ih hb
  | binary _ _ _ ihl ihr | logical _ _ _ ihl ihr | when _ _ ihl ihr => exact hsides ihl ihr hb
  | choose _ _ _ ihc iha ihb => exact hsides (hsides ihc iha) ihb hb

theorem Rel.depth {β : Type} {R : α → β → Prop} {e : Expr α} {e' : Expr β} (h : Rel R e e') :
    e'.depth = e.depth := by
  induction h with
  | operand _ => rfl
  | group _ ih | unary _ _ ih => exact ih
  | _ => simp_all only [Expr.depth]

end Aer.Machine.Expr

namespace Aer.Compiler

open Aer.Data Aer.Memory Aer.Machine Aer.Lib.Interaction

/-! What is written so far. -/

/-- Nothing but the cursor, the pool, the code and the tables of captured variables and of address
caches has changed, and at most `n` variables have been captured. -/
structure Passes (n : Nat) (ws : List Int) (s t : Parser) : Prop extends Compiles ws s t where
  reports : t.reports = s.reports
  grows : Heap.Grows s.heap t.heap
  captured : t.ctx.captureCtx.capturedNames.length ≤ s.ctx.captureCtx.capturedNames.length + n
  imports : t.chunk.importedModules = s.chunk.importedModules
  flag : t.parseHadError = s.parseHadError

/-- And the current token is still the same. -/
structure Writes (n : Nat) (ws : List Int) (s t : Parser) : Prop extends Passes n ws s t where
  lexer : t.lexer = s.lexer
  tokenType : t.tokenType = s.tokenType
  tokenValue : t.tokenValue = s.tokenValue

section Steps
variable {m n : Nat} {ws ws' : List Int} {s t u : Parser}

theorem Passes.trans (h : Passes m ws s t) (h' : Passes n ws' t u) : Passes (m + n) (ws ++ ws') s u where
  toCompiles := h.toCompiles.trans h'.toCompiles
  reports := h'.reports.trans h.reports
  grows := h.grows.trans h'.grows
  captured := by
    have := h.captured
    have := h'.captured
    omega
  imports := h'.imports.trans h.imports
  flag := h'.flag.trans h.flag

theorem Writes.trans (h : Writes m ws s t) (h' : Writes n ws' t u) : Writes (m + n) (ws ++ ws') s u where
  toPasses := h.toPasses.trans h'.toPasses
  lexer := h'.lexer.trans h.lexer
  tokenType := h'.tokenType.trans h.tokenType
  tokenValue := h'.tokenValue.trans h.tokenValue

theorem Writes.refl (hs : Sound s.chunk s.heap) : Writes 0 [] s s :=
  ⟨⟨.refl hs, rfl, .refl _ _, le_rfl, rfl, rfl⟩, rfl, rfl, rfl⟩

theorem Writes.emit (hs : Sound s.chunk s.heap) (w : Int) : Writes 0 [w] s (s.setChunk (s.chunk.emit w)) :=
  ⟨⟨.emit hs w, rfl, .refl _ _, le_rfl, rfl, rfl⟩, rfl, rfl, rfl⟩

/-- A change of the heap alone. -/
theorem Writes.heap (hs : Sound s.chunk s.heap) {h : Heap} (hg : Heap.Grows s.heap h) :
    Writes 0 [] s { s with heap := h } := by
  have hk : KeepsPool s.chunk.pool s.heap h := keepsPool_of_growsBut (hg.but _)
  exact ⟨⟨⟨⟨(List.append_nil _).symm, hs.kept rfl rfl hk, List.prefix_rfl, hk⟩, le_rfl,
    [], (captureAll_nil _).symm⟩, rfl, hg, le_rfl, rfl, rfl⟩, rfl, rfl, rfl⟩

end Steps

/-! Tokens. -/

/-- A value that holds a literal. -/
def Holds (h : Heap) (v : AerVal) (p : Plain) : Prop := IsLiteral h v ∧ plain h v = p

def Literal.plain : Literal → Plain
  | .integer n => .integer n
  | .real d => .real d
  | .boolean b => .boolean b
  | .string b => .string b

/-- The literal has a value a source can hold. -/
def Literal.Sourced : Literal → Prop
  | .real d => d.isNaN = false
  | .string b => 0 ∉ b
  | .integer _ | .boolean _ => True

/-- What a call of the lexer gives is the token, without a report. -/
structure Lexed.Is (r : Lexed) (tok : Token) : Prop where
  reports : r.reports = []
  type : r.type = some tok.type
  value : r.value = tok.value
  sourced : ∀ lit, tok.value = some lit → lit.Sourced

/-- The lexer gives these tokens next. -/
def Gives : Lexer → List Token → Prop
  | _, [] => True
  | l, tok :: toks => l.lex.Is tok ∧ Gives l.lex.lexer toks

/-- The parser has these tokens before it. -/
def Ahead (s : Parser) : List Token → Prop
  | [] => True
  | tok :: toks =>
      (s.tokenType = tok.type ∧ ∀ lit, tok.value = some lit → Holds s.heap s.tokenValue lit.plain) ∧
        Gives s.lexer toks

theorem Holds.grows {h h' : Heap} (hg : Heap.Grows h h') {v : AerVal} {p : Plain} (hv : Holds h v p) :
    Holds h' v p := by
  obtain ⟨hlit, rfl⟩ := hv
  cases v with
  | string c =>
    have hdata : h'.strings.data c = h.strings.data c := hg.data (.string c) hlit.1 id
    refine ⟨⟨hg.live _ hlit.1, ?_⟩, ?_⟩
    · rw [hdata]
      exact hlit.2
    · simp only [plain, hdata]
  | long c =>
    have hdata : h'.longs.data c = h.longs.data c := hg.data (.long c) hlit id
    exact ⟨hg.live (.long c) hlit, by simp only [plain, hdata]⟩
  | function c | array c | dict c => exact hlit.elim
  | _ => exact ⟨trivial, rfl⟩

section Tokens
variable {m n : Nat} {ws : List Int} {s t : Parser} {tok : Token} {toks : List Token}

theorem Ahead.after (h : Ahead s toks) (hst : Writes n ws s t) : Ahead t toks := by
  cases toks with
  | nil => trivial
  | cons tok toks =>
    obtain ⟨⟨htype, hvalue⟩, hgives⟩ := h
    refine ⟨⟨hst.tokenType.trans htype, fun lit hlit => ?_⟩, ?_⟩
    · rw [hst.tokenValue]
      exact (hvalue lit hlit).grows hst.grows
    · rw [hst.lexer]
      exact hgives

/-- The value that the parser makes of a literal. -/
theorem holds_literal {h : Heap} (hw : h.PoolsWf) (lit : Literal) (hlit : lit.Sourced) :
    Holds (Parser.literal h lit).2 (Parser.literal h lit).1 lit.plain ∧
      Heap.Grows h (Parser.literal h lit).2 := by
  cases lit with
  | integer n =>
    refine ⟨?_, Heap.grows_aerInt hw n⟩
    change Holds (h.aerInt n).2 (h.aerInt n).1 (.integer n)
    unfold Heap.aerInt
    split
    · exact ⟨trivial, rfl⟩
    · refine ⟨(Pool.live_alloc hw.longs n _).mpr (.inl rfl), ?_⟩
      exact congrArg Plain.integer ((congrFun (Pool.alloc_data h.longs n) _).trans (Function.update_self _ _ _))
  | real d =>
    have hreal : aerReal d = .real d := by
      unfold aerReal
      rw [if_neg (by rw [show d.isNaN = false from hlit]; exact Bool.false_ne_true)]
    refine ⟨?_, .refl _ _⟩
    change Holds h (aerReal d) (.real d)
    rw [hreal]
    exact ⟨trivial, rfl⟩
  | boolean b => exact ⟨⟨trivial, rfl⟩, .refl _ _⟩
  | string b =>
    have hdata := data_aerMakeString h b
    refine ⟨⟨⟨(Pool.live_alloc hw.strings b _).mpr (.inl rfl), fun c hc h0 => ?_⟩, ?_⟩,
      Heap.grows_aerMakeString hw b⟩
    · exact hlit (h0 ▸ (show (h.aerMakeString b).2.strings.data _ = b from hdata) ▸ hc)
    · exact congrArg Plain.string hdata

/-- The parser goes on to the next token. -/
theorem Gives.ahead (hs : Sound s.chunk s.heap) {next : Token} (h : Gives s.lexer (next :: toks)) :
    Passes 0 [] s s.lex ∧ Ahead s.lex (next :: toks) := by
  obtain ⟨his, hgives⟩ := h
  let s' : Parser := { s with lexer := s.lexer.lex.lexer, tokenType := next.type }
  have hlex : s.lex = s'.setLiteral next.value := by
    unfold Parser.lex
    dsimp only
    rw [his.reports, his.type, his.value]
    rfl
  have hpass : Passes 0 [] s s' :=
    ⟨.of_same hs (List.append_nil _).symm rfl rfl rfl le_rfl ⟨[], (captureAll_nil _).symm⟩, rfl,
      .refl _ _, le_rfl, rfl, rfl⟩
  rw [hlex]
  cases hvalue : next.value with
  | none => exact ⟨hpass, ⟨rfl, fun lit hlit => absurd (hvalue.symm.trans hlit) (by simp)⟩, hgives⟩
  | some lit =>
    obtain ⟨hholds, hgrows⟩ := holds_literal hs.wf lit (his.sourced lit hvalue)
    have hheap := Writes.heap hpass.sound hgrows
    refine ⟨⟨⟨⟨?_, hheap.sound, hheap.pool, hheap.keeps⟩, le_rfl, [], (captureAll_nil _).symm⟩, rfl,
      hgrows, le_rfl, rfl, rfl⟩, ⟨rfl, fun lit' hlit' => ?_⟩, hgives⟩
    · exact (List.append_nil _).symm
    · obtain rfl : lit = lit' := Option.some.inj (hvalue.symm.trans hlit')
      exact hholds

theorem Ahead.lex (hs : Sound s.chunk s.heap) {next : Token} (h : Ahead s (tok :: next :: toks)) :
    Passes 0 [] s s.lex ∧ Ahead s.lex (next :: toks) :=
  h.2.ahead hs

theorem Ahead.lex_append (hs : Sound s.chunk s.heap) {next : Token} {rest : List Token}
    (h : Ahead s (tok :: (toks ++ next :: rest))) : Passes 0 [] s s.lex ∧ Ahead s.lex (toks ++ next :: rest) := by
  cases toks with
  | nil => exact h.lex hs
  | cons a as => exact h.lex hs

/-! What the parser's own operations do at a token. -/

theorem run_then {α β : Type} {p : P α} {f : α → P β} {a : α} (h : p.run execBasic s = .done a t) :
    (p >>= f).run execBasic s = (f a).run execBasic t := by
  rw [run_bind, h, Outcome.done_andThen]

theorem run_equal (type : TokenType) : (equal type).run execBasic s = .done (s.tokenType == type) s := rfl

theorem run_consume {type : TokenType} (h : s.tokenType = type) :
    (consume type).run execBasic s = .done true s.lex := by
  unfold consume
  rw [run_then (run_equal type), h, if_pos (beq_self_eq_true type)]
  rfl

theorem run_notConsumed {type : TokenType} (h : s.tokenType ≠ type) :
    (consume type).run execBasic s = .done false s := by
  unfold consume
  rw [run_then (run_equal type), if_neg (by simpa using h)]
  rfl

theorem run_require {type : TokenType} (h : s.tokenType = type) (msg : String) :
    (require type msg).run execBasic s = .done () s.lex := by
  unfold require
  rw [run_then (run_equal type), h, if_pos (beq_self_eq_true type)]
  rfl

theorem Passes.nested (h : Passes n ws (s.deeper 1) t) : Passes n ws s t.shallower where
  code := h.code
  sound := h.sound
  pool := h.pool
  keeps := h.keeps
  caches := h.caches
  ctx := by
    obtain ⟨names, hctx⟩ := h.ctx
    refine ⟨names, ?_⟩
    unfold Parser.shallower
    rw [hctx]
    rfl
  reports := h.reports
  grows := h.grows
  captured := h.captured
  imports := h.imports
  flag := h.flag

end Tokens

/-! Operands. -/

/-- A pool entry that holds this constant. -/
def ConstantAt (t : Parser) (i : Nat) (p : Plain) : Prop :=
  ∃ e, t.chunk.pool[i]? = some e ∧ Holds t.heap e p

/-- No other constant is taken for this one. -/
def Plain.Single : Plain → Prop
  | .real d => d.magnitude ≠ 0
  | _ => True

section Operands
variable {n : Nat} {ws : List Int} {s t : Parser} {p : Plain} {v : AerVal} {i : Nat}

theorem ConstantAt.later (h : ConstantAt s i p) (hst : Passes n ws s t) : ConstantAt t i p := by
  obtain ⟨e, he, hholds⟩ := h
  obtain ⟨more, hmore⟩ := hst.pool
  refine ⟨e, ?_, hholds.grows hst.grows⟩
  rw [← hmore, List.getElem?_append_left (List.getElem?_eq_some_iff.mp he).1, he]

theorem ConstantAt.stringAt {b : Bytes} (h : ConstantAt t i (.string b)) : StringAt t i b := by
  obtain ⟨e, he, -, hplain⟩ := h
  cases e with
  | string c => exact ⟨c, he, Plain.string.inj hplain⟩
  | _ => cases hplain

theorem Holds.not_confused {h : Heap} (hv : Holds h v p) (hp : p.Single) (e : AerVal) : ¬ Confused h e v := by
  obtain ⟨hlit, rfl⟩ := hv
  cases v with
  | real d =>
    cases e with
    | real x => exact fun hc => hp hc.2.1
    | _ => exact id
  | function c => exact hlit.elim
  | _ => cases e <;> exact id

/-- A constant is put into the pool, or found there. -/
theorem pooled (hs : Sound s.chunk s.heap) (hv : Holds s.heap v p) (hp : p.Single) :
    Writes 0 [] s (s.addPool v).2 ∧ ConstantAt (s.addPool v).2 (s.addPool v).1 p := by
  have hserves := serves_addPool hs hv.1.constant
  obtain ⟨hctx, hreports, hcaches, hcode⟩ := addPool_same s v
  have hsame : (s.addPool v).2.lexer = s.lexer ∧ (s.addPool v).2.tokenType = s.tokenType ∧
      (s.addPool v).2.tokenValue = s.tokenValue ∧
      (s.addPool v).2.chunk.importedModules = s.chunk.importedModules ∧
      (s.addPool v).2.parseHadError = s.parseHadError := by
    unfold Parser.addPool
    cases v <;> dsimp only <;> split <;> exact ⟨rfl, rfl, rfl, rfl, rfl⟩
  have hsound : Sound (s.addPool v).2.chunk (s.addPool v).2.heap := hserves.heap ▸ hserves.sound
  refine ⟨⟨⟨⟨⟨?_, hsound, hserves.kept, ?_⟩, hcaches ▸ le_rfl, [], ?_⟩, hreports, ?_, ?_, hsame.2.2.2.1, hsame.2.2.2.2⟩,
    hsame.1, hsame.2.1, hsame.2.2.1⟩, ?_⟩
  · rw [hcode, List.append_nil]
  · rw [hserves.heap]
    exact .refl _ _
  · rw [hctx, captureAll_nil]
  · rw [hserves.heap]
    exact .refl _ _
  · rw [hctx]
    exact Nat.le_add_right _ _
  · obtain ⟨e, he, hiff⟩ := hserves.entry
    have hcontent := hiff.mpr fun e _ => hv.not_confused hp e
    have hconst := hsound.constants e (List.mem_of_getElem? he)
    obtain ⟨hlit, rfl⟩ := hv
    have hv' : content s.heap v = .plain (plain s.heap v) := by
      cases v with
      | function c => exact hlit.elim
      | _ => rfl
    rw [hv'] at hcontent
    refine ⟨e, he, ?_⟩
    cases e with
    | function c => cases hcontent
    | _ =>
      refine ⟨hconst, ?_⟩
      rw [hserves.heap]
      exact Content.plain.inj hcontent

/-- The constant of a text. -/
theorem run_poolString {b : Bytes} (hs : Sound s.chunk s.heap) (hb : 0 ∉ b) :
    ∃ i t, (do addPool (← perform (.makeString b)) : P Nat).run execBasic s = .done i t ∧
      Writes 0 [] s t ∧ ConstantAt t i (.string b) := by
  obtain ⟨hholds, hgrows⟩ := holds_literal hs.wf (.string b) hb
  have hmake := Writes.heap hs hgrows
  obtain ⟨hpool, hat⟩ := pooled hmake.sound hholds trivial
  exact ⟨_, _, rfl, hmake.trans hpool, hat⟩

/-- The code that pushes a constant. -/
theorem writes_emitPush (hs : Sound s.chunk s.heap) (hv : Holds s.heap v p) (hp : p.Single) :
    ∃ i t, (emitPush v).run execBasic s = .done () t ∧ Writes 0 (instructionWords .push [i]) s t ∧
      ConstantAt t i p := by
  have hpush : Writes 0 [Opcode.push.word] s (s.setChunk (s.chunk.emitOp .push)) := .emit hs _
  obtain ⟨hpool, hat⟩ := pooled hpush.sound (s := s.setChunk (s.chunk.emitOp .push)) hv hp
  let r := (s.setChunk (s.chunk.emitOp .push)).addPool v
  have hnat : Writes 0 [(r.1 : Int)] r.2 (r.2.setChunk (r.2.chunk.emit r.1)) := .emit hpool.sound _
  exact ⟨r.1, r.2.setChunk (r.2.chunk.emit r.1), rfl, (hpush.trans hpool).trans hnat, hat.later hnat.toPasses⟩

/-- A change of the code and of the captured variables alone, of which there is one more at most. -/
def Resolves (s t : Parser) : Prop :=
  ∃ ctx c, t = { s with ctx := ctx, chunk := c } ∧ c.importedModules = s.chunk.importedModules ∧
    ctx.captureCtx.capturedNames.length ≤ s.ctx.captureCtx.capturedNames.length + 1

theorem resolves_captureClassify
    (hroom : s.ctx.captureCtx.capturedNames.length < maxCaptures) :
    ∃ captured ctx, (captureClassify i false).run execBasic s = .done captured { s with ctx := ctx } ∧
      ctx.captureCtx.capturedNames.length ≤ s.ctx.captureCtx.capturedNames.length + 1 := by
  unfold captureClassify context
  rw [run_bind, run_perform']
  change ∃ captured ctx, ((if s.ctx.captureIsLocal i = true then _ else _ : P Bool).run execBasic s) = _ ∧ _
  split
  · exact ⟨false, s.ctx, rfl, Nat.le_succ _⟩
  split
  · exact ⟨true, s.ctx, rfl, Nat.le_succ _⟩
  rw [if_neg (fun hwrite => Bool.false_ne_true hwrite.1)]
  exact ⟨true, s.ctx.captureAddCaptured i, rfl, (List.length_append ..).le⟩

/-- The rest of `emitLoad` once the name has been classified. -/
def emitAccess (i : Nat) (captured : Bool) : P Unit := do
  if captured then
    emitOp .loadUpvalue
    emitNat ((← context).captureSlot i)
  else
    match (← context).currentParamSlot i with
    | some slot =>
        emitOp .loadLocal
        emitNat slot
    | none =>
        emitOp .load
        emitNat i
        emitNat (← addAddrCache)

theorem emitLoad_eq (i : Nat) : emitLoad i = (do
    let captured ← if (← context).capturing then captureClassify i false else pure false
    emitAccess i captured) :=
  rfl

theorem resolves_emitAccess (captured : Bool) (ctx : Context) (hctx : ctx.captureCtx.capturedNames.length ≤
    s.ctx.captureCtx.capturedNames.length + 1) :
    ∃ t, (emitAccess i captured).run execBasic { s with ctx := ctx } = .done () t ∧ Resolves s t := by
  unfold emitAccess
  cases captured with
  | true => exact ⟨_, rfl, ctx, _, rfl, rfl, hctx⟩
  | false =>
    rw [if_neg Bool.false_ne_true, run_then (show context.run execBasic { s with ctx := ctx } = .done ctx _ from rfl)]
    cases ctx.currentParamSlot i with
    | some slot => exact ⟨_, rfl, ctx, _, rfl, rfl, hctx⟩
    | none => exact ⟨_, rfl, ctx, _, rfl, rfl, hctx⟩

theorem resolves_emitLoad (hroom : s.ctx.capturing = true →
    s.ctx.captureCtx.capturedNames.length < maxCaptures) :
    ∃ t, (emitLoad i).run execBasic s = .done () t ∧ Resolves s t := by
  rw [emitLoad_eq, run_then (show context.run execBasic s = .done s.ctx s from rfl)]
  by_cases hcapturing : s.ctx.capturing = true
  · obtain ⟨captured, ctx, hrun, hctx⟩ := resolves_captureClassify (i := i) (hroom hcapturing)
    rw [if_pos hcapturing, run_then hrun]
    exact resolves_emitAccess captured ctx hctx
  · rw [if_neg hcapturing, run_then (show (pure false : P Bool).run execBasic s = .done false s from rfl)]
    exact resolves_emitAccess false s.ctx (Nat.le_succ _)

/-- The code that loads a variable. -/
theorem run_emitLoad_room {b : Bytes} (hs : Sound s.chunk s.heap) (hi : StringAt s i b)
    (hroom : s.ctx.capturing = true → s.ctx.captureCtx.capturedNames.length < maxCaptures) :
    ∃ l t, (emitLoad i).run execBasic s = .done () t ∧ Writes 1 (Loader.words l) s t ∧ LoadsName t b l := by
  obtain ⟨t, ht, ctx, c, rfl, himports, hcaptured⟩ := resolves_emitLoad (i := i) hroom
  obtain ⟨l, hcompiles, hloads⟩ := run_emitLoad hs hi ht rfl
  exact ⟨l, _, ht, ⟨⟨hcompiles, rfl, .refl _ _, hcaptured, himports, rfl⟩, rfl, rfl, rfl⟩, hloads⟩

end Operands

/-! What parsing an expression leaves. -/

/-- The code reads the operand this way. -/
def Stands (t : Parser) : Leaf → Fetch → Prop
  | .constant p, .const i => ConstantAt t i p
  | .name n, .var l => LoadsName t n l
  | _, _ => False

/-- What the parser needs to read an expression of so many levels with these variables. -/
structure Allows (s : Parser) (nesting : Nat) (names : List Bytes) : Prop where
  sound : Sound s.chunk s.heap
  depth : s.ctx.exprDepth + nesting ≤ exprDepthMax
  room : s.ctx.capturing = true →
    s.ctx.captureCtx.capturedNames.length + names.length ≤ maxCaptures
  /-- No variable is the name of a module. -/
  free : ∀ n ∈ names, s.isImported n = false

/-- The expression has been read up to the tokens `ahead`; `ws` is its code, in which it has
become the tree `c`. -/
structure Parsed (e : Expr Leaf) (ahead : List Token) (s t : Parser) (c : Expr Fetch) (ws : List Int) :
    Prop where
  passes : Passes e.names.length ws s t
  ahead : Ahead t ahead
  stands : Expr.Rel (Stands t) e c
  coded : Coded t.chunk.pool c s.chunk.count ws

section Expressions
variable {n k : Nat} {ws : List Int} {s t : Parser} {e : Expr Leaf} {c : Expr Fetch} {xs ys : List Bytes}
  {next : Token} {ahead rest : List Token}

theorem Stands.later (hs : Sound s.chunk s.heap) (h : Passes n ws s t) {a : Leaf} {b : Fetch}
    (hab : Stands s a b) : Stands t a b := by
  cases a with
  | constant p =>
    cases b with
    | const i => exact ConstantAt.later hab h
    | var l => exact hab
  | name m =>
    cases b with
    | const i => exact hab
    | var l => exact LoadsName.later hs h.toCompiles hab

theorem Allows.deeper (h : Allows s (k + 1) xs) : Allows (s.deeper 1) k xs where
  sound := h.sound
  depth := by
    have := h.depth
    change s.ctx.exprDepth + 1 + k ≤ exprDepthMax
    omega
  room := h.room
  free := h.free

theorem Allows.mono {j : Nat} (h : Allows s k xs) (hj : j ≤ k) : Allows s j xs where
  sound := h.sound
  depth := (Nat.add_le_add_left hj _).trans h.depth
  room := h.room
  free := h.free

theorem Allows.left (h : Allows s k (xs ++ ys)) : Allows s k xs where
  sound := h.sound
  depth := h.depth
  room hc := by
    have := h.room hc
    rw [List.length_append] at this
    omega
  free n hn := h.free n (List.mem_append_left ys hn)

theorem Allows.after (h : Allows s k (xs ++ ys)) (hst : Passes xs.length ws s t) : Allows t k ys where
  sound := hst.sound
  depth := by
    obtain ⟨names, hctx⟩ := hst.ctx
    rw [hctx]
    exact h.depth
  room hc := by
    obtain ⟨names, hctx⟩ := hst.ctx
    have hroom := h.room (by rw [hctx] at hc; exact hc)
    have := hst.captured
    rw [List.length_append] at hroom
    omega
  free n hn := by
    unfold Parser.isImported
    rw [hst.imports]
    exact h.free n (List.mem_append_right xs hn)

theorem Parsed.nested (h : Parsed e ahead (s.deeper 1) t c ws) : Parsed e ahead s t.shallower c ws where
  passes := h.passes.nested
  ahead := by
    cases ahead with
    | nil => trivial
    | cons tok toks => exact h.ahead
  stands := h.stands.mono fun a b hab => by
    cases a <;> cases b <;> exact hab
  coded := h.coded

theorem run_token (type : TokenType) (h : s.tokenType = type) :
    (perform .token : P TokenType).run execBasic s = .done type s :=
  congrArg (fun type => Outcome.done type s) h

theorem run_tokenText {b : Bytes} (h : Holds s.heap s.tokenValue (.string b)) :
    (perform .tokenText : P Bytes).run execBasic s = .done b s := by
  obtain ⟨-, hplain⟩ := h
  rw [run_perform']
  cases hv : s.tokenValue with
  | string x =>
    rw [hv] at hplain
    simp only [execBasic, hv]
    exact congrArg (fun b => Outcome.done b s) (Plain.string.inj hplain)
  | _ =>
    rw [hv] at hplain
    cases hplain

/-- A literal of one token is pushed. -/
theorem reads_literal {tok : Token} {v : AerVal} {p : Plain} (hs : Sound s.chunk s.heap)
    (hv : Holds s.heap v p) (hp : p.Single) (hahead : Ahead s (tok :: next :: rest)) :
    ∃ t i, (parseConstant v).run execBasic s = .done () t ∧
      Parsed (.operand (.constant p)) (next :: rest) s t (.operand (.const i)) (instructionWords .push [i]) := by
  obtain ⟨i, u, hu, hsu, hat⟩ := writes_emitPush hs hv hp
  obtain ⟨hpass, hnext⟩ := (hahead.after hsu).lex hsu.sound
  refine ⟨u.lex, i, ?_, hsu.toPasses.trans hpass, hnext, .operand (hat.later hpass), .operand (.const i) _⟩
  unfold parseConstant
  exact (run_then hu).trans rfl

/-- A constant, from its token on. -/
theorem reads_constant {r : Parsers} {f : P Unit} {p : Plain} (hp : (Leaf.constant p).Writable)
    (hs : Sound s.chunk s.heap) (hahead : Ahead s ((Leaf.constant p).token :: next :: rest)) :
    ∃ t i, (parsePrimaryInner r f).run execBasic s = .done () t ∧
      Parsed (.operand (.constant p)) (next :: rest) s t (.operand (.const i)) (instructionWords .push [i]) := by
  obtain ⟨⟨htype, hvalue⟩, -⟩ := id hahead
  unfold parsePrimaryInner
  cases p with
  | null =>
    rw [run_then (run_token .null htype)]
    exact reads_literal hs ⟨trivial, rfl⟩ trivial hahead
  | boolean b =>
    have hbool : (perform .tokenBool : P Bool).run execBasic s = .done b s := by
      obtain ⟨-, hplain⟩ := hvalue (.boolean b) (by cases b <;> rfl)
      rw [run_perform']
      cases hv : s.tokenValue with
      | boolean d =>
        rw [hv] at hplain
        cases hplain
        simp only [execBasic, hv]
      | _ =>
        rw [hv] at hplain
        cases hplain
    have hrun := reads_literal (v := aerBool b) (p := .boolean b) hs ⟨trivial, rfl⟩ trivial hahead
    cases b with
    | false =>
      rw [run_then (run_token .false htype)]
      rw [run_then hbool]
      exact hrun
    | true =>
      rw [run_then (run_token .true htype)]
      rw [run_then hbool]
      exact hrun
  | integer n =>
    have hint : (perform .tokenInt : P Int).run execBasic s = .done n s := by
      obtain ⟨hlit, hplain⟩ := hvalue (.integer n) rfl
      rw [run_perform']
      cases hv : s.tokenValue with
      | integer d | long d =>
        rw [hv] at hplain
        obtain rfl := Plain.integer.inj hplain
        simp only [execBasic, hv]
        rfl
      | _ =>
        rw [hv] at hlit hplain
        cases hplain
    obtain ⟨hholds, hgrows⟩ := holds_literal hs.wf (.integer n) trivial
    have hmake := Writes.heap hs hgrows
    rw [run_then (run_token .integer htype)]
    rw [run_then hint, run_then (show (perform (.makeInt n) : P AerVal).run execBasic s =
      .done (s.heap.aerInt n).1 { s with heap := (s.heap.aerInt n).2 } from rfl)]
    obtain ⟨t, i, ht, hparsed⟩ := reads_literal hmake.sound hholds trivial (hahead.after hmake)
    exact ⟨t, i, ht, hmake.toPasses.trans hparsed.passes, hparsed.ahead, hparsed.stands, .operand _ _⟩
  | real d =>
    have hreal : (perform .tokenReal : P Double).run execBasic s = .done d s := by
      obtain ⟨-, hplain⟩ := hvalue (.real d) rfl
      rw [run_perform']
      cases hv : s.tokenValue with
      | real x =>
        rw [hv] at hplain
        cases hplain
        simp only [execBasic, hv]
      | _ =>
        rw [hv] at hplain
        cases hplain
    have hd : aerReal d = .real d := by
      unfold aerReal
      rw [if_neg (by rw [hp.1]; exact Bool.false_ne_true)]
    rw [run_then (run_token .real htype)]
    rw [run_then hreal, hd]
    exact reads_literal hs ⟨trivial, rfl⟩ hp.2 hahead
  | string b =>
    have htext := run_tokenText (hvalue (.string (escape b)) rfl)
    have hwhole : ¬ segmentLength (escape b) < (escape b).length := by
      have hlen := segmentLength_escape b []
      rw [List.append_nil] at hlen
      omega
    have hpush : Writes 0 [Opcode.push.word] s (s.setChunk (s.chunk.emitOp .push)) := .emit hs _
    obtain ⟨i, u, hu, hpool, hat⟩ := run_poolString hpush.sound hp.1
    have hnat : Writes 0 [(i : Int)] u (u.setChunk (u.chunk.emit i)) := .emit hpool.sound _
    have hall := (hpush.trans hpool).trans hnat
    obtain ⟨hpass, hnext⟩ := (hahead.after hall).lex hall.sound
    refine ⟨(u.setChunk (u.chunk.emit i)).lex, i, ?_, hall.toPasses.trans hpass, hnext,
      .operand ((hat.later hnat.toPasses).later hpass), .operand _ _⟩
    rw [run_then (run_token .string htype)]
    unfold parseString
    rw [run_then htext, if_neg hwhole]
    unfold poolEscapedString
    rw [if_pos hp.2, unescape_self,
      run_then (show (emitOp .push : P Unit).run execBasic s = .done () (s.setChunk (s.chunk.emitOp .push)) from rfl),
      run_bind, hu, Outcome.done_andThen]
    rfl
  | other => exact hp.elim

/-- A variable, from its token on; what is behind it is no index, call or field. -/
theorem reads_name {r : Parsers} {f : P Unit} {b : Bytes} (hfuel : 0 < r.fuel)
    (hallows : Allows s 0 [b]) (hahead : Ahead s ((Leaf.name b).token :: next :: rest))
    (hstops : Expr.Stops (.operand (.name b)) k next.type) :
    ∃ t l, (parsePrimaryInner r f).run execBasic s = .done () t ∧
      Parsed (.operand (.name b)) (next :: rest) s t (.operand (.var l)) l.words := by
  have hs := hallows.sound
  obtain ⟨⟨htype, hvalue⟩, -⟩ := id hahead
  have htype : s.tokenType = .identifier := htype
  have hholds : Holds s.heap s.tokenValue (.string b) := hvalue _ rfl
  -- The name is no module's, and is put into the pool.
  have hmodule : atModuleName.run execBasic s = .done false s := by
    unfold atModuleName
    rw [run_then (run_equal .identifier), htype, if_pos (beq_self_eq_true TokenType.identifier),
      run_then (run_tokenText hholds)]
    exact congrArg (fun imported => Outcome.done imported s) (hallows.free b (List.mem_singleton_self b))
  obtain ⟨hpool, hat⟩ := pooled hs hholds trivial
  obtain ⟨hlex, hnext⟩ := (hahead.after hpool).lex hpool.sound
  -- What comes next belongs to nothing of the name's.
  obtain ⟨hparen, hbracket, hdot⟩ := hstops.behind
  have htype' : (s.addPool s.tokenValue).2.lex.tokenType = next.type := hnext.1.1
  have hroom : (s.addPool s.tokenValue).2.lex.ctx.capturing = true →
      (s.addPool s.tokenValue).2.lex.ctx.captureCtx.capturedNames.length < maxCaptures :=
    ((show Allows s 0 ([] ++ [b]) from hallows).after (hpool.toPasses.trans hlex)).room
  obtain ⟨l, u, hu, hload, hname⟩ := run_emitLoad_room hlex.sound (hat.later hlex).stringAt hroom
  have hlast : u.tokenType = next.type := hload.tokenType.trans htype'
  refine ⟨u, l, ?_, (hpool.toPasses.trans hlex).trans hload.toPasses, hnext.after hload, .operand hname,
    .operand _ _⟩
  have hpostfix : (parsePostfix r).run execBasic u = .done true u := by
    obtain ⟨m, hm⟩ := Nat.exists_eq_add_of_lt hfuel
    unfold parsePostfix
    rw [hm, Nat.zero_add, loop, run_bind, run_then (run_notConsumed (by rw [hlast]; exact hbracket)),
      if_neg Bool.false_ne_true, run_then (run_notConsumed (by rw [hlast]; exact hparen)),
      if_neg Bool.false_ne_true, run_then (run_notConsumed (by rw [hlast]; exact hdot)),
      if_neg Bool.false_ne_true]
    rfl
  unfold parsePrimaryInner
  rw [run_then (run_token .identifier htype), run_then hmodule, if_neg Bool.false_ne_true]
  unfold parseName
  have hpoolToken : poolToken.run execBasic s = .done (s.addPool s.tokenValue).1 (s.addPool s.tokenValue).2 := rfl
  rw [run_then hpoolToken, run_then (show lex.run execBasic (s.addPool s.tokenValue).2 = .done () _ from rfl),
    run_then (run_notConsumed (by rw [htype']; exact hparen)), if_neg Bool.false_ne_true,
    run_then (run_notConsumed (by rw [htype']; exact hbracket)), if_neg Bool.false_ne_true, run_then hu,
    run_then hpostfix]
  rfl

/-! Jumps. -/

def Parser.patched (s : Parser) (i : Nat) (w : Int) : Parser :=
  s.setChunk { s.chunk with code := s.chunk.code.set i w }

theorem run_emitJump (hs : Sound s.chunk s.heap) (op : Opcode) :
    ∃ t, (emitJump op).run execBasic s = .done (s.chunk.count + 1) t ∧
      Writes 0 (instructionWords op [0]) s t := by
  have hop : Writes 0 [op.word] s (s.setChunk (s.chunk.emitOp op)) := .emit hs _
  have hzero := Writes.emit hop.sound (0 : Nat)
  refine ⟨_, ?_, hop.trans hzero⟩
  have hcount : (s.setChunk (s.chunk.emitOp op)).chunk.count = s.chunk.count + 1 :=
    List.length_append.trans (congrArg (s.chunk.code.length + ·) List.length_singleton)
  exact congrArg (fun n => Outcome.done n _) hcount

theorem run_patchHere {i : Nat} (hi : i < s.chunk.count) :
    (patchHere i).run execBasic s = .done () (s.patched i s.chunk.count) := by
  unfold patchHere
  rw [run_then (show count.run execBasic s = .done s.chunk.count s from rfl), run_perform']
  exact if_pos hi

theorem Passes.count (h : Passes n ws s t) : t.chunk.count = s.chunk.count + ws.length := by
  unfold Chunk.count
  rw [h.code, List.length_append]

theorem Passes.patched {i : Nat} {pre post : List Int} {w : Int} (h : Passes n (pre ++ w :: post) s t)
    (hi : i = s.chunk.count + pre.length) (w' : Int) :
    Passes n (pre ++ w' :: post) s (t.patched i w') where
  code := by
    change t.chunk.code.set i w' = _
    rw [h.code, hi, Chunk.count, List.set_append_right _ _ (Nat.le_add_right _ _), Nat.add_sub_cancel_left,
      List.set_append_right _ _ le_rfl, Nat.sub_self, List.set_cons_zero]
  sound := h.sound.kept rfl rfl (.refl _ _)
  pool := h.pool
  keeps := h.keeps
  caches := h.caches
  ctx := h.ctx
  reports := h.reports
  grows := h.grows
  captured := h.captured
  imports := h.imports
  flag := h.flag

theorem count_patched (s : Parser) (i : Nat) (w : Int) : (s.patched i w).chunk.count = s.chunk.count :=
  List.length_set

theorem Ahead.patched (h : Ahead s ahead) (i : Nat) (w : Int) : Ahead (s.patched i w) ahead := by
  cases ahead with
  | nil => trivial
  | cons tok toks => exact h

theorem Stands.patched {a : Leaf} {b : Fetch} (h : Stands s a b) (i : Nat) (w : Int) :
    Stands (s.patched i w) a b := by
  cases a <;> cases b <;> exact h

theorem ConstantAt.boolean {i : Nat} {b : Bool} (h : ConstantAt t i (.boolean b)) :
    t.chunk.pool[i]? = some (aerBool b) := by
  obtain ⟨e, he, -, hplain⟩ := h
  cases e <;> cases hplain
  exact he

theorem ConstantAt.null {i : Nat} (h : ConstantAt t i .null) : t.chunk.pool[i]? = some .null := by
  obtain ⟨e, he, -, hplain⟩ := h
  cases e <;> cases hplain
  exact he

/-- What is known of a parsed expression when the parser has gone on. -/
structure Known (e : Expr Leaf) (t : Parser) (c : Expr Fetch) (ip : Nat) (ws : List Int) : Prop where
  stands : Expr.Rel (Stands t) e c
  coded : Coded t.chunk.pool c ip ws

theorem Parsed.known (h : Parsed e ahead s t c ws) : Known e t c s.chunk.count ws := ⟨h.stands, h.coded⟩

theorem Known.later {ip : Nat} {ws' : List Int} (h : Known e s c ip ws') (hs : Sound s.chunk s.heap)
    (hst : Passes n ws s t) : Known e t c ip ws' :=
  ⟨h.stands.mono fun _ _ => Stands.later hs hst, h.coded.mono hst.pool⟩

theorem Known.patched {ip : Nat} (h : Known e s c ip ws) (i : Nat) (w : Int) :
    Known e (s.patched i w) c ip ws :=
  ⟨h.stands.mono fun _ _ hab => hab.patched i w, h.coded⟩

/-- `&&` and `||` behind their left side and the operator. -/
theorem run_parseShortCircuit {r : Parsers} (decisive : Bool) (prec : Nat) (ahead : List Token)
    (hs : Sound s.chunk s.heap)
    (hrhs : ∀ u, Writes 0 (instructionWords (branchOn decisive) [0]) s u →
      ∃ t c ws, (r.binary prec).run execBasic u = .done () t ∧ Parsed e ahead u t c ws) :
    ∃ t c ws through decided,
      (parseShortCircuit r (branchOn decisive) decisive prec).run execBasic s = .done true t ∧
        Passes e.names.length (shortCircuit (branchOn decisive) s.chunk.count ws through decided) s t ∧
        Ahead t ahead ∧ Known e t c (s.chunk.count + 2) ws ∧
        t.chunk.pool[through]? = some (aerBool !decisive) ∧
        t.chunk.pool[decided]? = some (aerBool decisive) := by
  obtain ⟨u₁, hu₁, hw₁⟩ := run_emitJump hs (branchOn decisive)
  obtain ⟨u₂, c, ws, hu₂, hparsed⟩ := hrhs u₁ hw₁
  obtain ⟨u₃, hu₃, hw₃⟩ := run_emitJump hparsed.passes.sound (branchOn decisive)
  obtain ⟨through, u₄, hu₄, hw₄, hthrough⟩ := writes_emitPush (v := aerBool !decisive) (p := .boolean !decisive)
    hw₃.sound ⟨trivial, rfl⟩ trivial
  obtain ⟨u₅, hu₅, hw₅⟩ := run_emitJump hw₄.sound .jump
  have hbehind := (hw₃.trans hw₄).trans hw₅
  -- Where the jumps lie, and where they go.
  obtain ⟨stop, hstop⟩ : ∃ stop, stop = s.chunk.count + ws.length + 8 := ⟨_, rfl⟩
  have hcount₂ : u₂.chunk.count = s.chunk.count + ws.length + 2 := by
    rw [hparsed.passes.count, hw₁.count]
    simp only [instructionWords, List.map_cons, List.map_nil, List.length_cons, List.length_nil]
    omega
  have hcount₄ : u₄.chunk.count = s.chunk.count + ws.length + 6 := by
    rw [(hw₃.trans hw₄).count, hcount₂]
    simp only [instructionWords, List.map_cons, List.map_nil, List.length_append, List.length_cons,
      List.length_nil]
  have hcount₅ : u₅.chunk.count = stop := by
    rw [hw₅.count, hcount₄, hstop]
    rfl
  -- The first two jumps go to the value that is decided.
  let u₆ := u₅.patched (s.chunk.count + 1) stop
  let u₇ := u₆.patched (u₂.chunk.count + 1) stop
  have hto₅ : Passes e.names.length ([(branchOn decisive).word] ++ 0 ::
      (ws ++ (instructionWords (branchOn decisive) [0] ++
        (instructionWords .push [through] ++ instructionWords .jump [0])))) s u₅ := by
    simpa [instructionWords] using (hw₁.toPasses.trans hparsed.passes).trans hbehind.toPasses
  have hto₆ : Passes e.names.length
      (((branchOn decisive).word :: (stop : Int) :: ws ++ [(branchOn decisive).word]) ++ 0 ::
        (instructionWords .push [through] ++ instructionWords .jump [0])) s u₆ := by
    simpa [instructionWords] using hto₅.patched (i := s.chunk.count + 1) rfl stop
  have hto₇ := hto₆.patched (i := u₂.chunk.count + 1) (by
    rw [hcount₂]
    simp only [List.length_append, List.length_cons, List.length_nil]
    omega) stop
  have hcount₆ : u₆.chunk.count = stop := (count_patched ..).trans hcount₅
  have hcount₇ : u₇.chunk.count = stop := (count_patched ..).trans hcount₆
  obtain ⟨decided, u₈, hu₈, hw₈, hdecided⟩ := writes_emitPush (s := u₇) (v := aerBool decisive)
    (p := .boolean decisive) hto₇.sound ⟨trivial, rfl⟩ trivial
  have hcount₈ : u₈.chunk.count = stop + 2 := by
    rw [hw₈.count, hcount₇]
    rfl
  -- And the last one behind it.
  have hto₈ : Passes e.names.length
      (((branchOn decisive).word :: (stop : Int) :: ws ++
        (branchOn decisive).word :: (stop : Int) ::
          (instructionWords .push [through] ++ [Opcode.jump.word])) ++ 0 ::
        instructionWords .push [decided]) s u₈ := by
    simpa [instructionWords] using hto₇.trans hw₈.toPasses
  have hlast := hto₈.patched (i := u₄.chunk.count + 1) (by
    rw [hcount₄]
    simp only [instructionWords, List.map_cons, List.map_nil, List.length_append, List.length_cons,
      List.length_nil]
    omega) (stop + 2 : Nat)
  have hahead₇ : Ahead u₇ ahead := ((hparsed.ahead.after hbehind).patched _ _).patched _ _
  have hknown₇ : Known e u₇ c u₁.chunk.count ws :=
    ((hparsed.known.later hparsed.passes.sound hbehind.toPasses).patched _ _).patched _ _
  have hthrough₅ := hthrough.later hw₅.toPasses
  have hthrough₇ : ConstantAt u₇ through (.boolean !decisive) := hthrough₅
  refine ⟨u₈.patched (u₄.chunk.count + 1) (stop + 2 : Nat), c, ws, through, decided, ?_, ?_,
    (hahead₇.after hw₈).patched _ _, ?_, (hthrough₇.later hw₈.toPasses).boolean, hdecided.boolean⟩
  · have hpatch₆ : (patchHere (s.chunk.count + 1)).run execBasic u₅ = .done () u₆ := by
      rw [run_patchHere (by omega), hcount₅]
    have hpatch₇ : (patchHere (u₂.chunk.count + 1)).run execBasic u₆ = .done () u₇ := by
      rw [run_patchHere (by omega), hcount₆]
    have hpatch₈ : (patchHere (u₄.chunk.count + 1)).run execBasic u₈ =
        .done () (u₈.patched (u₄.chunk.count + 1) (stop + 2 : Nat)) := by
      rw [run_patchHere (by omega), hcount₈]
    unfold parseShortCircuit
    rw [run_then hu₁, run_then hu₂, run_then hu₃, run_then hu₄, run_then hu₅, run_then hpatch₆,
      run_then hpatch₇, run_then hu₈, run_then hpatch₈]
    rfl
  · simpa [shortCircuit, instructionWords, hstop] using hlast
  · rw [hw₁.count] at hknown₇
    exact (hknown₇.later hto₇.sound hw₈.toPasses).patched _ _

/-- The rest of a conditional, with or without an `else`. -/
def parseElse (r : Parsers) : P Unit := do
  if ← consume .else then
    require .colon "expected ':' after else"
    r.binary 0
  else emitPush .null

theorem parseIfExpr_eq (r : Parsers) : parseIfExpr r = (do
    r.binary 0
    require .colon "expected ':' after if condition"
    let jif ← emitJump .jumpIfFalse
    r.binary 0
    let jmp ← emitJump .jump
    patchHere jif
    parseElse r
    patchHere jmp) := by
  unfold parseIfExpr parseElse
  iterate 6 (congr 1; funext _)
  rw [bind_assoc]
  congr 1
  funext found
  cases found with
  | false => rfl
  | true => simp only [if_true, bind_assoc]

/-- The inline conditional behind its `if`; `Q` tells what the rest leaves. -/
theorem run_parseIfExpr {r : Parsers} {e' : Expr Leaf} {colon : Token} (behind : List Token) (hcolon : colon.type = .colon)
    {Q : Nat → List Int → Parser → Prop}
    (hcond : ∃ t c ws, (r.binary 0).run execBasic s = .done () t ∧ Parsed e (colon :: next :: ahead) s t c ws)
    (hthen : ∀ ws u, Passes e.names.length ws s u → Ahead u (next :: ahead) →
      ∃ t c ws, (r.binary 0).run execBasic u = .done () t ∧ Parsed e' rest u t c ws)
    (helse : ∀ ws u, Passes (e.names.length + e'.names.length) ws s u → Ahead u rest →
      ∃ t ws, (parseElse r).run execBasic u = .done () t ∧ Passes n ws u t ∧ Ahead t behind ∧
        Q u.chunk.count ws t)
    (hQ : ∀ ip ws t i w, Q ip ws t → Q ip ws (t.patched i w)) :
    ∃ t c c' ws yes no, (parseIfExpr r).run execBasic s = .done () t ∧
      Passes (e.names.length + e'.names.length + n) (ws ++ twoSided (s.chunk.count + ws.length) yes no) s t ∧
      Ahead t behind ∧ Known e t c s.chunk.count ws ∧ Known e' t c' (s.chunk.count + ws.length + 2) yes ∧
      Q (s.chunk.count + ws.length + 4 + yes.length) no t := by
  obtain ⟨u₁, c, ws, hu₁, hparsed₁⟩ := hcond
  obtain ⟨hlex, hahead₂⟩ := hparsed₁.ahead.lex hparsed₁.passes.sound
  obtain ⟨u₃, hu₃, hw₃⟩ := run_emitJump hlex.sound .jumpIfFalse
  have hto₂ : Passes e.names.length ws s u₁.lex := by
    simpa using hparsed₁.passes.trans hlex
  have hto₃ := hto₂.trans hw₃.toPasses
  obtain ⟨u₄, c', yes, hu₄, hparsed₄⟩ := hthen _ u₃ hto₃ (hahead₂.after hw₃)
  obtain ⟨u₅, hu₅, hw₅⟩ := run_emitJump hparsed₄.passes.sound .jump
  have hcount₂ : u₁.lex.chunk.count = s.chunk.count + ws.length := hto₂.count
  have hcount₃ : u₃.chunk.count = s.chunk.count + ws.length + 2 := by
    rw [hw₃.count, hcount₂]
    rfl
  have hcount₄ : u₄.chunk.count = s.chunk.count + ws.length + 2 + yes.length := by
    rw [hparsed₄.passes.count, hcount₃]
  have hcount₅ : u₅.chunk.count = s.chunk.count + ws.length + yes.length + 4 := by
    rw [hw₅.count, hcount₄]
    simp only [instructionWords, List.map_cons, List.map_nil, List.length_cons, List.length_nil]
    omega
  -- A condition that fails goes behind the first side.
  let u₆ := u₅.patched (s.chunk.count + ws.length + 1) (s.chunk.count + ws.length + yes.length + 4 : Nat)
  have hto₅ : Passes (e.names.length + e'.names.length)
      ((ws ++ [Opcode.jumpIfFalse.word]) ++ 0 :: (yes ++ instructionWords .jump [0])) s u₅ := by
    simpa [instructionWords] using (hto₃.trans hparsed₄.passes).trans hw₅.toPasses
  have hto₆ := hto₅.patched (i := s.chunk.count + ws.length + 1)
    (by rw [List.length_append, List.length_singleton, Nat.add_assoc])
    (s.chunk.count + ws.length + yes.length + 4 : Nat)
  have hcount₆ : u₆.chunk.count = s.chunk.count + ws.length + yes.length + 4 :=
    (count_patched ..).trans hcount₅
  have hahead₆ : Ahead u₆ rest := (hparsed₄.ahead.after hw₅).patched _ _
  obtain ⟨u₇, no, hu₇, hpass₇, hahead₇, hQ₇⟩ := helse _ u₆ hto₆ hahead₆
  have hcount₇ : u₇.chunk.count = s.chunk.count + ws.length + yes.length + 4 + no.length := by
    rw [hpass₇.count, hcount₆]
  -- The end of the first side goes behind the second.
  have hto₇ : Passes (e.names.length + e'.names.length + n)
      ((ws ++ Opcode.jumpIfFalse.word :: ((s.chunk.count + ws.length + yes.length + 4 : Nat) : Int) ::
        (yes ++ [Opcode.jump.word])) ++ 0 :: no) s u₇ := by
    simpa [instructionWords] using hto₆.trans hpass₇
  have hlast := hto₇.patched (i := u₄.chunk.count + 1) (by
    rw [hcount₄]
    simp only [List.length_append, List.length_cons, List.length_nil]
    omega) (s.chunk.count + ws.length + yes.length + 4 + no.length : Nat)
  have hknown₅ := ((hparsed₁.known.later hparsed₁.passes.sound hlex).later hlex.sound
    hw₃.toPasses).later hw₃.sound (hparsed₄.passes.trans hw₅.toPasses)
  have hknown₅' := hparsed₄.known.later hparsed₄.passes.sound hw₅.toPasses
  have hknown₆ : Known e u₆ c s.chunk.count ws := hknown₅.patched _ _
  have hknown₆' : Known e' u₆ c' u₃.chunk.count yes := hknown₅'.patched _ _
  refine ⟨u₇.patched (u₄.chunk.count + 1) (s.chunk.count + ws.length + yes.length + 4 + no.length : Nat),
    c, c', ws, yes, no, ?_, ?_, hahead₇.patched _ _, (hknown₆.later hto₆.sound hpass₇).patched _ _, ?_,
    hQ _ _ _ _ _ ?_⟩
  · have hjif : (emitJump .jumpIfFalse).run execBasic u₁.lex =
        .done (s.chunk.count + ws.length + 1) u₃ := by
      rw [hu₃, hcount₂]
    have hpatch₆ : (patchHere (s.chunk.count + ws.length + 1)).run execBasic u₅ = .done () u₆ := by
      rw [run_patchHere (by omega), hcount₅]
    have hpatch₇ : (patchHere (u₄.chunk.count + 1)).run execBasic u₇ =
        .done () (u₇.patched (u₄.chunk.count + 1)
          (s.chunk.count + ws.length + yes.length + 4 + no.length : Nat)) := by
      rw [run_patchHere (by omega), hcount₇]
    rw [parseIfExpr_eq, run_then hu₁, run_then (run_require (hparsed₁.ahead.1.1.trans hcolon) _), run_then hjif,
      run_then hu₄, run_then hu₅, run_then hpatch₆, run_then hu₇, hpatch₇]
  · simpa [twoSided, instructionWords] using hlast
  · rw [hcount₃] at hknown₆'
    exact (hknown₆'.later hto₆.sound hpass₇).patched _ _
  · rw [hcount₆] at hQ₇
    rwa [show s.chunk.count + ws.length + 4 + yes.length = s.chunk.count + ws.length + yes.length + 4 by omega]

end Expressions

/-! Reading a tree: primary expressions, signs in front, and the climbing over operators. -/

/-- One turn of the climbing loop. -/
def climbTurn (r : Parsers) (minPrec : Nat) : P (Unit ⊕ Unit) := do
  match binaryOperator (← perform .token) with
  | none => return .inr ()
  | some (prec, op) =>
      if prec ≤ minPrec then return .inr ()
      else
        lex
        if ← parseOperand r prec op then return .inl () else return .inr ()

def climb (r : Parsers) (minPrec turns : Nat) : P Unit := loop (fun _ => climbTurn r minPrec) turns ()

theorem parseBinaryOps_eq (r : Parsers) (minPrec : Nat) : parseBinaryOps r minPrec = climb r minPrec r.fuel :=
  rfl

theorem fuel_parsers (m : Nat) : (parsers m).fuel = m := by
  cases m <;> rfl

def ReadsPrimary (e : Expr Leaf) : Prop := ∀ m f s next rest, 2 * e.size ≤ m + 1 →
  Ahead s (e.tokens ++ next :: rest) → Allows s (e.nesting - 2) e.names → e.Stops unaryLevel next.type →
  ∃ t c ws, (parsePrimaryInner (parsers m) f).run execBasic s = .done () t ∧
    Parsed e (next :: rest) s t c ws

def ReadsUnary (e : Expr Leaf) : Prop := ∀ m s next rest, 2 * e.size ≤ m →
  Ahead s (e.tokens ++ next :: rest) → Allows s e.nesting e.names → e.Stops unaryLevel next.type →
  ∃ t c ws, (parsers m).unary.run execBasic s = .done () t ∧ Parsed e (next :: rest) s t c ws

/-- From its first token on, the climbing reads the expression and is where it was. -/
def Climbs (e : Expr Leaf) : Prop := ∀ m k turns s next rest, 2 * e.size ≤ m → k < e.level →
  e.spine ≤ turns → Ahead s (e.tokens ++ next :: rest) → Allows s e.nesting e.names →
  e.Stops e.level next.type →
  ∃ t c ws, Parsed e (next :: rest) s t c ws ∧
    (do (parsers m).unary; climb (parsers m) k turns : P Unit).run execBasic s =
      (climb (parsers m) k (turns - e.spine)).run execBasic t

def ReadsBinary (e : Expr Leaf) : Prop := ∀ m k s next rest, 2 * e.size + 1 ≤ m → k < e.level →
  Ahead s (e.tokens ++ next :: rest) → Allows s e.nesting e.names → e.Stops k next.type →
  ∃ t c ws, ((parsers m).binary k).run execBasic s = .done () t ∧ Parsed e (next :: rest) s t c ws

section Trees
variable {e l r : Expr Leaf} {op : Opcode} {k : Nat} {type : TokenType} {s t : Parser}

theorem isBinary_of_token (h : binaryOperator (operatorToken op) = some (k, op)) : op.isBinary = true := by
  cases op <;> first | rfl | cases h

theorem parseOperand_of_token (h : binaryOperator (operatorToken op) = some (k, op)) (r : Parsers) (prec : Nat) :
    parseOperand r prec op = (do
      r.binary prec
      emitOp op
      return true) := by
  cases op <;> first | rfl | cases h

theorem operatorToken_ne (op : Opcode) : operatorToken op ≠ .openParenthese ∧
    operatorToken op ≠ .openBracket ∧ operatorToken op ≠ .dot ∧ operatorToken op ≠ .else := by
  cases op <;> decide

theorem precedence_pos (h : binaryOperator (operatorToken op) = some (k, op)) : 0 < precedence op := by
  cases op <;> first | decide | cases h

theorem level_pos (h : e.Fits) : 0 < e.level := by
  cases e with
  | unary op e => cases op <;> exact Nat.succ_pos _
  | binary op l r => exact precedence_pos h.1
  | logical decisive l r => cases decisive <;> exact Nat.succ_pos _
  | _ => exact Nat.succ_pos _

theorem spine_lt_size (e : Expr Leaf) : e.spine < e.size := by
  induction e with
  | unary op e ih =>
    cases op
    all_goals
      simp only [Expr.spine, Expr.size]
      omega
  | _ =>
    simp only [Expr.spine, Expr.size]
    omega

/-- The loop leaves the token that goes on with nothing. -/
theorem climb_stops (rs : Parsers) {turns : Nat} (hturns : 0 < turns)
    (h : ∀ prec op, binaryOperator s.tokenType = some (prec, op) → prec ≤ k) :
    (climb rs k turns).run execBasic s = .done () s := by
  obtain ⟨n, rfl⟩ := Nat.exists_eq_succ_of_ne_zero hturns.ne'
  have hturn : (climbTurn rs k).run execBasic s = .done (.inr ()) s := by
    unfold climbTurn
    rw [run_then (run_token _ rfl)]
    cases hop : binaryOperator s.tokenType with
    | none => rfl
    | some found =>
      obtain ⟨prec, op⟩ := found
      dsimp only
      rw [if_pos (h prec op hop)]
      rfl
  unfold climb loop
  rw [run_then hturn]
  rfl

theorem climb_succ (rs : Parsers) {turns : Nat} (h : (climbTurn rs k).run execBasic s = .done (.inl ()) t) :
    (climb rs k (turns + 1)).run execBasic s = (climb rs k turns).run execBasic t := by
  unfold climb
  rw [loop, run_then h]

theorem readsBinary_of_climbs (he : Climbs e) : ReadsBinary e := by
  intro m k s next rest hm hk hahead hallows hstops
  obtain ⟨m, rfl⟩ := Nat.exists_eq_succ_of_ne_zero (show m ≠ 0 by omega)
  have hspine := spine_lt_size e
  obtain ⟨t, c, ws, hparsed, hrun⟩ := he m k m s next rest (by omega) hk (by omega) hahead hallows
    (hstops.weaken hk.le)
  refine ⟨t, c, ws, ?_, hparsed⟩
  change (parseBinary (parsers m) k).run execBasic s = _
  unfold parseBinary
  rw [parseBinaryOps_eq, fuel_parsers, hrun]
  refine climb_stops _ (by omega) fun prec op hop => (hstops.operator prec op ?_).1
  rw [← hop, hparsed.ahead.1.1]

theorem climbs_of_unary (hlevel : e.level = unaryLevel) (hspine : e.spine = 0) (he : ReadsUnary e) :
    Climbs e := by
  intro m k turns s next rest hm hk hturns hahead hallows hstops
  obtain ⟨t, c, ws, hrun, hparsed⟩ := he m s next rest hm hahead hallows (hlevel ▸ hstops)
  refine ⟨t, c, ws, hparsed, ?_⟩
  rw [run_then hrun, hspine, Nat.sub_zero]

theorem names_binary (op : Opcode) (l r : Expr Leaf) : (Expr.binary op l r).names = l.names ++ r.names :=
  List.filterMap_append

theorem names_logical (decisive : Bool) (l r : Expr Leaf) :
    (Expr.logical decisive l r).names = l.names ++ r.names :=
  List.filterMap_append

theorem Allows.again {names : List Bytes} {ws : List Int} (h : Allows s k names) (hst : Passes 0 ws s t) :
    Allows t k names :=
  (show Allows s k ([] ++ names) from h).after hst

/-- An operator behind its left side, when what stands behind it is read and joined to the left. -/
theorem climbs_operator (op : Opcode) (tok : Token) (prec : Nat) {more : List Token} {names : List Bytes}
    (htok : binaryOperator tok.type = some (prec, op))
    (hbare : tok.type ≠ .openParenthese ∧ tok.type ≠ .openBracket ∧ tok.type ≠ .dot ∧ tok.type ≠ .else)
    (htokens : e.tokens = l.tokens ++ tok :: more) (hlevel : e.level = prec) (hspine : e.spine = l.spine + 1)
    (hsize : l.size < e.size) (hnames : e.names = l.names ++ names) (hnesting : l.nesting ≤ e.nesting)
    (hl : Climbs l) (hbinds : prec ≤ l.level) (hclosed : l.isOpen = false)
    (hoperand : ∀ m u next rest, 2 * e.size ≤ m → Ahead u (more ++ next :: rest) →
      Allows u e.nesting names → e.Stops prec next.type → ∃ t ws,
        (parseOperand (parsers m) prec op).run execBasic u = .done true t ∧ Passes names.length ws u t ∧
          Ahead t (next :: rest) ∧ ∀ c ip ws', Known l t c ip ws' → u.chunk.count = ip + ws'.length →
            ∃ c', Known e t c' ip (ws' ++ ws)) : Climbs e := by
  intro m k turns s next rest hm hk hturns hahead hallows hstops
  rw [htokens, List.append_assoc, List.cons_append] at hahead
  rw [hnames] at hallows
  rw [hlevel] at hk hstops
  have hstopsl : l.Stops l.level tok.type := by
    refine ⟨⟨hbare.1, hbare.2.1, hbare.2.2.1⟩, fun p o hop => ⟨?_, hclosed⟩, fun _ => hbare.2.2.2⟩
    obtain ⟨rfl, -⟩ := Prod.mk.inj (Option.some.inj (htok.symm.trans hop))
    exact hbinds
  obtain ⟨u, c, ws, hparsed, hrun⟩ := hl m k turns s tok (more ++ next :: rest) (by omega) (by omega)
    (by omega) hahead (hallows.left.mono hnesting) hstopsl
  obtain ⟨hlex, hmore⟩ := hparsed.ahead.lex_append hparsed.passes.sound
  obtain ⟨t, ws', hrun', hpass, hnext, hjoin⟩ := hoperand m u.lex next rest hm hmore
    ((hallows.after hparsed.passes).again hlex) hstops
  obtain ⟨c', hknown⟩ := hjoin c s.chunk.count ws
    ((hparsed.known.later hparsed.passes.sound hlex).later hlex.sound hpass)
    (by rw [hlex.count, hparsed.passes.count]; rfl)
  have hturn : (climbTurn (parsers m) k).run execBasic u = .done (.inl ()) t := by
    unfold climbTurn
    rw [run_then (run_token tok.type hparsed.ahead.1.1), htok]
    dsimp only
    rw [if_neg (Nat.not_le.mpr hk), run_then (show lex.run execBasic u = .done () u.lex from rfl),
      run_then hrun']
    rfl
  refine ⟨t, c', ws ++ ws', ⟨?_, hnext, hknown.stands, hknown.coded⟩, ?_⟩
  · rw [hnames, List.length_append]
    simpa using (hparsed.passes.trans hlex).trans hpass
  · rw [hrun, show turns - l.spine = turns - e.spine + 1 by omega, climb_succ _ hturn]

theorem climbs_binary (hop : binaryOperator (operatorToken op) = some (precedence op, op)) (hl : Climbs l)
    (hbinds : precedence op ≤ l.level) (hclosed : l.isOpen = false) (hr : Climbs r)
    (hright : precedence op < r.level) : Climbs (.binary op l r) := by
  have hsize : (Expr.binary op l r).size = l.size + r.size + 1 := rfl
  refine climbs_operator op { type := operatorToken op } (precedence op) hop (operatorToken_ne op) rfl rfl rfl
    (by omega) (names_binary op l r) (le_max_left ..) hl hbinds hclosed
    fun m u next rest hm hahead hallows hstops => ?_
  obtain ⟨t, c, ws, hrun, hparsed⟩ := readsBinary_of_climbs hr m (precedence op) u next rest (by omega) hright hahead
    (hallows.mono (le_max_right ..)) ⟨hstops.behind, hstops.operator, hstops.dangling⟩
  have hemit := Writes.emit hparsed.passes.sound op.word
  refine ⟨t.setChunk (t.chunk.emit op.word), ws ++ instructionWords op [], ?_,
    hparsed.passes.trans hemit.toPasses, hparsed.ahead.after hemit, fun c' ip ws' hknown hcount => ?_⟩
  · rw [parseOperand_of_token hop, run_then hrun]
    rfl
  · have hknownr := hparsed.known.later hparsed.passes.sound hemit.toPasses
    rw [hcount] at hknownr
    exact ⟨.binary op c' c, .binary op hknown.stands hknownr.stands,
      .binary (isBinary_of_token hop) hknown.coded hknownr.coded⟩

theorem climbs_logical {decisive : Bool} (hl : Climbs l) (hbinds : logicalPrecedence decisive ≤ l.level)
    (hclosed : l.isOpen = false) (hr : Climbs r) (hright : logicalPrecedence decisive < r.level) :
    Climbs (.logical decisive l r) := by
  have hsize : (Expr.logical decisive l r).size = l.size + r.size + 1 := rfl
  have hop : binaryOperator (logicalToken decisive) =
      some (logicalPrecedence decisive, if decisive then .or else .and) := by cases decisive <;> rfl
  refine climbs_operator _ { type := logicalToken decisive } (logicalPrecedence decisive) hop
    (by cases decisive <;> decide) rfl rfl rfl (by omega) (names_logical decisive l r) (le_max_left ..) hl hbinds
    hclosed fun m u next rest hm hahead hallows hstops => ?_
  obtain ⟨t, c, ws, i, j, hrun, hpass, hnext, hknownr, hthrough, hdecided⟩ :=
    run_parseShortCircuit (r := parsers m) (e := r) decisive (logicalPrecedence decisive) (next :: rest)
      hallows.sound fun v hv => readsBinary_of_climbs hr m _ v next rest (by omega) hright
        (hahead.after hv) ((hallows.mono (le_max_right ..)).again hv.toPasses)
        ⟨hstops.behind, hstops.operator, hstops.dangling⟩
  refine ⟨t, _, ?_, hpass, hnext, fun c' ip ws' hknown hcount => ?_⟩
  · cases decisive <;> exact hrun
  · rw [hcount] at hknownr ⊢
    exact ⟨.logical decisive c' c, .logical decisive hknown.stands hknownr.stands,
      .logical hthrough hdecided hknown.coded hknownr.coded⟩

theorem run_emitCast (hs : Sound s.chunk s.heap) (type : CastType) (i : Nat) :
    ∃ t, (emitCast (castName type) i).run execBasic s = .done () t ∧ Writes 0 (Unary.as type).words s t := by
  have htwo (op : Opcode) (w : Int) : Writes 0 [op.word, w] s
      ((s.setChunk (s.chunk.emitOp op)).setChunk ((s.chunk.emitOp op).emit w)) :=
    (Writes.emit hs op.word).trans (.emit (Writes.emit hs op.word).sound w)
  unfold emitCast
  cases type with
  | string =>
    rw [if_pos (show castName .string = bytes "string" from rfl)]
    exact ⟨_, rfl, .emit hs _⟩
  | integer =>
    rw [if_neg (by decide), if_pos (show castName .integer = bytes "integer" from rfl)]
    exact ⟨_, rfl, htwo .cast castInteger⟩
  | float =>
    rw [if_neg (by decide), if_neg (by decide), if_pos (show castName .float = bytes "float" from rfl)]
    exact ⟨_, rfl, htwo .cast castFloat⟩
  | boolean =>
    rw [if_neg (by decide), if_neg (by decide), if_neg (by decide),
      if_pos (show castName .boolean = bytes "boolean" from rfl)]
    exact ⟨_, rfl, htwo .cast castBoolean⟩

theorem climbs_cast {type : CastType} (hl : Climbs l) (hbinds : castPrecedence ≤ l.level)
    (hclosed : l.isOpen = false) : Climbs (.unary (.as type) l) := by
  refine climbs_operator .cast { type := .as } castPrecedence rfl (by decide) rfl rfl rfl
    (Nat.lt_succ_self _) (List.append_nil _).symm le_rfl hl hbinds hclosed
    fun m u next rest hm hahead hallows hstops => ?_
  have hholds : Holds u.heap u.tokenValue (.string (castName type)) := hahead.1.2 _ rfl
  obtain ⟨hpool, -⟩ := pooled hallows.sound hholds trivial
  obtain ⟨hlex, hnext⟩ := (hahead.after hpool).lex hpool.sound
  have hholds' : Holds (u.addPool u.tokenValue).2.heap (u.addPool u.tokenValue).2.tokenValue
      (.string (castName type)) := by
    rw [hpool.tokenValue]
    exact hholds.grows hpool.grows
  obtain ⟨t, ht, hcast⟩ := run_emitCast hlex.sound type (u.addPool u.tokenValue).1
  refine ⟨t, _, ?_, (hpool.toPasses.trans hlex).trans hcast.toPasses, hnext.after hcast,
    fun c ip ws hknown _ => ⟨.unary (.as type) c, .unary _ hknown.stands, .unary _ hknown.coded⟩⟩
  change parseCast.run execBasic u = _
  unfold parseCast
  rw [run_then (run_equal .identifier), hahead.1.1, if_pos (beq_self_eq_true TokenType.identifier),
    run_then (show poolToken.run execBasic u = .done (u.addPool u.tokenValue).1 (u.addPool u.tokenValue).2 from rfl),
    run_then (run_tokenText hholds'), run_then (show lex.run execBasic (u.addPool u.tokenValue).2 = .done () _ from rfl),
    run_then ht]
  rfl

/-- Below the signs in front there is a primary expression. -/
theorem readsUnary_of_primary {e : Expr Leaf} (htwo : 2 ≤ e.nesting) (hpos : 0 < e.size)
    (hfirst : ∀ tok toks, e.tokens = tok :: toks →
      tok.type ≠ .not ∧ tok.type ≠ .bitwiseNot ∧ tok.type ≠ .subtract)
    (hne : e.tokens ≠ []) (he : ReadsPrimary e) : ReadsUnary e := by
  intro m s next rest hm hahead hallows hstops
  obtain ⟨m, rfl⟩ := Nat.exists_eq_succ_of_ne_zero (show m ≠ 0 by omega)
  obtain ⟨tok, toks, htoks⟩ := List.exists_cons_of_ne_nil hne
  obtain ⟨hnot, hbitwise, hminus⟩ := hfirst tok toks htoks
  have htype : s.tokenType = tok.type := by
    rw [htoks] at hahead
    exact hahead.1.1
  obtain ⟨k, hk⟩ := Nat.exists_eq_add_of_le' htwo
  rw [hk] at hallows
  obtain ⟨t, c, ws, hrun, hparsed⟩ := he m (parseFunctionExpr (parsers m)) ((s.deeper 1).deeper 1) next rest (by omega)
    (by
      rw [htoks] at hahead ⊢
      exact hahead)
    (by
      rw [hk, Nat.add_sub_cancel]
      exact hallows.deeper.deeper) hstops
  have hdepth := hallows.depth
  refine ⟨t.shallower.shallower, c, ws, ?_, hparsed.nested.nested⟩
  change (nested (parseUnaryInner (parsers m) (parseFunctionExpr (parsers m)))).run execBasic s = _
  refine run_nested (by omega) ?_
  unfold parseUnaryInner
  rw [run_then (run_notConsumed (by rw [← htype] at hnot; exact hnot)), if_neg Bool.false_ne_true,
    run_then (run_notConsumed (by rw [← htype] at hbitwise; exact hbitwise)), if_neg Bool.false_ne_true,
    run_then (run_notConsumed (by rw [← htype] at hminus; exact hminus)), if_neg Bool.false_ne_true]
  refine run_nested ?_ hrun
  change s.ctx.exprDepth + 1 < exprDepthMax
  omega

/-- A sign in front of an expression. -/
theorem readsUnary_of_sign {op : Unary} (type : TokenType) (code : Opcode)
    (htokens : (Expr.unary op e).tokens = { type := type } :: e.tokens)
    (hnesting : (Expr.unary op e).nesting = e.nesting + 1) (hwords : op.words = instructionWords code [])
    (hends : ∀ next, (Expr.unary op e).Stops unaryLevel next → e.Stops unaryLevel next)
    (hsign : ∀ r f s, s.tokenType = type → (parseUnaryInner r f).run execBasic s =
      (do r.unary; emitOp code : P Unit).run execBasic s.lex)
    (he : ReadsUnary e) : ReadsUnary (.unary op e) := by
  intro m s next rest hm hahead hallows hstops
  have hsize : (Expr.unary op e).size = e.size + 1 := rfl
  obtain ⟨m, rfl⟩ := Nat.exists_eq_succ_of_ne_zero (show m ≠ 0 by omega)
  rw [htokens] at hahead
  rw [hnesting] at hallows
  have htype : s.tokenType = type := hahead.1.1
  have hdeeper : Ahead (s.deeper 1) ({ type := type } :: (e.tokens ++ next :: rest)) := hahead
  obtain ⟨hlex, hmore⟩ := hdeeper.lex_append hallows.deeper.sound
  obtain ⟨t, c, ws, hrun, hparsed⟩ := he m (s.deeper 1).lex next rest (by omega) hmore
    (hallows.deeper.again hlex) (hends _ hstops)
  have hemit := Writes.emit hparsed.passes.sound code.word
  have hknown := hparsed.known.later hparsed.passes.sound hemit.toPasses
  have hdepth := hallows.depth
  have hpass : Passes e.names.length (ws ++ op.words) (s.deeper 1) (t.setChunk (t.chunk.emit code.word)) := by
    rw [hwords]
    simpa [instructionWords] using (hlex.trans hparsed.passes).trans hemit.toPasses
  refine ⟨_, .unary op c, ws ++ op.words, ?_, Parsed.nested (t := t.setChunk (t.chunk.emit code.word))
    ⟨hpass, hparsed.ahead.after hemit, .unary op hknown.stands, .unary op ?_⟩⟩
  · change (nested (parseUnaryInner (parsers m) (parseFunctionExpr (parsers m)))).run execBasic s = _
    refine run_nested (by omega) ?_
    rw [hsign _ _ (s.deeper 1) htype, run_then hrun]
    rfl
  · have hcount := hlex.count
    rw [List.length_nil, Nat.add_zero] at hcount
    rw [hcount] at hknown
    exact hknown.coded

theorem readsUnary_sign {op : Unary} (hop : ∀ type, op ≠ .as type) (he : ReadsUnary e) :
    ReadsUnary (.unary op e) := by
  cases op with
  | as type => exact absurd rfl (hop type)
  | not =>
    refine readsUnary_of_sign .not .not rfl rfl rfl
      (fun _ h => ⟨h.behind, h.operator, h.dangling⟩) (fun r f s h => ?_) he
    unfold parseUnaryInner
    rw [run_then (run_consume h)]
    rfl
  | bitwiseNot =>
    refine readsUnary_of_sign .bitwiseNot .bitwiseNot rfl rfl rfl
      (fun _ h => ⟨h.behind, h.operator, h.dangling⟩) (fun r f s h => ?_) he
    unfold parseUnaryInner
    rw [run_then (run_notConsumed (by rw [h]; decide)), if_neg Bool.false_ne_true, run_then (run_consume h)]
    rfl
  | negate =>
    refine readsUnary_of_sign .subtract .negate rfl rfl rfl
      (fun _ h => ⟨h.behind, h.operator, h.dangling⟩) (fun r f s h => ?_) he
    unfold parseUnaryInner
    rw [run_then (run_notConsumed (by rw [h]; decide)), if_neg Bool.false_ne_true,
      run_then (run_notConsumed (by rw [h]; decide)), if_neg Bool.false_ne_true, run_then (run_consume h)]
    rfl

theorem names_choose (c a b : Expr Leaf) : (Expr.choose c a b).names = c.names ++ a.names ++ b.names := by
  unfold Expr.names
  rw [Expr.operands, List.filterMap_append, List.filterMap_append]

theorem names_when (c a : Expr Leaf) : (Expr.when c a).names = c.names ++ a.names :=
  List.filterMap_append

theorem stops_of_none (hnone : binaryOperator type = none)
    (hbehind : type ≠ .openParenthese ∧ type ≠ .openBracket ∧ type ≠ .dot)
    (helse : e.dangles = true → type ≠ .else) : e.Stops k type :=
  ⟨hbehind, fun _ _ hop => absurd (hnone.symm.trans hop) (by simp), helse⟩

theorem readsPrimary_operand {a : Leaf} (ha : a.Writable) : ReadsPrimary (.operand a) := by
  intro m f s next rest hm hahead hallows hstops
  have hsize : (Expr.operand a).size = 1 := rfl
  cases a with
  | constant p =>
    obtain ⟨t, i, hrun, hparsed⟩ := reads_constant ha hallows.sound hahead
    exact ⟨t, _, _, hrun, hparsed⟩
  | name n =>
    obtain ⟨t, l, hrun, hparsed⟩ := reads_name (r := parsers m) (by rw [fuel_parsers]; omega) hallows hahead
      hstops
    exact ⟨t, _, _, hrun, hparsed⟩

theorem readsPrimary_group (hpos : 0 < e.level) (he : ReadsBinary e) : ReadsPrimary (.group e) := by
  intro m f s next rest hm hahead hallows hstops
  have hsize : (Expr.group e).size = e.size + 1 := rfl
  have hall : (Expr.group e).tokens ++ next :: rest =
      { type := .openParenthese } :: (e.tokens ++ { type := .closeParenthese } :: next :: rest) := by
    simp [Expr.tokens]
  rw [hall] at hahead
  obtain ⟨hlex, hinner⟩ := hahead.lex_append hallows.sound
  obtain ⟨u, c, ws, hrun, hparsed⟩ := he m 0 s.lex _ _ (by omega) hpos hinner (hallows.again hlex)
    (stops_of_none rfl (by decide) fun _ => by decide)
  obtain ⟨hclose, hnext⟩ := hparsed.ahead.lex hparsed.passes.sound
  have hknown := hparsed.known.later hparsed.passes.sound hclose
  have hcount : s.lex.chunk.count = s.chunk.count := hlex.count
  refine ⟨u.lex, .group c, ws, ?_, ?_, hnext, .group hknown.stands, .group (hcount ▸ hknown.coded)⟩
  · unfold parsePrimaryInner
    rw [run_then (run_token .openParenthese hahead.1.1)]
    rw [run_then (show lex.run execBasic s = .done () s.lex from rfl), run_then hrun,
      run_require hparsed.ahead.1.1]
  · have hpass := (hlex.trans hparsed.passes).trans hclose
    rw [List.nil_append, List.append_nil, Nat.zero_add, Nat.add_zero] at hpass
    exact hpass

/-- No operator goes on behind a conditional, which takes it for its own. -/
theorem stops_inner (hopen : e.isOpen = true) (h : e.Stops unaryLevel type)
    (helse : l.dangles = true → type ≠ .else) : l.Stops k type :=
  ⟨h.behind, fun prec op hop => absurd ((h.operator prec op hop).2.symm.trans hopen) Bool.false_ne_true, helse⟩

theorem readsPrimary_choose {c a b : Expr Leaf} (hcpos : 0 < c.level) (hapos : 0 < a.level) (hbpos : 0 < b.level)
    (hends : a.dangles = false) (hc : ReadsBinary c) (ha : ReadsBinary a) (hb : ReadsBinary b) :
    ReadsPrimary (.choose c a b) := by
  intro m f s next rest hm hahead hallows hstops
  have hsize : (Expr.choose c a b).size = c.size + a.size + b.size + 1 := rfl
  have hall : (Expr.choose c a b).tokens ++ next :: rest =
      { type := .if } :: (c.tokens ++ { type := .colon } :: (a.tokens ++
        { type := .else } :: { type := .colon } :: (b.tokens ++ next :: rest))) := by
    simp [Expr.tokens]
  rw [hall] at hahead
  rw [names_choose] at hallows
  replace hallows : Allows s (max c.nesting (max a.nesting b.nesting)) (c.names ++ a.names ++ b.names) := hallows
  obtain ⟨hlex, hcond⟩ := hahead.lex_append hallows.sound
  have hallows := hallows.again hlex
  obtain ⟨x, xs, hx⟩ := List.exists_cons_of_ne_nil (List.append_ne_nil_of_right_ne_nil a.tokens
    (List.cons_ne_nil { type := .else } ({ type := .colon } :: (b.tokens ++ next :: rest))))
  rw [hx] at hcond
  obtain ⟨t, c', a', ws, yes, no, hrun, hpass, hnext, hknownc, hknowna, b', hknownb⟩ :=
    run_parseIfExpr (r := parsers m) (n := b.names.length) (next :: rest)
      (Q := fun ip ws t => ∃ b', Known b t b' ip ws) rfl
      (hc m 0 s.lex _ _ (by omega) hcpos hcond (hallows.left.left.mono (le_max_left ..))
        (stops_of_none rfl (by decide) fun _ => by decide))
      (fun ws u hu hthen => by
        rw [← hx] at hthen
        have hallows := (hallows.left.after hu).mono (le_max_of_le_right (le_max_left ..))
        exact ha m 0 u _ _ (by omega) hapos hthen hallows
          (stops_of_none rfl (by decide) fun h => absurd (hends.symm.trans h) Bool.false_ne_true))
      (fun ws u hu helse => by
        rw [← List.length_append] at hu
        have hallows := (hallows.after hu).mono (le_max_of_le_right (le_max_right ..))
        obtain ⟨hlex₁, hahead₁⟩ := helse.lex hu.sound
        obtain ⟨hlex₂, hahead₂⟩ := hahead₁.lex_append hlex₁.sound
        obtain ⟨t, b', ws', hrun, hparsed⟩ := hb m 0 _ _ _ (by omega) hbpos hahead₂
          ((hallows.again hlex₁).again hlex₂) (stops_inner rfl hstops hstops.dangling)
        have hcount : u.lex.lex.chunk.count = u.chunk.count := (hlex₁.trans hlex₂).count
        refine ⟨t, ws', ?_, by simpa using (hlex₁.trans hlex₂).trans hparsed.passes, hparsed.ahead, b',
          hcount ▸ hparsed.known⟩
        unfold parseElse
        rw [run_then (run_consume helse.1.1), if_pos rfl, run_then (run_require hahead₁.1.1 _), hrun])
      (fun ip ws t i w ⟨b', hb'⟩ => ⟨b', hb'.patched i w⟩)
  have hcount : s.lex.chunk.count = s.chunk.count := hlex.count
  rw [hcount] at hpass hknownc hknowna hknownb
  refine ⟨t, .choose c' a' b', ws ++ twoSided (s.chunk.count + ws.length) yes no, ?_, ?_, hnext,
    .choose hknownc.stands hknowna.stands hknownb.stands, .choose hknownc.coded hknowna.coded hknownb.coded⟩
  · unfold parsePrimaryInner
    rw [run_then (run_token .if hahead.1.1)]
    rw [run_then (show lex.run execBasic s = .done () s.lex from rfl), hrun]
  · rw [names_choose, List.length_append, List.length_append]
    simpa using hlex.trans hpass

theorem readsPrimary_when {c a : Expr Leaf} (hcpos : 0 < c.level) (hapos : 0 < a.level)
    (hc : ReadsBinary c) (ha : ReadsBinary a) : ReadsPrimary (.when c a) := by
  intro m f s next rest hm hahead hallows hstops
  have hsize : (Expr.when c a).size = c.size + a.size + 1 := rfl
  have hall : (Expr.when c a).tokens ++ next :: rest =
      { type := .if } :: (c.tokens ++ { type := .colon } :: (a.tokens ++ next :: rest)) := by
    simp [Expr.tokens]
  rw [hall] at hahead
  rw [names_when] at hallows
  replace hallows : Allows s (max c.nesting a.nesting) (c.names ++ a.names) := hallows
  obtain ⟨hlex, hcond⟩ := hahead.lex_append hallows.sound
  have hallows := hallows.again hlex
  have helse : next.type ≠ .else := hstops.dangling rfl
  obtain ⟨x, xs, hx⟩ := List.exists_cons_of_ne_nil (List.append_ne_nil_of_right_ne_nil a.tokens
    (List.cons_ne_nil next rest))
  rw [hx] at hcond
  obtain ⟨t, c', a', ws, yes, no, hrun, hpass, hnext, hknownc, hknowna, null, rfl, hnull⟩ :=
    run_parseIfExpr (r := parsers m) (n := 0) (next :: rest)
      (Q := fun _ ws t => ∃ i, ws = instructionWords .push [i] ∧ t.chunk.pool[i]? = some .null) rfl
      (hc m 0 s.lex _ _ (by omega) hcpos hcond (hallows.left.mono (le_max_left ..))
        (stops_of_none rfl (by decide) fun _ => by decide))
      (fun ws u hu hthen => by
        rw [← hx] at hthen
        exact ha m 0 u _ _ (by omega) hapos hthen ((hallows.after hu).mono (le_max_right ..))
          (stops_inner rfl hstops fun _ => helse))
      (fun ws u hu hnext => by
        obtain ⟨i, t, hrun, hpush, hat⟩ := writes_emitPush (v := .null) (p := .null) hu.sound ⟨trivial, rfl⟩ trivial
        refine ⟨t, _, ?_, hpush.toPasses, hnext.after hpush, i, rfl, hat.null⟩
        unfold parseElse
        rw [run_then (run_notConsumed (by rw [hnext.1.1]; exact helse)), if_neg Bool.false_ne_true, hrun])
      (fun ip ws t i w h => h)
  have hcount : s.lex.chunk.count = s.chunk.count := hlex.count
  rw [hcount] at hpass hknownc hknowna
  refine ⟨t, .when c' a', ws ++ twoSided (s.chunk.count + ws.length) yes (instructionWords .push [null]), ?_, ?_,
    hnext, .when hknownc.stands hknowna.stands, .when hnull hknownc.coded hknowna.coded⟩
  · unfold parsePrimaryInner
    rw [run_then (run_token .if hahead.1.1)]
    rw [run_then (show lex.run execBasic s = .done () s.lex from rfl), hrun]
  · rw [names_when, List.length_append]
    simpa using hlex.trans hpass

theorem Leaf.token_type (a : Leaf) :
    a.token.type ≠ .not ∧ a.token.type ≠ .bitwiseNot ∧ a.token.type ≠ .subtract := by
  cases a with
  | name n => simp [Leaf.token]
  | constant p =>
    cases p with
    | boolean b => cases b <;> simp [Leaf.token]
    | _ => simp [Leaf.token]

theorem precedence_lt (op : Opcode) : precedence op < unaryLevel := by
  cases op <;> decide

/-- An expression is read wherever one of its level may stand. -/
theorem reads (h : e.Fits) : (e.level = unaryLevel → ReadsUnary e) ∧ Climbs e := by
  have hprimary {e : Expr Leaf} (hlevel : e.level = unaryLevel) (hspine : e.spine = 0)
      (hunary : ReadsUnary e) : (e.level = unaryLevel → ReadsUnary e) ∧ Climbs e :=
    ⟨fun _ => hunary, climbs_of_unary hlevel hspine hunary⟩
  induction e with
  | operand a =>
    refine hprimary rfl rfl (readsUnary_of_primary le_rfl one_pos (fun tok toks htoks => ?_)
      (List.cons_ne_nil _ _) (readsPrimary_operand h))
    obtain ⟨rfl, -⟩ := List.cons.inj htoks
    exact a.token_type
  | group e ih =>
    have hread := readsPrimary_group (e := e) (level_pos h) (readsBinary_of_climbs (ih h).2)
    refine hprimary rfl rfl (readsUnary_of_primary (Nat.le_add_left 2 _) (Nat.succ_pos _) (fun tok toks htoks => ?_)
      (List.cons_ne_nil _ _) hread)
    obtain ⟨rfl, -⟩ := List.cons.inj htoks
    decide
  | unary op e ih =>
    cases op with
    | as type => exact ⟨fun hlevel => absurd hlevel (show castPrecedence ≠ unaryLevel by decide), climbs_cast (ih h.1).2 h.2.1 h.2.2⟩
    | not => exact hprimary rfl rfl (readsUnary_sign (by simp) ((ih h.1).1 h.2))
    | bitwiseNot => exact hprimary rfl rfl (readsUnary_sign (by simp) ((ih h.1).1 h.2))
    | negate => exact hprimary rfl rfl (readsUnary_sign (by simp) ((ih h.1).1 h.2))
  | binary op l r ihl ihr =>
    obtain ⟨hop, ⟨hl, hbinds, hclosed⟩, hr, hright⟩ := h
    exact ⟨fun hlevel => absurd hlevel (precedence_lt op).ne,
      climbs_binary hop (ihl hl).2 hbinds hclosed (ihr hr).2 hright⟩
  | logical decisive l r ihl ihr =>
    obtain ⟨⟨hl, hbinds, hclosed⟩, hr, hright⟩ := h
    have hlt : logicalPrecedence decisive ≠ unaryLevel := by cases decisive <;> decide
    exact ⟨fun hlevel => absurd hlevel hlt,
      climbs_logical (ihl hl).2 hbinds hclosed (ihr hr).2 hright⟩
  | choose c a b ihc iha ihb =>
    obtain ⟨hc, ha, hends, hb⟩ := h
    have hread := readsPrimary_choose (level_pos hc) (level_pos ha) (level_pos hb) hends
      (readsBinary_of_climbs (ihc hc).2) (readsBinary_of_climbs (iha ha).2) (readsBinary_of_climbs (ihb hb).2)
    refine hprimary rfl rfl (readsUnary_of_primary (Nat.le_add_left 2 _) (Nat.succ_pos _) (fun tok toks htoks => ?_)
      (List.cons_ne_nil _ _) hread)
    obtain ⟨rfl, -⟩ := List.cons.inj htoks
    decide
  | when c a ihc iha =>
    have hread := readsPrimary_when (level_pos h.1) (level_pos h.2) (readsBinary_of_climbs (ihc h.1).2)
      (readsBinary_of_climbs (iha h.2).2)
    refine hprimary rfl rfl (readsUnary_of_primary (Nat.le_add_left 2 _) (Nat.succ_pos _) (fun tok toks htoks => ?_)
      (List.cons_ne_nil _ _) hread)
    obtain ⟨rfl, -⟩ := List.cons.inj htoks
    decide

end Trees

/-! What an expression is to the machine. -/

/-- What an operand is in a state of the machine: a constant is itself, a variable is what it is
where the parser has found it. -/
def Reads (v : Parser) (x : State) : Leaf → Got → Prop
  | .constant p, g => ∃ w, g = .value w ∧ Holds x.heap w p
  | .name n, g => ∃ l, LoadsName v n l ∧ g = l.got x

/-- A machine that is to run the code `ws` of an expression. -/
structure Ready (site : Nat → Nat) (v : Parser) (c : Expr Fetch) (ip : Nat) (ws : List Int) (x : State) :
    Prop where
  names : NamesLive x
  clear : x.runtimeHadError = false
  room : x.vm.stackTop + c.depth ≤ vmStackMax
  caches : CachesAgree site x
  sited : ∀ a ∈ c.operands, a.Sited site x
  here : x.vm.ip = ip
  code : CodeAt x ip ws
  /-- The constants of the pool are those the parser has put there. -/
  constants : ∀ i p, ConstantAt v i p → ∃ w, x.chunk.pool[i]? = some w ∧ Holds x.heap w p

section Meaning
variable {e : Expr Leaf} {c : Expr Fetch} {v : Parser} {x : State} {site : Nat → Nat} {ip : Nat} {ws : List Int}

theorem reads_map (hx : Ready site v c ip ws x) {c' : Expr Fetch} (h : Expr.Rel (Stands v) e c') :
    Expr.Rel (Reads v x) e (c'.map fun a => a.got x) := by
  induction h with
  | @operand a b hab =>
    refine .operand ?_
    cases a with
    | constant p =>
      cases b with
      | const i =>
        obtain ⟨w, hw, hholds⟩ := hx.constants i p hab
        exact ⟨w, congrArg Got.ofOption hw, hholds⟩
      | var l => exact hab.elim
    | name n =>
      cases b with
      | const i => exact hab.elim
      | var l => exact ⟨l, hab, rfl⟩
  | group _ ih => exact .group ih
  | unary op _ ih => exact .unary op ih
  | binary op _ _ ihl ihr => exact .binary op ihl ihr
  | logical decisive _ _ ihl ihr => exact .logical decisive ihl ihr
  | choose _ _ _ ihc iha ihb => exact .choose ihc iha ihb
  | when _ _ ihc iha => exact .when ihc iha

/-- The truth values and the null of the pool are the machine's. -/
theorem coded_of_ready (hx : Ready site v c ip ws x) (h : Coded v.chunk.pool c ip ws) :
    Coded x.chunk.pool c ip ws := by
  refine h.agree fun i w hw hi => ?_
  obtain rfl | ⟨b, rfl⟩ := hw
  · obtain ⟨w, hw, -, hplain⟩ := hx.constants i .null ⟨_, hi, trivial, rfl⟩
    cases w <;> cases hplain
    exact hw
  · obtain ⟨w, hw, -, hplain⟩ := hx.constants i (.boolean b) ⟨_, hi, trivial, rfl⟩
    cases w <;> cases hplain
    exact hw

end Meaning

/-- A machine that has run nothing, on the code that has just been compiled. -/
def machineAt (t : Parser) (ip : Nat) : State :=
  { State.init with vm := { Vm.init with ip := ip }, chunk := { t.chunk with addrCache := [] }, heap := t.heap }

/-- It is ready for an expression without variables. -/
theorem ready_machineAt {e : Expr Leaf} {c : Expr Fetch} {t : Parser} {code ws : List Int} (site : Nat → Nat)
    (hsound : Sound t.chunk t.heap) (hcode : t.chunk.code = code ++ ws) (hstands : Expr.Rel (Stands t) e c)
    (hnames : e.names = []) (hroom : e.depth ≤ vmStackMax) :
    Ready site t c code.length ws (machineAt t code.length) where
  names := {
    pools := hsound.wf
    live := fun cell hcell => (hsound.constants _ hcell).1 }
  clear := rfl
  room := by
    rw [hstands.depth]
    exact (Nat.zero_add _).trans_le hroom
  caches c a hc := by cases hc
  sited a ha := by
    obtain ⟨leaf, hleaf, hrel⟩ := hstands.of_mem ha
    cases a with
    | const i => trivial
    | var l =>
      cases leaf with
      | constant p => exact hrel.elim
      | name n =>
        have hmem : n ∈ e.names := List.mem_filterMap.mpr ⟨_, hleaf, rfl⟩
        rw [hnames] at hmem
        exact absurd hmem List.not_mem_nil
  here := rfl
  code := by
    change ws <+: t.chunk.code.drop code.length
    rw [hcode, List.drop_left]
  constants i p h := h

/-- A parser in front of a text in a line. -/
def lineState (text : Bytes) : Parser :=
  { Parser.start .run (.open [] text) .init .init with
    lexer := { Lexer.start (.open [] text) with atLineStart := false } }

theorem allows_lineState {text : Bytes} {k : Nat} (hk : k ≤ exprDepthMax) : Allows (lineState text) k [] where
  sound := .start Heap.poolsWf_init
  depth := (Nat.zero_add k).trans_le hk
  room h := by cases h
  free n hn := absurd hn List.not_mem_nil

/-- `true && 1 < 2` -/
def comparison : Expr Leaf :=
  .logical false (.operand (.constant (.boolean true)))
    (.binary .lt (.operand (.constant (.integer 1))) (.operand (.constant (.integer 2))))

end Aer.Compiler
