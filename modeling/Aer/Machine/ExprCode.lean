import Aer.Machine.Frames
import Aer.Machine.StringParts

set_option linter.all false

/-! Expressions as trees of operators: what one evaluates to, without a stack and without jumps,
the code that computes it, and that running the code is evaluating the tree. -/
namespace Aer.Machine

open Aer.Data Aer.Memory Aer.Lib.Interaction

/-! Trees. -/

/-- The types a value is cast to. -/
inductive CastType
  | string
  | integer
  | float
  | boolean
  deriving DecidableEq

/-- An operator of one operand. -/
inductive Unary
  | not
  | bitwiseNot
  | negate
  | as (type : CastType)
  deriving DecidableEq

inductive Expr (α : Type)
  | operand (a : α)
  | group (e : Expr α)
  | unary (op : Unary) (e : Expr α)
  | binary (op : Opcode) (l r : Expr α)
  /-- `l && r`, which false decides alone, or `l || r`, which true does. -/
  | logical (decisive : Bool) (l r : Expr α)
  /-- `if c: a else: b`. -/
  | choose (c a b : Expr α)
  /-- `if c: a`, which is null when the condition fails. -/
  | when (c a : Expr α)

namespace Unary

def words : Unary → List Int
  | not => instructionWords .not []
  | bitwiseNot => instructionWords .bitwiseNot []
  | negate => instructionWords .negate []
  | as .string => instructionWords .toStr []
  | as .integer => [Opcode.cast.word, castInteger]
  | as .float => [Opcode.cast.word, castFloat]
  | as .boolean => [Opcode.cast.word, castBoolean]

/-- What the operator makes of a value. -/
def apply : Unary → AerVal → Handler AerVal
  | not, v => do return aerBool !(← vmTruthy v)
  | bitwiseNot, v => do
      if v.type = .integer then perform (.newInt (-(← perform (.asInt v)) - 1))
      else errorWith (bytes "Bitwise NOT requires an integer") .null
  | negate, v =>
      match v with
      | .integer _ | .long _ => do perform (.newInt (wrap64 (-(← perform (.asInt v)))))
      | .real d => return aerReal d.neg
      | _ => errorWith (bytes "Negation requires a numeric type") .null
  | as .string, v => vmToStr v
  | as .integer, v => vmCast castInteger v
  | as .float, v => vmCast castFloat v
  | as .boolean, v => vmCast castBoolean v

end Unary

/-- The end of an evaluation: undefined behaviour, a reported error, or a value. -/
inductive Evaluated
  | fault
  | error (t : State)
  | value (v : AerVal) (t : State)

namespace Evaluated

def bind (r : Evaluated) (k : AerVal → State → Evaluated) : Evaluated :=
  match r with
  | fault => fault
  | error t => error t
  | value v t => k v t

def ofGot (s : State) : Got → Evaluated
  | .value v => value v s
  | .undefined m => error (s.addError m)
  | .fault => fault

/-- The result of a computation, unless an error has been reported. -/
def ofRun : Result AerVal → Evaluated
  | .done v t => if t.runtimeHadError then error t else value v t
  | .stop _ _ => fault

/-- Decide on a truth value. -/
def decide (cfg : Config) (v : AerVal) (t : State) (k : Bool → Evaluated) : Evaluated :=
  match (vmTruthy v).run (exec cfg) t with
  | .done b _ => k b
  | .stop _ _ => fault

/-- `decisive` on the left side decides, else the right side does. -/
def logical (cfg : Config) (decisive : Bool) (l : Evaluated) (r : State → Evaluated) : Evaluated :=
  l.bind fun a t => decide cfg a t fun holds =>
    if holds = decisive then value (aerBool decisive) t
    else (r t).bind fun b u => decide cfg b u fun holds => value (aerBool holds) u

end Evaluated

/-- What an expression evaluates to in a state, when `got` tells what its operands are: the
operands from left to right, and of `&&`, `||` and `if` only those that count. -/
def Expr.eval (cfg : Config) {α : Type} (got : State → α → Got) : Expr α → State → Evaluated
  | .operand a, s => .ofGot s (got s a)
  | .group e, s => e.eval cfg got s
  | .unary op e, s =>
      (e.eval cfg got s).bind fun v t => .ofRun ((op.apply v).run (exec cfg) t)
  | .binary op l r, s =>
      (l.eval cfg got s).bind fun a t => (r.eval cfg got t).bind fun b u =>
        .ofRun ((vmBinary a b op).run (exec cfg) u)
  | .logical decisive l r, s => .logical cfg decisive (l.eval cfg got s) (r.eval cfg got)
  | .choose c a b, s =>
      (c.eval cfg got s).bind fun v t => .decide cfg v t fun holds =>
        if holds then a.eval cfg got t else b.eval cfg got t
  | .when c a, s =>
      (c.eval cfg got s).bind fun v t => .decide cfg v t fun holds =>
        if holds then a.eval cfg got t else .value .null t

/-! Code. -/

/-- How the code reads an operand: a constant of the pool, or a variable. -/
inductive Fetch
  | const (poolIdx : Nat)
  | var (a : Loader)

namespace Fetch

def words : Fetch → List Int
  | const i => instructionWords .push [i]
  | var a => a.words

def got (s : State) : Fetch → Got
  | const i => .ofOption s.chunk.pool[i]?
  | var a => a.got s

def Sited (site : Nat → Nat) (s : State) : Fetch → Prop
  | const _ => True
  | var a => a.Sited site s

end Fetch

def branchOn : Bool → Opcode
  | false => .jumpIfFalse
  | true => .jumpIfTrue

/-- `&&` and `||` behind their left side: when neither side takes the branch the constant
`through` is pushed, else `decided`. -/
def shortCircuit (branch : Opcode) (ip : Nat) (rhs : List Int) (through decided : Nat) : List Int :=
  let stop := ip + rhs.length + 8
  instructionWords branch [stop] ++ (rhs ++ (instructionWords branch [stop] ++
    (instructionWords .push [through] ++ (instructionWords .jump [stop + 2] ++
      instructionWords .push [decided]))))

/-- The two sides of a conditional behind its condition. -/
def twoSided (ip : Nat) (yes no : List Int) : List Int :=
  instructionWords .jumpIfFalse [ip + yes.length + 4] ++ (yes ++
    (instructionWords .jump [ip + yes.length + 4 + no.length] ++ no))

/-- The code of an expression that begins at an address; the pool has the constants it needs. -/
inductive Coded (pool : List AerVal) : Expr Fetch → Nat → List Int → Prop
  | operand (a : Fetch) (ip : Nat) : Coded pool (.operand a) ip a.words
  | group {e : Expr Fetch} {ip : Nat} {ws : List Int} : Coded pool e ip ws → Coded pool (.group e) ip ws
  | unary {e : Expr Fetch} {ip : Nat} {ws : List Int} (op : Unary) :
      Coded pool e ip ws → Coded pool (.unary op e) ip (ws ++ op.words)
  | binary {l r : Expr Fetch} {ip : Nat} {ws ws' : List Int} {op : Opcode} :
      op.isBinary = true → Coded pool l ip ws → Coded pool r (ip + ws.length) ws' →
      Coded pool (.binary op l r) ip (ws ++ (ws' ++ instructionWords op []))
  | logical {l r : Expr Fetch} {ip : Nat} {ws ws' : List Int} {decisive : Bool} {through decided : Nat} :
      pool[through]? = some (aerBool !decisive) → pool[decided]? = some (aerBool decisive) →
      Coded pool l ip ws → Coded pool r (ip + ws.length + 2) ws' →
      Coded pool (.logical decisive l r) ip
        (ws ++ shortCircuit (branchOn decisive) (ip + ws.length) ws' through decided)
  | choose {c a b : Expr Fetch} {ip : Nat} {ws wa wb : List Int} :
      Coded pool c ip ws → Coded pool a (ip + ws.length + 2) wa →
      Coded pool b (ip + ws.length + 4 + wa.length) wb →
      Coded pool (.choose c a b) ip (ws ++ twoSided (ip + ws.length) wa wb)
  | when {c a : Expr Fetch} {ip : Nat} {ws wa : List Int} {null : Nat} :
      pool[null]? = some .null → Coded pool c ip ws → Coded pool a (ip + ws.length + 2) wa →
      Coded pool (.when c a) ip (ws ++ twoSided (ip + ws.length) wa (instructionWords .push [null]))

/-- The slots of the value stack that the code needs. -/
def Expr.depth {α : Type} : Expr α → Nat
  | .operand _ => 1
  | .group e | .unary _ e => e.depth
  | .binary _ l r => max l.depth (r.depth + 1)
  | .logical _ l r => max l.depth r.depth
  | .choose c a b => max c.depth (max a.depth b.depth)
  | .when c a => max c.depth a.depth

def Expr.operands {α : Type} : Expr α → List α
  | .operand a => [a]
  | .group e | .unary _ e => e.operands
  | .binary _ l r | .logical _ l r | .when l r => l.operands ++ r.operands
  | .choose c a b => c.operands ++ a.operands ++ b.operands

theorem Expr.depth_pos {α : Type} (e : Expr α) : 0 < e.depth := by
  induction e <;> simp_all [Expr.depth]

/-- The code needs only the truth values and the null of the pool. -/
theorem Coded.agree {pool more : List AerVal}
    (h : ∀ (i : Nat) (v : AerVal), (v = .null ∨ ∃ b, v = aerBool b) → pool[i]? = some v → more[i]? = some v)
    {e : Expr Fetch} {ip : Nat} {ws : List Int} (he : Coded pool e ip ws) : Coded more e ip ws := by
  induction he with
  | operand a ip => exact .operand a ip
  | group _ ih => exact .group ih
  | unary op _ ih => exact .unary op ih
  | binary hop _ _ ihl ihr => exact .binary hop ihl ihr
  | logical hthrough hdecided _ _ ihl ihr =>
    exact .logical (h _ _ (.inr ⟨_, rfl⟩) hthrough) (h _ _ (.inr ⟨_, rfl⟩) hdecided) ihl ihr
  | choose _ _ _ ihc iha ihb => exact .choose ihc iha ihb
  | when hnull _ _ ihc iha => exact .when (h _ _ (.inl rfl) hnull) ihc iha

theorem Coded.mono {pool more : List AerVal} (h : pool <+: more) {e : Expr Fetch} {ip : Nat}
    {ws : List Int} (he : Coded pool e ip ws) : Coded more e ip ws := by
  refine he.agree fun i v _ hi => ?_
  obtain ⟨rest, rfl⟩ := h
  rw [List.getElem?_append_left (List.getElem?_eq_some_iff.mp hi).1, hi]

/-! Runs. -/

/-- The computations of the operators: those with values, and the text a value is shown as. -/
@[grind] def Op.isComputing : Op → Bool
  | .format _ => true
  | o => o.isValue

def Computing {α : Type} (p : Handler α) : Prop := p.Only fun o => o.isComputing = true

namespace Computing

variable {α β : Type}

@[grind ←] theorem pure (a : α) : Computing (pure a) := trivial

@[grind ←] theorem perform {o : Op} (h : o.isComputing = true) : Computing (perform o) := Only.perform h

@[grind ←] theorem bind {p : Handler α} {f : α → Handler β} (hp : Computing p)
    (hf : ∀ a, Computing (f a)) : Computing (p >>= f) :=
  Only.bind hp hf

theorem of_valueOnly {p : Handler α} (hp : ValueOnly p) : Computing p :=
  Only.mono hp fun o ho => by
    cases o <;> first | rfl | exact ho

end Computing

theorem computing_errorWith (m v) : Computing (errorWith m v) := .of_valueOnly (valueOnly_errorWith m v)

theorem computing_vmTruthy (v) : Computing (vmTruthy v) := .of_valueOnly (valueOnly_vmTruthy v)

theorem computing_vmToStr (v) : Computing (vmToStr v) := by
  unfold vmToStr
  grind -ring -linarith

theorem computing_vmCast (target v) : Computing (vmCast target v) := by
  unfold vmCast
  grind -ring -linarith [computing_errorWith, computing_vmTruthy]

theorem computing_apply (op : Unary) (v : AerVal) : Computing (op.apply v) := by
  cases op with
  | as type =>
    cases type with
    | string => exact computing_vmToStr v
    | _ => exact computing_vmCast _ v
  | _ =>
    unfold Unary.apply
    grind -ring -linarith [computing_errorWith, computing_vmTruthy]

section Runs
variable {cfg : Config} {site : Nat → Nat} {s t u x y : State} {vs : List AerVal} {v : AerVal}

theorem isComputing_cases {o : Op} (ho : o.isComputing = true) :
    o.isValue = true ∨ ∃ v, o = .format v := by
  cases o with
  | format v => exact .inr ⟨v, rfl⟩
  | _ => exact .inl ho

/-- A truth value is read off the heap. -/
theorem state_of_vmTruthy {holds : Bool} (h : (vmTruthy v).run (exec cfg) t = .done holds u) : u = t := by
  have hread (o : Op) {g : o.Ans → Bool} (ho : (exec cfg o t).state = t)
      (h : (perform o >>= fun a => pure (g a)).run (exec cfg) t = .done holds u) : u = t := by
    rw [run_bind, perform, run_perform] at h
    cases he : exec cfg o t with
    | stop w s =>
      rw [he] at h
      cases h
    | done a s =>
      rw [he] at h ho
      cases h
      exact ho
  cases v with
  | integer n => exact hread (.asInt (.integer n)) (orFault_state (t.asInt (.integer n)) t) h
  | long c => exact hread (.asInt (.long c)) (orFault_state _ t) h
  | string c => exact hread (.string c) (orFault_state _ t) h
  | array c => exact hread (.array c) (orFault_state _ t) h
  | dict c => exact hread (.dict c) (orFault_state _ t) h
  | _ =>
    cases h
    rfl

/-- An operation of a computation, in two states of one core. -/
theorem exec_computing (cfg : Config) {o : Op} (ho : o.isComputing = true) (h : x.core = t.core) :
    Outcome.Rel (fun x t => x.core = t.core) (exec cfg o x) (exec cfg o t) := by
  obtain ho | ⟨v, rfl⟩ := isComputing_cases ho
  · exact exec_sameCore cfg ho h
  · simp only [exec, format_of_core h]
    cases t.format v with
    | none => exact .stop _ h
    | some b => exact .done b h

theorem computing_values (cfg : Config) {o : Op} (ho : o.isComputing = true) (s : State) :
    s.Values (exec cfg o s).state := by
  obtain ho | ⟨v, rfl⟩ := isComputing_cases ho
  · exact exec_values cfg ho s
  · simp only [exec, orFault_state]
    exact .refl s

theorem computing_stop {o : Op} (ho : o.isComputing = true) {w : Stop} (h : exec cfg o s = .stop w t) :
    w = .fault := by
  obtain ho | ⟨v, rfl⟩ := isComputing_cases ho
  · exact exec_valueStop ho h
  · exact eq_fault_of_orFault h

/-- A computation goes in step from two states of one core. -/
theorem run_computing (cfg : Config) {α : Type} {p : Handler α} (hp : Computing p) (hs : NamesLive t)
    (h : At site s t x vs) :
    (∀ a u, p.run (exec cfg) t = .done a u → t.Values u ∧
      ∃ y, p.run (exec cfg) x = .done a y ∧ At site s u y vs ∧ y.vm.ip = x.vm.ip) ∧
    ∀ w u, p.run (exec cfg) t = .stop w u → ∃ y, p.run (exec cfg) x = .stop .fault y := by
  have hrun : Outcome.Rel (fun x t => x.core = t.core) (p.run (exec cfg) x) (p.run (exec cfg) t) :=
    Only.run_lockstep hp h.core fun o x t ho hxt => exec_computing cfg ho hxt
  have hkept (y : State) : y.Values (p.run (exec cfg) y).state :=
    Only.run_preserves hp (.refl y) fun o u ho hu => hu.trans (computing_values cfg ho u)
  have ht := hkept t
  have hx := hkept x
  have hstop : ∀ w u, p.run (exec cfg) t = .stop w u → w = .fault := fun w u hw =>
    Only.run_stops (W := (· = .fault)) hp hw fun o s w t ho he => computing_stop ho he
  generalize p.run (exec cfg) x = r, p.run (exec cfg) t = q at hrun hx ht hstop
  cases hrun with
  | stop w _ =>
    obtain rfl := hstop w _ rfl
    exact ⟨fun a u hu => absurd hu (by simp), fun w u hu => ⟨_, rfl⟩⟩
  | @done v y u hcore =>
    refine ⟨fun a u' hu' => ?_, fun w u hu => absurd hu (by simp)⟩
    cases hu'
    have ht : t.Values u := ht
    have hx : x.Values y := hx
    refine ⟨ht, y, rfl, ⟨hcore, ?_, ?_, ?_⟩, congrArg Vm.ip hx.vm⟩
    · exact ⟨congrArg Vm.stackTop hx.vm ▸ h.stack.top, fun i hi => hx.vm ▸ h.stack.below i hi,
        fun i hi => hx.vm ▸ h.stack.above i hi⟩
    · intro c a ha
      rw [vmScopeGet_of_core hcore, ht.vmScopeGet hs, ← vmScopeGet_of_core h.core]
      exact h.caches c a (hx.chunk ▸ ha)
    · exact hx.chunk ▸ h.length

theorem run_unary {op : Unary} (hcode : CodeAt x x.vm.ip op.words) :
    instruction.run (exec cfg) x =
      (do push (← op.apply (← pop)) : Handler Unit).run (exec cfg) (x.atIp (x.vm.ip + op.words.length)) := by
  -- The operand of a cast is read as it stands.
  have hcast (target : Int) (hcode : CodeAt x x.vm.ip [Opcode.cast.word, target]) :
      instruction.run (exec cfg) x =
        (do push (← vmCast target (← pop)) : Handler Unit).run (exec cfg) (x.atIp (x.vm.ip + 2)) := by
    have hread : exec cfg .read (x.atIp (x.vm.ip + 1)) = .done target (x.atIp (x.vm.ip + 2)) := by
      have hhead : x.chunk.code[x.vm.ip + 1]? = some target := hcode.tail.head
      simp only [exec, State.atIp, hhead]
    rw [run_instruction hcode]
    change lblCast.run (exec cfg) _ = _
    unfold lblCast
    rw [run_bind, perform, run_perform, hread, Outcome.done_andThen]
  cases op with
  | not =>
    rw [run_instruction hcode]
    simp only [handler, lblNot, Unary.apply, bind_assoc, pure_bind]
    rfl
  | bitwiseNot =>
    have hlbl : lblBitwiseNot = (do push (← Unary.bitwiseNot.apply (← pop))) := by
      unfold lblBitwiseNot
      congr 1
      funext v
      simp only [Unary.apply]
      by_cases hv : v.type = .integer
      · rw [if_pos hv, if_pos hv]
        rfl
      · rw [if_neg hv, if_neg hv]
        rfl
    rw [run_instruction hcode, ← hlbl]
    rfl
  | negate =>
    have hlbl : lblNegate = (do push (← Unary.negate.apply (← pop))) := by
      unfold lblNegate Unary.apply
      congr 1
      funext v
      cases v <;> rfl
    rw [run_instruction hcode, ← hlbl]
    rfl
  | as type =>
    cases type with
    | string => exact run_instruction hcode
    | integer => exact hcast castInteger hcode
    | float => exact hcast castFloat hcode
    | boolean => exact hcast castBoolean hcode

theorem State.Values.namesLive (h : s.Values t) (hs : NamesLive s) : NamesLive t where
  pools := (h.heap hs.pools).wf hs.pools
  live c hc := (h.heap hs.pools).live (.string c) (hs.live c (h.chunk ▸ hc))

/-- The instruction that pushes an operand. -/
theorem run_fetch (cfg : Config) (h : At site s t x vs) {a : Fetch} (ha : a.Sited site s)
    (hroom : s.vm.stackTop + vs.length < vmStackMax) (hcode : CodeAt x x.vm.ip a.words) :
    LoadsAs site s t vs (x.vm.ip + a.words.length) (instruction.run (exec cfg) x) (a.got t) := by
  cases a with
  | const i => exact run_load cfg h (.const i) trivial hroom hcode
  | var l =>
    cases l with
    | name n c => exact run_load cfg h (.name n c) ha hroom hcode
    | slot i => exact run_load cfg h (.slot i) trivial hroom hcode
    | upvalue i =>
      have hat := h.atIp (x.vm.ip + 2)
      have hargs : CodeAt (x.atIp (x.vm.ip + 1)) (x.vm.ip + 1) [(i : Int)] := hcode.tail
      have hrun : lblLoadUpvalue.run (exec cfg) (x.atIp (x.vm.ip + 1)) =
          (orFault ((t.upvalue i).bind fun b => t.readAddr (.box b)) (x.atIp (x.vm.ip + 2))).andThen
            fun v x => (push v).run (exec cfg) x := by
        unfold lblLoadUpvalue
        rw [run_arg hargs]
        change Prog.run _ _ (x.atIp (x.vm.ip + 2)) = _
        rw [run_bind, perform, run_perform]
        simp only [exec, upvalue_of_core hat.core]
        cases t.upvalue i with
        | none => rfl
        | some b =>
          change Prog.run _ _ (x.atIp (x.vm.ip + 2)) = _
          rw [run_bind, perform, run_perform]
          simp only [exec, readAddr_of_core hat.core]
          rfl
      rw [run_instruction hcode]
      change LoadsAs site s t vs (x.vm.ip + 2) (lblLoadUpvalue.run (exec cfg) (x.atIp (x.vm.ip + 1))) _
      rw [hrun]
      exact hat.loadsAs cfg hroom _

theorem Proceeds.run {m : Nat} (h : Proceeds cfg m x y) (n : Nat) :
    (instructions (m + n)).run (exec cfg) x = (instructions n).run (exec cfg) y := by
  induction m generalizing x with
  | zero =>
    cases h.1
    rw [Nat.zero_add]
  | succ m ih =>
    obtain ⟨h, hy⟩ := h
    rw [run_instructions] at h
    obtain ⟨_, w, hw, h⟩ := Outcome.andThen_eq_done.mp h
    rw [Nat.add_right_comm, run_instructions, hw, Outcome.done_andThen]
    split at h
    · next herror =>
      cases h
      rw [hy] at herror
      cases herror
    · next herror =>
      rw [if_neg herror]
      exact ih ⟨h, hy⟩

/-- A machine in the course of an evaluation that began in `s` and has got to `t`. -/
structure Poised (site : Nat → Nat) (s t x : State) (vs : List AerVal) (ip : Nat) : Prop where
  values : s.Values t
  clear : t.runtimeHadError = false
  here : At site s t x vs
  ip : x.vm.ip = ip

/-- The run that is to push what an evaluation gives, and to end at `ip`. -/
def Computes (cfg : Config) (site : Nat → Nat) (s x : State) (vs : List AerVal) (ip : Nat) :
    Evaluated → Prop
  | .fault => ∃ n y, (instructions n).run (exec cfg) x = .stop .fault y
  | .error u => u.runtimeHadError = true ∧
      ∃ n y, (instructions n).run (exec cfg) x = .done () y ∧ y.core = u.core
  | .value v u => ∃ n y, Proceeds cfg n x y ∧ Poised site s u y (vs ++ [v]) ip

namespace Computes
variable {ws : List AerVal} {ip mid m : Nat} {r : Evaluated}

theorem after (h : Proceeds cfg m x y) (hr : Computes cfg site s y vs ip r) :
    Computes cfg site s x vs ip r := by
  cases r with
  | fault =>
    obtain ⟨n, z, hz⟩ := hr
    exact ⟨m + n, z, (h.run n).trans hz⟩
  | error u =>
    obtain ⟨hu, n, z, hz, hcore⟩ := hr
    exact ⟨hu, m + n, z, (h.run n).trans hz, hcore⟩
  | value v u =>
    obtain ⟨n, z, hz, hpoised⟩ := hr
    exact ⟨m + n, z, h.trans hz, hpoised⟩

/-- Continue with the value pushed. -/
theorem bind (h : Computes cfg site s x vs mid r) {k : AerVal → State → Evaluated}
    (hk : ∀ v u y, Poised site s u y (vs ++ [v]) mid → Computes cfg site s y ws ip (k v u)) :
    Computes cfg site s x ws ip (r.bind k) := by
  cases r with
  | fault => exact h
  | error u => exact h
  | value v u =>
    obtain ⟨n, y, hy, hpoised⟩ := h
    exact after hy (hk v u y hpoised)

end Computes

namespace Poised
variable {ip ip' : Nat} {ws : List Int} {w : AerVal}

theorem start (hclear : s.runtimeHadError = false) (hcaches : CachesAgree site s) :
    Poised site s s s [] s.vm.ip :=
  ⟨.refl s, hclear, ⟨rfl, ⟨rfl, fun _ _ => rfl, fun i hi => absurd hi (Nat.not_lt_zero i)⟩, hcaches, rfl⟩, rfl⟩

theorem codeAt (h : Poised site s t x vs ip) (hcode : CodeAt s ip ws) : CodeAt x x.vm.ip ws := by
  rw [h.ip]
  exact hcode.of_code ((code_of_core h.here.core).trans (congrArg (fun c => c.code) h.values.chunk))

theorem hadError (h : Poised site s t x vs ip) : x.runtimeHadError = false :=
  (hadError_of_core h.here.core).trans h.clear

variable (hs : NamesLive s)

/-- An operand. -/
theorem operand (h : Poised site s t x vs ip) {a : Fetch} (ha : a.Sited site s)
    (hroom : s.vm.stackTop + vs.length < vmStackMax) (hcode : CodeAt s ip a.words) :
    Computes cfg site s x vs (ip + a.words.length) (.ofGot t (a.got t)) := by
  have hload := run_fetch cfg h.here ha hroom (h.codeAt hcode)
  cases hgot : a.got t with
  | value v =>
    rw [hgot] at hload
    obtain ⟨y, hy, hat, hip⟩ := hload
    have hno : y.runtimeHadError = false := (hadError_of_core hat.core).trans h.clear
    exact ⟨1, y, .one hy hno, h.values, h.clear, hat, by rw [hip, h.ip]⟩
  | undefined m =>
    rw [hgot] at hload
    obtain ⟨y, hy, hcore⟩ := hload
    exact ⟨rfl, 1, y, (run_lastInstruction cfg x).trans hy, hcore⟩
  | fault =>
    rw [hgot] at hload
    obtain ⟨y, hy⟩ := hload
    exact ⟨1, y, (run_lastInstruction cfg x).trans hy⟩

include hs

/-- An instruction that pushes what a computation gives, once it has taken its operands. -/
theorem computed (ht : s.Values t) (hat : At site s t y vs) (hip : y.vm.ip = ip) {p : Handler AerVal}
    (hp : Computing p) (hroom : s.vm.stackTop + vs.length < vmStackMax)
    (hrun : instruction.run (exec cfg) x = (p >>= push).run (exec cfg) y) :
    Computes cfg site s x vs ip (.ofRun (p.run (exec cfg) t)) := by
  obtain ⟨hdone, hstop⟩ := run_computing cfg hp (ht.namesLive hs) hat
  rw [run_bind] at hrun
  cases hprun : p.run (exec cfg) t with
  | stop w u =>
    obtain ⟨z, hz⟩ := hstop w u hprun
    rw [hz] at hrun
    exact ⟨1, z, (run_lastInstruction cfg x).trans hrun⟩
  | done v u =>
    obtain ⟨hu, z, hz, hatz, hipz⟩ := hdone v u hprun
    obtain ⟨w, hw, hatw, hipw⟩ := hatz.push cfg hroom v
    rw [hz, Outcome.done_andThen, hw] at hrun
    cases herror : u.runtimeHadError with
    | true =>
      rw [Evaluated.ofRun, if_pos herror]
      exact ⟨herror, 1, w, (run_lastInstruction cfg x).trans hrun, hatw.core⟩
    | false =>
      rw [Evaluated.ofRun, if_neg (by rw [herror]; exact Bool.false_ne_true)]
      have hno : w.runtimeHadError = false := (hadError_of_core hatw.core).trans herror
      exact ⟨1, w, .one hrun hno, ht.trans hu, herror, hatw, hipw.trans (hipz.trans hip)⟩

/-- An operator of one operand takes the value on top. -/
theorem unary {op : Unary} (h : Poised site s t x (vs ++ [w]) ip)
    (hroom : s.vm.stackTop + vs.length < vmStackMax) (hcode : CodeAt s ip op.words) :
    Computes cfg site s x vs (ip + op.words.length) (.ofRun ((op.apply w).run (exec cfg) t)) := by
  obtain ⟨y, hy, hat, hip⟩ := (h.here.atIp (x.vm.ip + op.words.length)).pop cfg vs
  refine computed hs h.values hat (hip.trans (congrArg (· + op.words.length) h.ip))
    (computing_apply op w) hroom ?_
  rw [run_unary (h.codeAt hcode), run_bind, hy, Outcome.done_andThen]

/-- An operator of two operands takes the two on top. -/
theorem binary {op : Opcode} {a b : AerVal} (hop : op.isBinary = true)
    (h : Poised site s t x (vs ++ [a] ++ [b]) ip) (hroom : s.vm.stackTop + vs.length < vmStackMax)
    (hcode : CodeAt s ip (instructionWords op [])) :
    Computes cfg site s x vs (ip + 1) (.ofRun ((vmBinary a b op).run (exec cfg) t)) := by
  obtain ⟨y, hy, haty, hipy⟩ := (h.here.atIp (x.vm.ip + 1)).pop cfg (vs ++ [a])
  obtain ⟨z, hz, hatz, hipz⟩ := haty.pop cfg vs
  refine computed hs h.values hatz (hipz.trans (hipy.trans (congrArg (· + 1) h.ip)))
    (.of_valueOnly (valueOnly_vmBinary a b op)) hroom ?_
  rw [run_instruction (h.codeAt hcode), handler_of_isBinary hop]
  unfold lblBinary
  rw [run_bind, hy, Outcome.done_andThen, run_bind, hz, Outcome.done_andThen]

variable (cfg) in
/-- What a branch makes of the value on top. -/
theorem decided {sense : Bool} {op : Opcode} (hop : handler op = lblJumpIf sense) {target : Nat}
    (h : Poised site s t x (vs ++ [w]) ip) (hcode : CodeAt s ip (instructionWords op [target])) :
    (∀ holds u, (vmTruthy w).run (exec cfg) t = .done holds u →
      ∃ y, Proceeds cfg 1 x y ∧ Poised site s t y vs (if holds = sense then target else ip + 2)) ∧
    ∀ v u, (vmTruthy w).run (exec cfg) t = .stop v u → ∃ y, (instructions 1).run (exec cfg) x = .stop .fault y := by
  have hcodex := h.codeAt hcode
  have hargs : CodeAt (x.atIp (x.vm.ip + 1)) (x.vm.ip + 1) [(target : Int)] := hcodex.tail
  obtain ⟨y, hy, haty, hipy⟩ := (h.here.atIp (x.vm.ip + 2)).pop cfg vs
  have hrun : instruction.run (exec cfg) x =
      ((vmTruthy w).run (exec cfg) y).andThen fun holds z =>
        .done () (if holds = sense then z.atIp target else z) := by
    rw [run_instruction hcodex, hop]
    unfold lblJumpIf
    rw [run_arg hargs]
    change Prog.run _ _ (x.atIp (x.vm.ip + 2)) = _
    rw [run_bind, hy, Outcome.done_andThen, run_bind]
    congr 1
    funext holds z
    by_cases hsense : holds = sense
    · rw [if_pos hsense, if_pos (by rw [hsense]; exact beq_self_eq_true sense)]
      rfl
    · rw [if_neg hsense, if_neg (by simpa using hsense)]
      rfl
  obtain ⟨hdone, hstop⟩ := run_computing cfg (computing_vmTruthy w) (h.values.namesLive hs) haty
  refine ⟨fun holds u htrun => ?_, fun v u htrun => ?_⟩
  · obtain ⟨-, z, hz, hatz, hipz⟩ := hdone holds u htrun
    obtain rfl := state_of_vmTruthy htrun
    rw [hz, Outcome.done_andThen] at hrun
    have hno : z.runtimeHadError = false := (hadError_of_core hatz.core).trans h.clear
    refine ⟨_, .one hrun ?_, h.values, h.clear, ?_, ?_⟩
    · split <;> exact hno
    · split
      · exact hatz.atIp target
      · exact hatz
    · split
      · rfl
      · rw [hipz, hipy, ← h.ip]
        rfl
  · obtain ⟨z, hz⟩ := hstop v u htrun
    rw [hz] at hrun
    exact ⟨z, (run_lastInstruction cfg x).trans hrun⟩

/-- A branch on the value on top. -/
theorem branch {sense : Bool} {op : Opcode} (hop : handler op = lblJumpIf sense) {target : Nat}
    (h : Poised site s t x (vs ++ [w]) ip) (hcode : CodeAt s ip (instructionWords op [target]))
    {ws : List AerVal} {stop : Nat} {k : Bool → Evaluated}
    (hk : ∀ holds y, Poised site s t y vs (if holds = sense then target else ip + 2) →
      Computes cfg site s y ws stop (k holds)) :
    Computes cfg site s x ws stop (.decide cfg w t k) := by
  obtain ⟨hdone, hstop⟩ := decided cfg hs hop h hcode
  unfold Evaluated.decide
  cases htrun : (vmTruthy w).run (exec cfg) t with
  | stop v u =>
    obtain ⟨y, hy⟩ := hstop v u htrun
    exact ⟨1, y, hy⟩
  | done holds u =>
    obtain ⟨y, hy, hpoised⟩ := hdone holds u htrun
    exact .after hy (hk holds y hpoised)

omit hs in
/-- A jump. -/
theorem jump {target : Nat} (h : Poised site s t x vs ip)
    (hcode : CodeAt s ip (instructionWords .jump [target])) :
    ∃ y, Proceeds cfg 1 x y ∧ Poised site s t y vs target := by
  have hcodex := h.codeAt hcode
  have hargs : CodeAt (x.atIp (x.vm.ip + 1)) (x.vm.ip + 1) [(target : Int)] := hcodex.tail
  refine ⟨x.atIp target, .one ?_ h.hadError, h.values, h.clear, h.here.atIp target, rfl⟩
  rw [run_instruction hcodex]
  change lblJump.run (exec cfg) _ = _
  unfold lblJump
  rw [run_arg hargs]
  rfl

end Poised

section Whole
variable {ip mid target : Nat} {w : AerVal} {a b : Evaluated}

theorem Computes.jump (h : Computes cfg site s x vs mid a)
    (hcode : CodeAt s mid (instructionWords .jump [target])) : Computes cfg site s x vs target a := by
  cases a with
  | fault => exact h
  | error u => exact h
  | value v u =>
    obtain ⟨n, y, hy, hpoised⟩ := h
    obtain ⟨z, hz, hjumped⟩ : ∃ z, Proceeds cfg 1 y z ∧ Poised site s u z (vs ++ [v]) target :=
      hpoised.jump hcode
    exact ⟨n + 1, z, hy.trans hz, hjumped⟩

variable (hs : NamesLive s) (hroom : s.vm.stackTop + vs.length < vmStackMax)

include hroom in
theorem Poised.constant (h : Poised site s t x vs ip) {i : Nat} (hi : s.chunk.pool[i]? = some w)
    (hcode : CodeAt s ip (instructionWords .push [i])) : Computes cfg site s x vs (ip + 2) (.value w t) := by
  have hrun : Computes cfg site s x vs (ip + 2) (.ofGot t ((Fetch.const i).got t)) :=
    h.operand trivial hroom hcode
  rwa [show (Fetch.const i).got t = .value w by
    simp only [Fetch.got, h.values.chunk, hi]
    rfl] at hrun

include hs

/-- The code of a conditional behind its condition. -/
theorem run_twoSided {yes no : List Int} (h : Poised site s t x (vs ++ [w]) ip)
    (hcode : CodeAt s ip (twoSided ip yes no))
    (ha : ∀ y, Poised site s t y vs (ip + 2) → Computes cfg site s y vs (ip + 2 + yes.length) a)
    (hb : ∀ y, Poised site s t y vs (ip + yes.length + 4) →
      Computes cfg site s y vs (ip + yes.length + 4 + no.length) b) :
    Computes cfg site s x vs (ip + yes.length + 4 + no.length)
      (.decide cfg w t fun holds => if holds then a else b) := by
  refine h.branch hs (show handler .jumpIfFalse = lblJumpIf false from rfl) hcode.left fun holds y hy => ?_
  cases holds with
  | false => exact hb y hy
  | true => exact (ha y hy).jump hcode.right.right.left

include hroom in
/-- The code of `&&` and `||` behind their left side. -/
theorem run_shortCircuit {decisive : Bool} {rhs : List Int} {through decided : Nat}
    (hthrough : s.chunk.pool[through]? = some (aerBool !decisive))
    (hdecided : s.chunk.pool[decided]? = some (aerBool decisive)) {l : Evaluated} {r : State → Evaluated}
    (hcode : CodeAt s ip (shortCircuit (branchOn decisive) ip rhs through decided))
    (hl : Computes cfg site s x vs ip l)
    (hr : ∀ t y, Poised site s t y vs (ip + 2) → Computes cfg site s y vs (ip + 2 + rhs.length) (r t)) :
    Computes cfg site s x vs (ip + rhs.length + 10) (.logical cfg decisive l r) := by
  have hbranch : handler (branchOn decisive) = lblJumpIf decisive := by cases decisive <;> rfl
  have hrest := hcode.right.right
  have hstop : ip + 2 + rhs.length + 2 + 2 + 2 = ip + rhs.length + 8 := by omega
  have hlast : CodeAt s (ip + rhs.length + 8) (instructionWords .push [decided]) :=
    hstop ▸ hrest.right.right.right
  refine hl.bind fun v t y hy => hy.branch hs hbranch hcode.left fun holds y hy => ?_
  by_cases hdecides : holds = decisive
  · rw [if_pos hdecides] at hy ⊢
    exact hy.constant hroom hdecided hlast
  rw [if_neg hdecides] at hy ⊢
  refine (hr t y hy).bind fun v u z hz => hz.branch hs hbranch hrest.left fun holds z hz => ?_
  by_cases hdecides : holds = decisive
  · rw [if_pos hdecides] at hz
    rw [hdecides]
    exact hz.constant hroom hdecided hlast
  · rw [if_neg hdecides] at hz
    rw [show holds = !decisive by cases holds <;> cases decisive <;> simp_all]
    exact (hz.constant hroom hthrough hrest.right.left).jump hrest.right.right.left

omit hs in
theorem length_append_shortCircuit (ws rhs : List Int) (op : Opcode) (through decided : Nat) :
    ip + (ws ++ shortCircuit op (ip + ws.length) rhs through decided).length =
      ip + ws.length + rhs.length + 10 := by
  simp only [shortCircuit, instructionWords, List.length_append, List.length_cons, List.length_map,
    List.length_nil]
  omega

omit hs in
theorem length_append_twoSided (ws yes no : List Int) :
    ip + (ws ++ twoSided (ip + ws.length) yes no).length =
      ip + ws.length + yes.length + 4 + no.length := by
  simp only [twoSided, instructionWords, List.length_append, List.length_cons, List.length_map,
    List.length_nil]
  omega

/-- Running the code of an expression is evaluating it. -/
theorem run_coded {e : Expr Fetch} {ws : List Int} (he : Coded s.chunk.pool e ip ws)
    (h : Poised site s t x vs ip) (hcode : CodeAt s ip ws) (hsited : ∀ a ∈ e.operands, a.Sited site s)
    (hroom : s.vm.stackTop + vs.length + e.depth ≤ vmStackMax) :
    Computes cfg site s x vs (ip + ws.length) (e.eval cfg Fetch.got t) := by
  induction he generalizing t x vs with
  | operand a ip =>
    exact h.operand (hsited a (List.mem_singleton_self a)) hroom hcode
  | group _ ih => exact ih h hcode hsited hroom
  | @unary e ip ws op _ ih =>
    have hpos := e.depth_pos
    rw [Expr.depth] at hroom
    rw [List.length_append, ← Nat.add_assoc]
    exact (ih h hcode.left hsited hroom).bind fun v u y hy => hy.unary hs (by omega) hcode.right
  | @binary l r ip ws ws' op hop _ _ ihl ihr =>
    have hpos := l.depth_pos
    rw [Expr.depth] at hroom
    rw [Expr.operands, List.forall_mem_append] at hsited
    rw [List.length_append, List.length_append, ← Nat.add_assoc, ← Nat.add_assoc]
    refine (ihl h hcode.left hsited.1 (by omega)).bind fun a u y hy => ?_
    refine (ihr hy hcode.right.left hsited.2 ?_).bind fun b w z hz =>
      hz.binary hs hop (by omega) hcode.right.right
    rw [List.length_append, List.length_singleton]
    omega
  | @logical l r ip ws ws' decisive through decided hthrough hdecided _ _ ihl ihr =>
    have hpos := l.depth_pos
    rw [Expr.depth] at hroom
    rw [Expr.operands, List.forall_mem_append] at hsited
    rw [length_append_shortCircuit]
    exact run_shortCircuit hs (by omega) hthrough hdecided hcode.right
      (ihl h hcode.left hsited.1 (by omega))
      fun u y hy => ihr hy hcode.right.right.left hsited.2 (by omega)
  | @choose c a b ip ws wa wb _ _ _ ihc iha ihb =>
    rw [Expr.depth] at hroom
    rw [Expr.operands, List.forall_mem_append, List.forall_mem_append] at hsited
    rw [length_append_twoSided]
    refine (ihc h hcode.left hsited.1.1 (by omega)).bind fun v u y hy => ?_
    have hboth := hcode.right
    refine run_twoSided hs hy hboth (fun z hz => iha hz hboth.right.left hsited.1.2 (by omega)) fun z hz => ?_
    have haddr : ip + ws.length + wa.length + 4 = ip + ws.length + 4 + wa.length := by omega
    rw [haddr] at hz ⊢
    refine ihb hz ?_ hsited.2 (by omega)
    have hno : ip + ws.length + 2 + wa.length + 2 = ip + ws.length + 4 + wa.length := by omega
    exact hno ▸ hboth.right.right.right
  | @when c a ip ws wa null hnull _ _ ihc iha =>
    have hpos := a.depth_pos
    rw [Expr.depth] at hroom
    rw [Expr.operands, List.forall_mem_append] at hsited
    rw [length_append_twoSided]
    refine (ihc h hcode.left hsited.1 (by omega)).bind fun v u y hy => ?_
    have hboth := hcode.right
    refine run_twoSided hs hy hboth (fun z hz => iha hz hboth.right.left hsited.2 (by omega)) fun z hz => ?_
    have hno : ip + ws.length + 2 + wa.length + 2 = ip + ws.length + wa.length + 4 := by omega
    exact hz.constant (by omega) hnull (hno ▸ hboth.right.right.right)

end Whole

end Runs

/-! The operands of an evaluation: they are what they were at its start. -/

def Expr.map {α β : Type} (f : α → β) : Expr α → Expr β
  | .operand a => .operand (f a)
  | .group e => .group (e.map f)
  | .unary op e => .unary op (e.map f)
  | .binary op l r => .binary op (l.map f) (r.map f)
  | .logical decisive l r => .logical decisive (l.map f) (r.map f)
  | .choose c a b => .choose (c.map f) (a.map f) (b.map f)
  | .when c a => .when (c.map f) (a.map f)

/-- No variable has changed. -/
structure Steady (s t : State) : Prop where
  values : s.Values t
  functions : t.heap.functions = s.heap.functions

/-- What holds of the state an evaluation ends in, when it ends with a value. -/
def Evaluated.Keeps (P : State → Prop) : Evaluated → Prop
  | .value _ t => P t
  | .fault | .error _ => True

section Operands
variable {cfg : Config} {s t u : State} {P : State → Prop} {r : Evaluated}

theorem Steady.refl (s : State) : Steady s s := ⟨.refl s, rfl⟩

theorem Steady.trans (h : Steady s t) (h' : Steady t u) : Steady s u :=
  ⟨h.values.trans h'.values, h'.functions.trans h.functions⟩

theorem steady_exec (cfg : Config) {o : Op} (ho : o.isComputing = true) (s : State) :
    Steady s (exec cfg o s).state where
  values := computing_values cfg ho s
  functions := by
    cases o with
    | newInt n =>
      change (s.heap.aerInt n).2.functions = _
      unfold Heap.aerInt
      split <;> rfl
    | asInt v | string c | array c | dict c | function c | format v => simp only [exec, orFault_state]
    | newString b | error m | fault => rfl
    | _ => cases ho

theorem steady_run (cfg : Config) {α : Type} {p : Handler α} (hp : Computing p) (t : State) :
    Steady t (p.run (exec cfg) t).state :=
  Only.run_preserves hp (.refl t) fun _ _ ho hu => hu.trans (steady_exec cfg ho _)

namespace Evaluated

theorem Keeps.bind (h : r.Keeps P) {k : AerVal → State → Evaluated} (hk : ∀ v u, P u → (k v u).Keeps P) :
    (r.bind k).Keeps P := by
  cases r with
  | value v u => exact hk v u h
  | _ => trivial

theorem bind_congr {r' : Evaluated} (hr : r' = r) (h : r.Keeps P) {k' k : AerVal → State → Evaluated}
    (hk : ∀ v u, P u → k' v u = k v u) : r'.bind k' = r.bind k := by
  subst hr
  cases r' with
  | value v u => exact hk v u h
  | _ => rfl

theorem Keeps.decide {v : AerVal} {k : Bool → Evaluated} (hk : ∀ b, (k b).Keeps P) :
    (Evaluated.decide cfg v t k).Keeps P := by
  unfold Evaluated.decide
  split
  · exact hk _
  · trivial

theorem keeps_ofRun {p : Handler AerVal} (hp : Computing p) (h : Steady s t) :
    (ofRun (p.run (exec cfg) t)).Keeps (Steady s) := by
  have hrun := steady_run cfg hp t
  cases hr : p.run (exec cfg) t with
  | stop w u => trivial
  | done v u =>
    rw [hr] at hrun
    change (if u.runtimeHadError then error u else value v u : Evaluated).Keeps (Steady s)
    split
    · trivial
    · exact h.trans hrun

end Evaluated

open Evaluated

/-- An evaluation changes no variable. -/
theorem eval_keeps {α : Type} {got : State → α → Got} (e : Expr α) (h : Steady s t) :
    (e.eval cfg got t).Keeps (Steady s) := by
  induction e generalizing t with
  | operand a =>
    rw [Expr.eval]
    cases got t a <;> first | exact h | trivial
  | group e ih => exact ih h
  | unary op e ih => exact (ih h).bind fun v u hu => keeps_ofRun (computing_apply op v) hu
  | binary op l r ihl ihr =>
    exact (ihl h).bind fun a u hu => (ihr hu).bind fun b w hw =>
      keeps_ofRun (.of_valueOnly (valueOnly_vmBinary a b op)) hw
  | logical decisive l r ihl ihr =>
    refine (ihl h).bind fun a u hu => .decide fun holds => ?_
    split
    · exact hu
    · exact (ihr hu).bind fun b w hw => .decide fun _ => hw
  | choose c a b ihc iha ihb =>
    refine (ihc h).bind fun v u hu => .decide fun holds => ?_
    split
    · exact iha hu
    · exact ihb hu
  | when c a ihc iha =>
    refine (ihc h).bind fun v u hu => .decide fun holds => ?_
    split
    · exact iha hu
    · exact hu

theorem nameOf_of_values (hs : NamesLive s) (h : s.Values t) (n : Nat) : t.nameOf n = s.nameOf n := by
  unfold State.nameOf
  rw [h.chunk]
  cases hn : s.chunk.pool[n]? with
  | none => rfl
  | some v =>
    cases v with
    | string c =>
      have hlive := hs.live c (List.mem_of_getElem? hn)
      have hgrows := h.heap hs.pools
      have hdata : t.heap.strings.data c = s.heap.strings.data c := hgrows.data (.string c) hlive id
      have hlive' : t.heap.strings.Live c := hgrows.live (.string c) hlive
      have hsame : t.stringData c = s.stringData c := by
        unfold State.stringData
        rw [if_pos hlive, if_pos hlive', hdata]
      exact congrArg (Option.map cString) hsame
    | _ => rfl

theorem got_of_steady (hs : NamesLive s) (h : Steady s t) (a : Fetch) : a.got t = a.got s := by
  have hread : t.readAddr = s.readAddr := by
    funext a
    cases a with
    | slot i j => simp only [State.readAddr, h.values.vm]
    | box b => simp only [State.readAddr, Heap.readBox, h.values.boxes, h.values.entries]
  cases a with
  | const i => exact congrArg (fun c : Chunk => Got.ofOption c.pool[i]?) h.values.chunk
  | var l =>
    cases l with
    | name n c =>
      simp only [Fetch.got, Loader.got, Operand.got, h.values.vmScopeGet hs, nameOf_of_values hs h.values, hread]
    | slot i =>
      have hslot : t.localSlot i = s.localSlot i := by simp only [State.localSlot, h.values.vm]
      simp only [Fetch.got, Loader.got, Operand.got, hslot, hread]
    | upvalue i =>
      have hup : t.upvalue i = s.upvalue i := by
        simp only [State.upvalue, State.topFrame, State.functionData, h.values.vm, h.functions]
      simp only [Fetch.got, Loader.got, hup, hread]

/-- An expression evaluates to what it does when its operands are read at the start. -/
theorem eval_map (hs : NamesLive s) (e : Expr Fetch) (h : Steady s t) :
    (e.map fun a => a.got s).eval cfg (fun _ g => g) t = e.eval cfg Fetch.got t := by
  induction e generalizing t with
  | operand a => exact congrArg (ofGot t) (got_of_steady hs h a).symm
  | group e ih => exact ih h
  | unary op e ih => exact bind_congr (ih h) (eval_keeps e h) fun _ _ _ => rfl
  | binary op l r ihl ihr =>
    exact bind_congr (ihl h) (eval_keeps l h) fun a u hu =>
      bind_congr (ihr hu) (eval_keeps r hu) fun _ _ _ => rfl
  | logical decisive l r ihl ihr =>
    refine bind_congr (ihl h) (eval_keeps l h) fun a u hu => congrArg (decide cfg a u) (funext fun holds => ?_)
    split
    · rfl
    · exact bind_congr (ihr hu) (eval_keeps r hu) fun _ _ _ => rfl
  | choose c a b ihc iha ihb =>
    refine bind_congr (ihc h) (eval_keeps c h) fun v u hu => ?_
    rw [iha hu, ihb hu]
  | when c a ihc iha =>
    refine bind_congr (ihc h) (eval_keeps c h) fun v u hu => ?_
    rw [iha hu]

end Operands

end Aer.Machine
