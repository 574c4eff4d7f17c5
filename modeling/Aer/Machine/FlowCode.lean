import Aer.Machine.CachedNames
import Aer.Machine.ExprCode
import Aer.Program.Source

set_option linter.all false

/-! Control flow as trees: what the execution of a block of statements comes to, without jumps, the code
a block is compiled to, and that running the code is executing the tree. -/
namespace Aer.Machine

open Aer.Data Aer.Memory Aer.Lib.Interaction

/-! Trees. -/

/-- A block of statements: assignments, conditionals with and without `else`, loops on a condition, and
`break` and `continue`, each in front of the rest of its block. -/
inductive Block (α β : Type)
  | done
  | assign (x : β) (e : Expr α) (rest : Block α β)
  | choose (c : Expr α) (yes no rest : Block α β)
  | when (c : Expr α) (yes rest : Block α β)
  | loop (c : Expr α) (body rest : Block α β)
  | leave (rest : Block α β)
  | again (rest : Block α β)

/-! Execution. -/

/-- The end of an execution: undefined behaviour, a machine that gives up, a reported error, a state
behind the statements, one in which the loop around them is left or takes its next turn, or a loop that
takes more turns than it may. -/
inductive Ended
  | fault
  | failed (t : State)
  | error (t : State)
  | next (t : State)
  | leave (t : State)
  | again (t : State)
  | unfinished

namespace Ended

/-- Whether the statements are left at their end. -/
def isNext : Ended → Bool
  | next _ => true
  | _ => false

/-- Go on behind the statements. -/
def andThen (r : Ended) (k : State → Ended) : Ended :=
  match r with
  | next t => k t
  | r => r

/-- Go on when the machine has. -/
def ofScope (k : State → Ended) : Result Unit → Ended
  | .done _ t => k t
  | .stop _ t => failed t

/-- A scope is left on every way out of its block. -/
def popScope : Ended → Ended
  | next t => ofScope next t.popScope
  | leave t => ofScope leave t.popScope
  | again t => ofScope again t.popScope
  | r => r

/-- A block in a scope of its own. -/
def inScope (block : State → Ended) (t : State) : Ended := (ofScope block t.pushScope).popScope

/-- The end of a turn of a loop. -/
def turn (r : Ended) (go : State → Ended) : Ended :=
  match r with
  | next t | again t => go t
  | leave t => next t
  | r => r

/-- A loop that may take `n` turns. -/
def turns (test : State → (Bool → State → Ended) → Ended) (body : State → Ended) : Nat → State → Ended
  | 0, _ => unfinished
  | n + 1, t => test t fun holds u => if holds then (body u).turn (turns test body n) else next u

end Ended

namespace Evaluated

/-- Go on with the value. -/
def andThen (r : Evaluated) (k : AerVal → State → Ended) : Ended :=
  match r with
  | fault => .fault
  | error t => .error t
  | value v t => k v t

/-- Go on with the truth of the value. -/
def test (cfg : Config) (r : Evaluated) (k : Bool → State → Ended) : Ended :=
  r.andThen fun v t =>
    match (vmTruthy v).run (exec cfg) t with
    | .done holds _ => k holds t
    | .stop _ _ => .fault

end Evaluated

/-- A store, where there is storage. -/
def State.written (s : State) (a : Addr) (v : AerVal) : Option State :=
  if s.isStored a then some (s.writeAddr a v) else none

/-- A definition in the innermost scope. -/
def State.defined (s : State) (n : Nat) (v : AerVal) : Option State :=
  if (s.placeIn n (s.vm.scopeDepth - 1)).all fun p => s.isStored (s.placeAddr p) then
    some (s.vmScopeDefine n v)
  else none

/-- The assignment to a variable: a name that has no value yet gets one in the innermost scope. -/
def Variable.put (v : AerVal) (s : State) : Variable → Option State
  | slot i => (s.localSlot i).bind fun a => s.written a v
  | name n _ =>
      match s.vmScopeGet n with
      | some a => s.written a v
      | none => s.defined n v

/-- What the execution of a block comes to when no loop takes more than `n` turns. -/
def Block.exec (cfg : Config) (n : Nat) : Block Fetch Variable → State → Ended
  | done, t => .next t
  | assign x e rest, t =>
      (e.eval cfg Fetch.got t).andThen fun v u =>
        match x.put v u with
        | some w => rest.exec cfg n w
        | none => .fault
  | choose c yes no rest, t =>
      ((c.eval cfg Fetch.got t).test cfg fun holds u =>
        if holds then .inScope (yes.exec cfg n) u else .inScope (no.exec cfg n) u).andThen (rest.exec cfg n)
  | when c yes rest, t =>
      ((c.eval cfg Fetch.got t).test cfg fun holds u =>
        if holds then .inScope (yes.exec cfg n) u else .next u).andThen (rest.exec cfg n)
  | loop c body rest, t =>
      (Ended.turns (fun t k => (c.eval cfg Fetch.got t).test cfg k) (body.exec cfg n) n t).andThen
        (rest.exec cfg n)
  | leave _, t => .leave t
  | again _, t => .again t

/-! Code. -/

def Variable.storeWords (x : Variable) : List Int := instructionWords x.store x.operand.words

/-- A block in a scope of its own. -/
def scopedCode (ws : List Int) : List Int :=
  instructionWords .pushScope [] ++ (ws ++ instructionWords .popScope [])

/-- The one side of a conditional without `else`, behind its condition. -/
def oneSided (ip : Nat) (yes : List Int) : List Int :=
  instructionWords .jumpIfFalse [ip + yes.length + 2] ++ yes

/-- The body of a loop, behind its condition. -/
def turnCode (top ip : Nat) (body : List Int) : List Int :=
  instructionWords .jumpIfFalse [ip + body.length + 4] ++ (body ++ instructionWords .jump [top])

/-- The jump out of `k` scopes. -/
def leaveCode (k target : Nat) : List Int :=
  List.replicate k Opcode.popScope.word ++ instructionWords .jump [target]

@[simp] theorem length_instructionWords (op : Opcode) (args : List Nat) :
    (instructionWords op args).length = args.length + 1 := by
  simp [instructionWords]

@[simp] theorem length_scopedCode (ws : List Int) : (scopedCode ws).length = ws.length + 2 := by
  simp [scopedCode]
  omega

@[simp] theorem length_oneSided (ip : Nat) (yes : List Int) : (oneSided ip yes).length = yes.length + 2 := by
  simp [oneSided]
  omega

@[simp] theorem length_twoSided (ip : Nat) (yes no : List Int) :
    (twoSided ip yes no).length = yes.length + no.length + 4 := by
  simp [twoSided]
  omega

@[simp] theorem length_turnCode (top ip : Nat) (body : List Int) :
    (turnCode top ip body).length = body.length + 4 := by
  simp [turnCode]
  omega

@[simp] theorem length_leaveCode (k target : Nat) : (leaveCode k target).length = k + 2 := by
  simp [leaveCode]

/-- Where `continue` and `break` go. -/
structure Loop where
  top : Nat
  exit : Nat

/-- The code of a block that begins at an address, in `k` scopes inside a loop; the list has the
addresses at which the loop's exit stands in it. -/
inductive BlockCoded (pool : List AerVal) :
    Option Loop → Nat → Block Fetch Variable → Nat → List Int → List Nat → Prop
  | done (l : Option Loop) (k ip : Nat) : BlockCoded pool l k .done ip [] []
  | assign {l : Option Loop} {k ip : Nat} {e : Expr Fetch} {rest : Block Fetch Variable} {we wr : List Int}
      {ps : List Nat} (x : Variable) :
      Coded pool e ip we → BlockCoded pool l k rest (ip + (we ++ x.storeWords).length) wr ps →
      BlockCoded pool l k (.assign x e rest) ip (we ++ x.storeWords ++ wr) ps
  | choose {l : Option Loop} {k ip : Nat} {c : Expr Fetch} {yes no rest : Block Fetch Variable}
      {wc wy wn wr : List Int} {ps qs rs : List Nat} :
      Coded pool c ip wc → BlockCoded pool l (k + 1) yes (ip + wc.length + 3) wy ps →
      BlockCoded pool l (k + 1) no (ip + wc.length + wy.length + 7) wn qs →
      BlockCoded pool l k rest (ip + wc.length + wy.length + wn.length + 8) wr rs →
      BlockCoded pool l k (.choose c yes no rest) ip
        (wc ++ (twoSided (ip + wc.length) (scopedCode wy) (scopedCode wn) ++ wr)) (ps ++ (qs ++ rs))
  | when {l : Option Loop} {k ip : Nat} {c : Expr Fetch} {yes rest : Block Fetch Variable}
      {wc wy wr : List Int} {ps qs : List Nat} :
      Coded pool c ip wc → BlockCoded pool l (k + 1) yes (ip + wc.length + 3) wy ps →
      BlockCoded pool l k rest (ip + wc.length + wy.length + 4) wr qs →
      BlockCoded pool l k (.when c yes rest) ip
        (wc ++ (oneSided (ip + wc.length) (scopedCode wy) ++ wr)) (ps ++ qs)
  | loop {l : Option Loop} {k ip : Nat} {c : Expr Fetch} {body rest : Block Fetch Variable}
      {wc wb wr : List Int} {ps qs : List Nat} :
      Coded pool c ip wc →
      BlockCoded pool (some ⟨ip, ip + wc.length + wb.length + 4⟩) 0 body (ip + wc.length + 2) wb ps →
      BlockCoded pool l k rest (ip + wc.length + wb.length + 4) wr qs →
      BlockCoded pool l k (.loop c body rest) ip (wc ++ (turnCode ip (ip + wc.length) wb ++ wr)) qs
  | leave {l : Loop} {k ip : Nat} {rest : Block Fetch Variable} {wr : List Int} {ps : List Nat} :
      BlockCoded pool (some l) k rest (ip + k + 2) wr ps →
      BlockCoded pool (some l) k (.leave rest) ip (leaveCode k l.exit ++ wr) ((ip + k + 1) :: ps)
  | again {l : Loop} {k ip : Nat} {rest : Block Fetch Variable} {wr : List Int} {ps : List Nat} :
      BlockCoded pool (some l) k rest (ip + k + 2) wr ps →
      BlockCoded pool (some l) k (.again rest) ip (leaveCode k l.top ++ wr) ps

namespace Block

/-- The slots of the value stack that the code needs. -/
def depth {α β : Type} : Block α β → Nat
  | done => 0
  | assign _ e rest => max e.depth rest.depth
  | choose c yes no rest => max (max c.depth (max yes.depth no.depth)) rest.depth
  | when c yes rest | loop c yes rest => max (max c.depth yes.depth) rest.depth
  | leave rest | again rest => rest.depth

def operands {α β : Type} : Block α β → List α
  | done => []
  | assign _ e rest => e.operands ++ rest.operands
  | choose c yes no rest => c.operands ++ (yes.operands ++ (no.operands ++ rest.operands))
  | when c yes rest | loop c yes rest => c.operands ++ (yes.operands ++ rest.operands)
  | leave rest | again rest => rest.operands

/-- The variables assigned to. -/
def targets {α β : Type} : Block α β → List β
  | done => []
  | assign x _ rest => x :: rest.targets
  | choose _ yes no rest => yes.targets ++ (no.targets ++ rest.targets)
  | when _ yes rest | loop _ yes rest => yes.targets ++ rest.targets
  | leave rest | again rest => rest.targets

end Block

/-! Between the instructions. -/

/-- What no statement changes: the code with its constants, and the value stack below. -/
structure State.Base (s t : State) : Prop where
  chunk : t.chunk = s.chunk
  stack : t.vm.stack = s.vm.stack
  stackTop : t.vm.stackTop = s.vm.stackTop

/-- What a change of the variables or of the scopes leaves alone. -/
structure State.Still (s t : State) : Prop extends s.Base t where
  hadError : t.runtimeHadError = s.runtimeHadError
  ip : t.vm.ip = s.vm.ip

/-- A state between two statements. -/
structure Between (s t : State) : Prop where
  base : s.Base t
  tidy : t.Tidy
  clear : t.runtimeHadError = false

/-- A machine that has got to `t`: its caches hold what the names are looked up to. -/
structure Rests (site : Nat → Nat) (s t x : State) (vs : List AerVal) (ip : Nat) : Prop extends
    Between s t where
  here : At site s t x vs
  globals : x.CachesGlobal
  ip : x.vm.ip = ip

/-- Every cache is that of a name. -/
def Named (site : Nat → Nat) (s : State) : Prop :=
  ∀ c < s.chunk.addrCache.length, ∃ cell, s.chunk.pool[site c]? = some (.string cell)

/-- The run that is to change a variable. -/
def Assigns (site : Nat → Nat) (s : State) (vs : List AerVal) (ip : Nat) (r : Result Unit) : Option State → Prop
  | some u => ∃ y, r = .done () y ∧ Rests site s u y vs ip
  | none => ∃ y, r = .stop .fault y

/-- The run that is to open or to leave a scope. -/
def Moves (site : Nat → Nat) (s : State) (vs : List AerVal) (ip : Nat) (r : Result Unit) : Result Unit → Prop
  | .done _ u => ∃ y, r = .done () y ∧ Rests site s u y vs ip
  | .stop _ u => ∃ y, r = .stop .failed y ∧ y.core = u.core

section Steps
variable {cfg : Config} {site : Nat → Nat} {s t u x y : State} {vs : List AerVal} {v : AerVal} {ip : Nat}

theorem Proceeds.globals {n : Nat} (h : Proceeds cfg n x y) (hx : x.CachesGlobal) : y.CachesGlobal :=
  run_invariant h.1 hx fun o _ _ _ hs he => State.exec_globals cfg o hs he

namespace State.Base

theorem refl (s : State) : s.Base s := ⟨rfl, rfl, rfl⟩

theorem trans (h : s.Base t) (h' : t.Base u) : s.Base u :=
  ⟨h'.chunk.trans h.chunk, h'.stack.trans h.stack, h'.stackTop.trans h.stackTop⟩

theorem at_left (h : s.Base t) (hat : At site s u x vs) : At site t u x vs where
  core := hat.core
  stack := ⟨h.stackTop ▸ hat.stack.top, fun i hi => h.stack ▸ hat.stack.below i (h.stackTop ▸ hi),
    h.stackTop ▸ hat.stack.above⟩
  caches := hat.caches
  length := h.chunk ▸ hat.length

theorem at_right (h : s.Base t) (hat : At site t u x vs) : At site s u x vs where
  core := hat.core
  stack := ⟨h.stackTop ▸ hat.stack.top, fun i hi => h.stack ▸ hat.stack.below i (h.stackTop ▸ hi),
    h.stackTop ▸ hat.stack.above⟩
  caches := hat.caches
  length := h.chunk ▸ hat.length

theorem sited (h : s.Base t) {a : Fetch} (ha : a.Sited site s) : a.Sited site t := by
  cases a with
  | const i => trivial
  | var l =>
    cases l with
    | name n c => exact ⟨ha.1, h.chunk ▸ ha.2⟩
    | _ => trivial

end State.Base

/-- The state with a scope more. -/
def State.opened (s : State) : State :=
  let i := s.vm.scopeDepth
  let scope :=
    { s.vm.scopes i with count := 0, overflow := false, map := .empty, overflowHasCaptures := false }
  { s with vm := { s.vm.setScope i scope with scopeDepth := i + 1 } }

theorem State.pushScope_eq (s : State) :
    s.pushScope = if s.vm.scopeDepth < vmScopeMax then .done () s.opened
      else .stop .failed (s.addError (bytes "Scope stack overflow")) :=
  rfl

theorem State.core_opened (s : State) : s.opened.core = s.core.opened := rfl

theorem depth_of_core (h : x.core = t.core) : x.vm.scopeDepth = t.vm.scopeDepth :=
  congrArg (fun s => s.vm.scopeDepth) h

namespace State.Still

theorem writeAddr (s : State) (a : Addr) (v : AerVal) : s.Still (s.writeAddr a v) := by
  cases a <;> exact ⟨⟨rfl, rfl, rfl⟩, rfl, rfl⟩

theorem vmScopeDefine (s : State) (n : Nat) (v : AerVal) : s.Still (s.vmScopeDefine n v) := by
  unfold State.vmScopeDefine
  dsimp only
  split
  · exact writeAddr _ _ _
  · split
    · exact ⟨⟨rfl, rfl, rfl⟩, rfl, rfl⟩
    · split <;> exact ⟨⟨rfl, rfl, rfl⟩, rfl, rfl⟩

theorem opened (s : State) : s.Still s.opened := ⟨⟨rfl, rfl, rfl⟩, rfl, rfl⟩

theorem popOneScope (s : State) : s.Still s.popOneScope := by
  unfold State.popOneScope freeScope
  dsimp only
  split <;> exact ⟨⟨rfl, rfl, rfl⟩, rfl, rfl⟩

end State.Still

namespace State.Tidy

theorem values (hs : s.Tidy) (h : s.Values t) : t.Tidy where
  names := h.namesLive hs.names
  interned m n hm hn htext := by
    have hname {n : Nat} (hn : t.IsName n) : s.IsName n := by
      obtain ⟨c, hc, -⟩ := hn
      exact ⟨c, h.chunk ▸ hc, hs.names.live c (List.mem_of_getElem? (h.chunk ▸ hc))⟩
    rw [h.nameText hs.names, h.nameText hs.names] at htext
    exact hs.interned m n (hname hm) (hname hn) htext
  depth := h.vm ▸ hs.depth
  tables := h.vm ▸ hs.tables
  overflow := h.vm ▸ hs.overflow

theorem of_core (ht : t.Tidy) (h : x.core = t.core) : x.Tidy := by
  have hcore : t.core.Tidy :=
    ⟨⟨ht.names.pools, ht.names.live⟩, ht.interned, ht.depth, ht.tables, ht.overflow⟩
  rw [← h] at hcore
  exact ⟨⟨hcore.names.pools, hcore.names.live⟩, hcore.interned, hcore.depth, hcore.tables, hcore.overflow⟩

end State.Tidy

theorem Between.step (h : Between s t) (hstill : t.Still u) (htidy : u.Tidy) : Between s u :=
  ⟨h.base.trans hstill.toBase, htidy, hstill.hadError.trans h.clear⟩

/-- The same change made in the abstract state and by the machine. -/
theorem At.still (h : At site s t x vs) (hcore : y.core = u.core) (hstill : x.Still y)
    (hget : ∀ c a, x.chunk.addrCache[c]? = some (some a) → y.vmScopeGet (site c) = x.vmScopeGet (site c)) :
    At site s u y vs where
  core := hcore
  stack := ⟨hstill.stackTop.trans h.stack.top, fun i hi => hstill.stack ▸ h.stack.below i hi,
    fun i hi => hstill.stack ▸ h.stack.above i hi⟩
  caches c a ha := by
    rw [hstill.chunk] at ha
    rw [hget c a ha]
    exact h.caches c a ha
  length := hstill.chunk ▸ h.length

namespace Rests

variable (h : Rests site s t x vs ip)
include h

theorem hadError : x.runtimeHadError = false := (hadError_of_core h.here.core).trans h.clear

theorem codeAt {ws : List Int} (hcode : CodeAt s ip ws) : CodeAt x x.vm.ip ws := by
  rw [h.ip]
  exact hcode.of_code ((code_of_core h.here.core).trans (congrArg Chunk.code h.base.chunk))

theorem isName (hnamed : Named site s) {c : Nat} (hc : c < s.chunk.addrCache.length) : t.IsName (site c) := by
  obtain ⟨cell, hcell⟩ := hnamed c hc
  rw [← h.base.chunk] at hcell
  exact ⟨cell, hcell, h.tidy.names.live cell (List.mem_of_getElem? hcell)⟩

/-- The machine as an evaluation that begins in `t` sees it. -/
theorem poised : Poised site t t x vs ip := ⟨.refl t, h.clear, h.base.at_left h.here, h.ip⟩

/-- The machine once an evaluation has got on. -/
theorem of_poised {n : Nat} {ws : List AerVal} {mid : Nat} (hrun : Proceeds cfg n x y)
    (hy : Poised site t u y ws mid) : Rests site s u y ws mid where
  base := h.base.trans ⟨hy.values.chunk, congrArg Vm.stack hy.values.vm, congrArg Vm.stackTop hy.values.vm⟩
  here := h.base.at_right hy.here
  tidy := h.tidy.values hy.values
  clear := hy.clear
  globals := hrun.globals h.globals
  ip := hy.ip

/-- A jump. -/
theorem jump {target : Nat} (hcode : CodeAt s ip (instructionWords .jump [target])) :
    ∃ y, Proceeds cfg 1 x y ∧ Rests site s t y vs target := by
  have hcode : CodeAt t ip (instructionWords .jump [target]) :=
    hcode.of_code (congrArg Chunk.code h.base.chunk)
  obtain ⟨y, hy, hpoised⟩ : ∃ y, Proceeds cfg 1 x y ∧ Poised site t t y vs target := h.poised.jump hcode
  exact ⟨y, hy, h.of_poised hy hpoised⟩

theorem atIp (q : Nat) : Rests site s t (x.atIp q) vs q := ⟨h.toBetween, h.here.atIp q, h.globals, rfl⟩

omit h in
theorem pop (cfg : Config) (h : Rests site s t x (vs ++ [v]) ip) :
    ∃ y, Machine.pop.run (exec cfg) x = .done v y ∧ Rests site s t y vs ip := by
  obtain ⟨y, hy, hat, hip⟩ := h.here.pop cfg vs
  have hexec : exec cfg .pop x = .done v y := (run_perform _ _ _).symm.trans hy
  exact ⟨y, hy, h.toBetween, hat, State.exec_globals cfg .pop h.globals hexec, hip.trans h.ip⟩

/-- The store to an address. -/
theorem written (cfg : Config) (a : Addr) (v : AerVal) : Assigns site s vs ip (exec cfg (.store a v) x) (t.written a v) := by
  have hstored : x.isStored a = t.isStored a := congrArg Option.isSome (readAddr_of_core h.here.core a)
  simp only [exec, State.store, State.written, hstored]
  split
  · have hcore := writeAddr_of_core h.here.core a v
    have hstill : x.Still (x.writeAddr a v) := .writeAddr x a v
    have hcache : (x.writeAddr a v).chunk.addrCache = x.chunk.addrCache := congrArg Chunk.addrCache hstill.chunk
    refine ⟨_, rfl, h.toBetween.step (.writeAddr t a v) (h.tidy.writeAddr a v), ?_, ?_, hstill.ip.trans h.ip⟩
    · exact h.here.still hcore hstill fun c b _ => State.vmScopeGet_writeAddr a v _
    · exact fun c b hb => h.globals c b (hcache ▸ hb)
  · exact ⟨x, rfl⟩

/-- The definition of a name that has no value. -/
theorem defined (cfg : Config) (hnamed : Named site s) {n : Nat} (hn : t.IsName n) (hnone : t.vmScopeGet n = none)
    (v : AerVal) : Assigns site s vs ip (exec cfg (.scopeDefine n v) x) (t.defined n v) := by
  have hcond : ((x.placeIn n (x.vm.scopeDepth - 1)).all fun p => x.isStored (x.placeAddr p)) =
      (t.placeIn n (t.vm.scopeDepth - 1)).all fun p => t.isStored (t.placeAddr p) := by
    have hsame := congrArg
      (fun s : State => (s.placeIn n (s.vm.scopeDepth - 1)).all fun p => s.isStored (s.placeAddr p)) h.here.core
    exact hsame
  simp only [exec, State.defined, hcond]
  split
  · have hcore : (x.vmScopeDefine n v).core = (t.vmScopeDefine n v).core := by
      rw [State.core_vmScopeDefine, h.here.core, ← State.core_vmScopeDefine]
    have hstill : x.Still (x.vmScopeDefine n v) := .vmScopeDefine x n v
    have hcache : (x.vmScopeDefine n v).chunk.addrCache = x.chunk.addrCache := congrArg Chunk.addrCache hstill.chunk
    have hname {m : Nat} (hm : t.IsName m) : x.IsName m := by
      obtain ⟨cell, hcell, hlive⟩ := hm
      exact ⟨cell, pool_of_core h.here.core ▸ hcell, heap_of_core h.here.core ▸ hlive⟩
    refine ⟨_, rfl, h.toBetween.step (.vmScopeDefine t n v) (h.tidy.vmScopeDefine n v), ?_, ?_, hstill.ip.trans h.ip⟩
    · refine h.here.still hcore hstill fun c a ha => ?_
      have hc : c < s.chunk.addrCache.length := h.here.length ▸ (List.getElem?_eq_some_iff.mp ha).1
      -- The cache of a name that has a value is not the cache of this one.
      have hne : site c ≠ n := by
        rintro rfl
        rw [← vmScopeGet_of_core h.here.core, h.here.caches c a ha] at hnone
        cases hnone
      exact (h.tidy.of_core h.here.core).vmScopeGet_define (hname hn) v (hname (h.isName hnamed hc)) hne
    · exact fun c b hb => h.globals c b (hcache ▸ hb)
  · exact ⟨x, rfl⟩

omit h in
/-- The instruction that stores to a variable. -/
theorem put (h : Rests site s t x (vs ++ [v]) ip) (hnamed : Named site s) {a : Variable}
    (ha : a.operand.Sited site s) (hcode : CodeAt s ip a.storeWords) :
    Assigns site s vs (ip + a.storeWords.length) (instruction.run (exec cfg) x) (a.put v t) := by
  obtain rfl := h.ip
  have hcodex := h.codeAt hcode
  cases a with
  | slot i =>
    have hargs : CodeAt (x.atIp (x.vm.ip + 1)) (x.vm.ip + 1) [(i : Int)] := hcodex.tail
    obtain ⟨z, hz, hrests⟩ := (h.atIp (x.vm.ip + 2)).pop cfg
    have hslot := localSlot_of_core hrests.here.core i
    rw [run_instruction hcodex]
    change Assigns site s vs (x.vm.ip + 2) (lblStoreLocal.run (exec cfg) (x.atIp (x.vm.ip + 1))) _
    unfold lblStoreLocal
    rw [run_arg hargs, run_bind]
    change Assigns site s vs (x.vm.ip + 2) ((Machine.pop.run (exec cfg) (x.atIp (x.vm.ip + 2))).andThen _) _
    rw [hz, Outcome.done_andThen, perform, run_perform]
    simp only [exec, hslot, Variable.put]
    cases t.localSlot i with
    | none => exact ⟨z, rfl⟩
    | some a => exact hrests.written cfg a v
  | name n c =>
    obtain ⟨hsite, hc⟩ := ha
    have hargs : CodeAt (x.atIp (x.vm.ip + 1)) (x.vm.ip + 1) [(n : Int), (c : Int)] := hcodex.tail
    have hargs' : CodeAt (x.atIp (x.vm.ip + 2)) (x.vm.ip + 2) [(c : Int)] := hargs.tail
    obtain ⟨z, hz, hpopped⟩ := (h.atIp (x.vm.ip + 3)).pop cfg
    obtain ⟨w, hw, hatw, hvm⟩ := exec_resolve cfg hpopped.here hsite hc
    have hrests : Rests site s t w vs (x.vm.ip + 3) :=
      ⟨h.toBetween, hatw, State.exec_globals cfg (.resolve n c) hpopped.globals hw,
        (congrArg Vm.ip hvm).trans hpopped.ip⟩
    rw [run_instruction hcodex]
    change Assigns site s vs (x.vm.ip + 3) (lblStore.run (exec cfg) (x.atIp (x.vm.ip + 1))) _
    unfold lblStore
    rw [run_arg hargs]
    change Assigns site s vs (x.vm.ip + 3) (Prog.run _ _ (x.atIp (x.vm.ip + 2))) _
    rw [run_arg hargs', run_bind]
    change Assigns site s vs (x.vm.ip + 3) ((Machine.pop.run (exec cfg) (x.atIp (x.vm.ip + 3))).andThen _) _
    rw [hz, Outcome.done_andThen, run_bind, perform, run_perform, hw, Outcome.done_andThen, Variable.put]
    cases hget : t.vmScopeGet n with
    | some a =>
      change Assigns site s vs (x.vm.ip + 3) ((perform (.store a v)).run (exec cfg) w) (t.written a v)
      rw [perform, run_perform]
      exact hrests.written cfg a v
    | none =>
      change Assigns site s vs (x.vm.ip + 3) ((perform (.scopeDefine n v)).run (exec cfg) w) (t.defined n v)
      rw [perform, run_perform]
      exact hrests.defined cfg hnamed (hsite ▸ h.isName hnamed hc) hget v

/-- The opening of a scope. -/
theorem opened : Moves site s vs ip (exec cfg .pushScope x) t.pushScope := by
  have hdepth : x.vm.scopeDepth = t.vm.scopeDepth := depth_of_core h.here.core
  simp only [exec, State.pushScope_eq, hdepth]
  split
  · next hroom =>
    have hpush : x.pushScope = .done () x.opened := by rw [State.pushScope_eq, hdepth, if_pos hroom]
    have hcore : x.opened.core = t.opened.core := by rw [State.core_opened, h.here.core, ← State.core_opened]
    refine ⟨_, rfl, h.toBetween.step (.opened t) (h.tidy.pushScope ?_), ?_, h.globals, h.ip⟩
    · rw [State.pushScope_eq, if_pos hroom]
    · exact h.here.still hcore (.opened x) fun c _ _ =>
        State.vmScopeGet_pushScope (h.tidy.of_core h.here.core).depth hpush (site c)
  · exact ⟨_, rfl, addError_of_core h.here.core _⟩

/-- The end of a scope. -/
theorem closed : Moves site s vs ip (exec cfg .popScope x) t.popScope := by
  have hdepth : x.vm.scopeDepth = t.vm.scopeDepth := depth_of_core h.here.core
  simp only [exec, State.popScope, hdepth]
  split
  · exact ⟨_, rfl, addError_of_core h.here.core _⟩
  · next hroom =>
    have hcore : x.popOneScope.core = t.popOneScope.core := by
      rw [State.core_popOneScope, h.here.core, ← State.core_popOneScope]
    have hstill : x.Still x.popOneScope := .popOneScope x
    have hcache : x.popOneScope.chunk.addrCache = x.chunk.addrCache := congrArg Chunk.addrCache hstill.chunk
    refine ⟨_, rfl, h.toBetween.step (.popOneScope t) (h.tidy.popOneScope (by omega)), ?_, ?_, hstill.ip.trans h.ip⟩
    · refine h.here.still hcore hstill fun c a ha => ?_
      obtain ⟨j, rfl⟩ := h.globals c a ha
      rw [h.here.caches c _ ha]
      exact State.vmScopeGet_popOneScope (by omega) (h.here.caches c _ ha)
    · exact fun c b hb => h.globals c b (hcache ▸ hb)

theorem pushScope (hcode : CodeAt s ip (instructionWords .pushScope [])) :
    Moves site s vs (ip + 1) (instruction.run (exec cfg) x) t.pushScope := by
  rw [run_instruction (h.codeAt hcode), h.ip]
  change Moves site s vs (ip + 1) ((perform .pushScope).run (exec cfg) _) _
  rw [perform, run_perform]
  exact (h.atIp (ip + 1)).opened

theorem popScope (hcode : CodeAt s ip (instructionWords .popScope [])) :
    Moves site s vs (ip + 1) (instruction.run (exec cfg) x) t.popScope := by
  rw [run_instruction (h.codeAt hcode), h.ip]
  change Moves site s vs (ip + 1) ((perform .popScope).run (exec cfg) _) _
  rw [perform, run_perform]
  exact (h.atIp (ip + 1)).closed

omit h in
/-- A branch on the value on top. -/
theorem branch (cfg : Config) {w : AerVal} {target : Nat} (h : Rests site s t x (vs ++ [w]) ip)
    (hcode : CodeAt s ip (instructionWords .jumpIfFalse [target])) :
    (∀ holds u, (vmTruthy w).run (exec cfg) t = .done holds u →
      ∃ y, Proceeds cfg 1 x y ∧ Rests site s t y vs (if holds = false then target else ip + 2)) ∧
    ∀ v u, (vmTruthy w).run (exec cfg) t = .stop v u → ∃ y, (instructions 1).run (exec cfg) x = .stop .fault y := by
  have hcode : CodeAt t ip (instructionWords .jumpIfFalse [target]) :=
    hcode.of_code (congrArg Chunk.code h.base.chunk)
  have hop : handler .jumpIfFalse = lblJumpIf false := rfl
  obtain ⟨hdone, hstop⟩ := Poised.decided cfg h.tidy.names hop h.poised hcode
  refine ⟨fun holds u hu => ?_, hstop⟩
  obtain ⟨y, hy, hpoised⟩ := hdone holds u hu
  exact ⟨y, hy, h.of_poised hy hpoised⟩

end Rests

end Steps

/-! Runs. -/

/-- The run that is to leave `k` scopes and then to go to an address. -/
def Leaves (cfg : Config) (site : Nat → Nat) (s : State) (vs : List AerVal) (target : Nat) (x : State) :
    Nat → State → Prop
  | 0, t => ∃ n y, Proceeds cfg n x y ∧ Rests site s t y vs target
  | k + 1, t =>
      match t.popScope with
      | .done _ u => Leaves cfg site s vs target x k u
      | .stop _ u => ∃ n y, (instructions n).run (exec cfg) x = .stop .failed y ∧ y.core = u.core

/-- The run that is to come to an end of a block, in `k` scopes inside a loop, whose code ends at `ip`;
one that does not end has taken `turns` instructions without an error. -/
def Runs (cfg : Config) (site : Nat → Nat) (s : State) (vs : List AerVal) (l : Option Loop) (k turns ip : Nat)
    (x : State) : Ended → Prop
  | .fault => ∃ n y, (instructions n).run (exec cfg) x = .stop .fault y
  | .failed t => ∃ n y, (instructions n).run (exec cfg) x = .stop .failed y ∧ y.core = t.core
  | .error t => t.runtimeHadError = true ∧
      ∃ n y, (instructions n).run (exec cfg) x = .done () y ∧ y.core = t.core
  | .next t => ∃ n y, Proceeds cfg n x y ∧ Rests site s t y vs ip
  | .leave t => ∃ lp, l = some lp ∧ Leaves cfg site s vs lp.exit x k t
  | .again t => ∃ lp, l = some lp ∧ Leaves cfg site s vs lp.top x k t
  | .unfinished => ∃ n y, turns ≤ n ∧ Proceeds cfg n x y

section Runs
variable {cfg : Config} {site : Nat → Nat} {s t u x y : State} {vs : List AerVal} {l : Option Loop}
  {k m n turns ip mid : Nat} {r : Ended}

theorem Leaves.after {target : Nat} (hy : Proceeds cfg m x y) (h : Leaves cfg site s vs target y k t) :
    Leaves cfg site s vs target x k t := by
  induction k generalizing t with
  | zero =>
    obtain ⟨n, z, hz, hrests⟩ := h
    exact ⟨m + n, z, hy.trans hz, hrests⟩
  | succ k ih =>
    unfold Leaves at h ⊢
    cases hpop : t.popScope with
    | done _ u =>
      rw [hpop] at h
      exact ih h
    | stop w u =>
      rw [hpop] at h
      obtain ⟨n, z, hz, hcore⟩ := h
      exact ⟨m + n, z, (hy.run n).trans hz, hcore⟩

namespace Runs

theorem after (hy : Proceeds cfg m x y) (hle : turns ≤ m + n) (h : Runs cfg site s vs l k n ip y r) :
    Runs cfg site s vs l k turns ip x r := by
  cases r with
  | fault =>
    obtain ⟨i, z, hz⟩ := h
    exact ⟨m + i, z, (hy.run i).trans hz⟩
  | failed t =>
    obtain ⟨i, z, hz, hcore⟩ := h
    exact ⟨m + i, z, (hy.run i).trans hz, hcore⟩
  | error t =>
    obtain ⟨ht, i, z, hz, hcore⟩ := h
    exact ⟨ht, m + i, z, (hy.run i).trans hz, hcore⟩
  | next t =>
    obtain ⟨i, z, hz, hrests⟩ := h
    exact ⟨m + i, z, hy.trans hz, hrests⟩
  | leave t =>
    obtain ⟨lp, hl, hleaves⟩ := h
    exact ⟨lp, hl, hleaves.after hy⟩
  | again t =>
    obtain ⟨lp, hl, hleaves⟩ := h
    exact ⟨lp, hl, hleaves.after hy⟩
  | unfinished =>
    obtain ⟨i, z, hi, hz⟩ := h
    exact ⟨m + i, z, by omega, hy.trans hz⟩

/-- Go on behind the statement. -/
theorem andThen (h : Runs cfg site s vs l k turns mid x r) {f : State → Ended}
    (hf : ∀ t y, Rests site s t y vs mid → Runs cfg site s vs l k turns ip y (f t)) :
    Runs cfg site s vs l k turns ip x (r.andThen f) := by
  cases r with
  | next t =>
    obtain ⟨m, y, hy, hrests⟩ := h
    exact (hf t y hrests).after hy (Nat.le_add_left turns m)
  | _ => exact h

theorem mono (hle : turns ≤ n) (h : Runs cfg site s vs l k n ip x r) : Runs cfg site s vs l k turns ip x r := by
  cases r with
  | unfinished =>
    obtain ⟨i, y, hi, hy⟩ := h
    exact ⟨i, y, hle.trans hi, hy⟩
  | _ => exact h

/-- A jump behind the statement. -/
theorem jump (h : Runs cfg site s vs l k turns mid x r) (hcode : CodeAt s mid (instructionWords .jump [ip])) :
    Runs cfg site s vs l k turns ip x r := by
  cases r with
  | next t =>
    obtain ⟨i, y, hy, hrests⟩ := h
    obtain ⟨z, hz, hrests⟩ : ∃ z, Proceeds cfg 1 y z ∧ Rests site s t z vs ip := hrests.jump hcode
    exact ⟨i + 1, z, hy.trans hz, hrests⟩
  | _ => exact h

/-- A scope is left. -/
theorem popScope (h : Runs cfg site s vs l (k + 1) turns mid x r)
    (hcode : CodeAt s mid (instructionWords .popScope [])) :
    Runs cfg site s vs l k turns (mid + 1) x r.popScope := by
  cases r with
  | next t =>
    obtain ⟨m, y, hy, hrests⟩ := h
    have hmoves : Moves site s vs (mid + 1) (instruction.run (exec cfg) y) t.popScope := hrests.popScope hcode
    simp only [Ended.popScope]
    cases hpop : t.popScope with
    | done _ u =>
      rw [hpop] at hmoves
      obtain ⟨z, hz, hrests⟩ := hmoves
      exact ⟨m + 1, z, hy.trans (.one hz hrests.hadError), hrests⟩
    | stop w u =>
      rw [hpop] at hmoves
      obtain ⟨z, hz, hcore⟩ := hmoves
      exact ⟨m + 1, z, (hy.run 1).trans ((run_lastInstruction cfg y).trans hz), hcore⟩
  | leave t =>
    obtain ⟨lp, hl, hleaves⟩ := h
    unfold Leaves at hleaves
    simp only [Ended.popScope]
    cases hpop : t.popScope with
    | done _ u =>
      rw [hpop] at hleaves
      exact ⟨lp, hl, hleaves⟩
    | stop w u =>
      rw [hpop] at hleaves
      exact hleaves
  | again t =>
    obtain ⟨lp, hl, hleaves⟩ := h
    unfold Leaves at hleaves
    simp only [Ended.popScope]
    cases hpop : t.popScope with
    | done _ u =>
      rw [hpop] at hleaves
      exact ⟨lp, hl, hleaves⟩
    | stop w u =>
      rw [hpop] at hleaves
      exact hleaves
  | _ => exact h

end Runs

namespace Rests
variable {ws : List Int}

/-- A block in a scope of its own. -/
theorem inScope (h : Rests site s t x vs ip) (hcode : CodeAt s ip (scopedCode ws)) {block : State → Ended}
    (hbody : ∀ u y, Rests site s u y vs (ip + 1) →
      Runs cfg site s vs l (k + 1) turns (ip + 1 + ws.length) y (block u)) :
    Runs cfg site s vs l k turns (ip + ws.length + 2) x (.inScope block t) := by
  have hmoves : Moves site s vs (ip + 1) (instruction.run (exec cfg) x) t.pushScope := h.pushScope hcode.left
  have hbehind : CodeAt s (ip + 1 + ws.length) (instructionWords .popScope []) := hcode.right.right
  rw [show ip + ws.length + 2 = ip + 1 + ws.length + 1 by omega]
  refine Runs.popScope ?_ hbehind
  cases hpush : t.pushScope with
  | done _ u =>
    rw [hpush] at hmoves
    obtain ⟨y, hy, hrests⟩ := hmoves
    exact (hbody u y hrests).after (.one hy hrests.hadError) (Nat.le_add_left turns 1)
  | stop w u =>
    rw [hpush] at hmoves
    obtain ⟨y, hy, hcore⟩ := hmoves
    exact ⟨1, y, (run_lastInstruction cfg x).trans hy, hcore⟩

/-- The jump out of `k` scopes. -/
theorem leaves {target : Nat} (h : Rests site s t x vs ip) (hcode : CodeAt s ip (leaveCode k target)) :
    Leaves cfg site s vs target x k t := by
  induction k generalizing t x ip with
  | zero =>
    obtain ⟨y, hy, hrests⟩ := h.jump hcode
    exact ⟨1, y, hy, hrests⟩
  | succ k ih =>
    have hcode : CodeAt s ip (instructionWords .popScope [] ++ leaveCode k target) := hcode
    have hmoves : Moves site s vs (ip + 1) (instruction.run (exec cfg) x) t.popScope := h.popScope hcode.left
    unfold Leaves
    cases hpop : t.popScope with
    | done _ u =>
      rw [hpop] at hmoves
      obtain ⟨y, hy, hrests⟩ := hmoves
      exact (ih hrests hcode.right).after (.one hy hrests.hadError)
    | stop w u =>
      rw [hpop] at hmoves
      obtain ⟨y, hy, hcore⟩ := hmoves
      exact ⟨1, y, (run_lastInstruction cfg x).trans hy, hcore⟩

section Evaluation
variable {e : Expr Fetch} (he : Coded s.chunk.pool e ip ws) (h : Rests site s t x vs ip)
  (hcode : CodeAt s ip ws) (hsited : ∀ a ∈ e.operands, a.Sited site s)
  (hroom : s.vm.stackTop + vs.length + e.depth ≤ vmStackMax)
include he h hcode hsited hroom

/-- The value of an expression. -/
theorem evaluates {f : AerVal → State → Ended}
    (hf : ∀ v u y, Rests site s u y (vs ++ [v]) (ip + ws.length) → Runs cfg site s vs l k turns mid y (f v u)) :
    Runs cfg site s vs l k turns mid x ((e.eval cfg Fetch.got t).andThen f) := by
  have hcode : CodeAt t ip ws := hcode.of_code (congrArg Chunk.code h.base.chunk)
  have hrun : Computes cfg site t x vs (ip + ws.length) (e.eval cfg Fetch.got t) :=
    run_coded h.tidy.names (h.base.chunk ▸ he) h.poised hcode (fun a ha => h.base.sited (hsited a ha))
      (h.base.stackTop ▸ hroom)
  cases hvalue : e.eval cfg Fetch.got t with
  | fault =>
    rw [hvalue] at hrun
    exact hrun
  | error u =>
    rw [hvalue] at hrun
    exact hrun
  | value v u =>
    rw [hvalue] at hrun
    obtain ⟨m, y, hy, hpoised⟩ := hrun
    exact (hf v u y (h.of_poised hy hpoised)).after hy (Nat.le_add_left turns m)

/-- The truth of a condition, which takes an instruction to find out. -/
theorem tests {target : Nat} (hbranch : CodeAt s (ip + ws.length) (instructionWords .jumpIfFalse [target]))
    {f : Bool → State → Ended}
    (hf : ∀ holds u y, Rests site s u y vs (if holds = false then target else ip + ws.length + 2) →
      Runs cfg site s vs l k turns mid y (f holds u)) :
    Runs cfg site s vs l k (turns + 1) mid x ((e.eval cfg Fetch.got t).test cfg f) := by
  refine evaluates he h hcode hsited hroom fun v u y hrests => ?_
  obtain ⟨hdone, hstop⟩ := branch cfg hrests hbranch
  cases hrun : (vmTruthy v).run (exec cfg) u with
  | done holds w =>
    obtain ⟨z, hz, hrests⟩ := hdone holds w hrun
    exact (hf holds u z hrests).after hz (by omega)
  | stop w z =>
    obtain ⟨z, hz⟩ := hstop w z hrun
    exact ⟨1, z, hz⟩

end Evaluation

end Rests

/-- A loop that may take `turns` turns. -/
theorem run_turns {test : State → (Bool → State → Ended) → Ended} {body : State → Ended} {lp : Loop}
    {start stop : Nat} (hjump : CodeAt s stop (instructionWords .jump [lp.top]))
    (htest : ∀ turns t x f, Rests site s t x vs lp.top →
      (∀ holds u y, Rests site s u y vs (if holds = false then lp.exit else start) →
        Runs cfg site s vs l k turns lp.exit y (f holds u)) →
      Runs cfg site s vs l k (turns + 1) lp.exit x (test t f))
    (hbody : ∀ t x, Rests site s t x vs start → Runs cfg site s vs (some lp) 0 n stop x (body t))
    (hle : turns ≤ n) (h : Rests site s t x vs lp.top) :
    Runs cfg site s vs l k turns lp.exit x (.turns test body turns t) := by
  induction turns generalizing t x with
  | zero => exact ⟨0, x, le_rfl, rfl, h.hadError⟩
  | succ turns ih =>
    refine htest turns t x _ h fun holds u y hrests => ?_
    cases holds with
    | false => exact ⟨0, y, ⟨rfl, hrests.hadError⟩, hrests⟩
    | true =>
      have hruns := hbody u y hrests
      rw [if_pos rfl]
      generalize body u = r at hruns
      cases r with
      | next v =>
        obtain ⟨i, z, hz, hrests⟩ := hruns
        obtain ⟨w, hw, hrests⟩ : ∃ w, Proceeds cfg 1 z w ∧ Rests site s v w vs lp.top := hrests.jump hjump
        exact (ih (by omega) hrests).after (hz.trans hw) (by omega)
      | again v =>
        obtain ⟨_, ⟨⟩, i, z, hz, hrests⟩ := hruns
        exact (ih (by omega) hrests).after hz (by omega)
      | leave v =>
        obtain ⟨_, ⟨⟩, i, z, hz, hrests⟩ := hruns
        exact ⟨i, z, hz, hrests⟩
      | unfinished =>
        obtain ⟨i, z, hi, hz⟩ := hruns
        exact ⟨i, z, by omega, hz⟩
      | _ => exact hruns

/-- The sides of a conditional. -/
theorem run_sides {yes no : State → Ended} {wy wn : List Int} {holds : Bool}
    (hcode : CodeAt s ip (twoSided ip (scopedCode wy) (scopedCode wn)))
    (h : Rests site s t x vs (if holds = false then ip + (scopedCode wy).length + 4 else ip + 2))
    (hyes : ∀ u y, Rests site s u y vs (ip + 3) → Runs cfg site s vs l (k + 1) n (ip + 3 + wy.length) y (yes u))
    (hno : ∀ u y, Rests site s u y vs (ip + wy.length + 7) →
      Runs cfg site s vs l (k + 1) n (ip + wy.length + 7 + wn.length) y (no u)) :
    Runs cfg site s vs l k n (ip + wy.length + wn.length + 8) x
      (if holds then .inScope yes t else .inScope no t) := by
  have hstop : ip + (scopedCode wy).length + 4 + (scopedCode wn).length = ip + wy.length + wn.length + 8 := by
    simp
    omega
  cases holds with
  | true =>
    have hfrom : ip + 2 + (scopedCode wy).length = ip + 2 + wy.length + 2 := by
      rw [length_scopedCode]
      rfl
    have hskip := hcode.right.right.left
    rw [hstop] at hskip
    have h : Rests site s t x vs (ip + 2) := h
    exact (h.inScope hcode.right.left hyes).jump (hfrom ▸ hskip)
  | false =>
    have hfrom : ip + 2 + (scopedCode wy).length + 2 = ip + wy.length + 6 := by
      simp
      omega
    have hat : ip + (scopedCode wy).length + 4 = ip + wy.length + 6 := by
      simp
      omega
    have hcode := hcode.right.right.right
    rw [if_pos rfl, hat] at h
    rw [← hstop, hat, length_scopedCode, ← Nat.add_assoc]
    exact h.inScope (hfrom ▸ hcode) hno

/-- The side of a conditional without `else`. -/
theorem run_side {yes : State → Ended} {wy : List Int} {holds : Bool}
    (hcode : CodeAt s ip (oneSided ip (scopedCode wy)))
    (h : Rests site s t x vs (if holds = false then ip + (scopedCode wy).length + 2 else ip + 2))
    (hyes : ∀ u y, Rests site s u y vs (ip + 3) → Runs cfg site s vs l (k + 1) n (ip + 3 + wy.length) y (yes u)) :
    Runs cfg site s vs l k n (ip + wy.length + 4) x (if holds then .inScope yes t else .next t) := by
  have hstop : ip + 2 + wy.length + 2 = ip + wy.length + 4 := by omega
  cases holds with
  | true =>
    rw [← hstop]
    exact Rests.inScope h hcode.right hyes
  | false =>
    have hat : ip + (scopedCode wy).length + 2 = ip + wy.length + 4 := by
      rw [length_scopedCode]
      rfl
    rw [if_pos rfl, hat] at h
    exact ⟨0, x, ⟨rfl, h.hadError⟩, h⟩

end Runs

section Sample

def flowProgram : String :=
  "x = true\nfor x:\n    if x:\n        x = false\n        continue\n    break\n"

/-- The tree of the program, with the constants `true` and `false` behind the name in the pool. -/
def flowBlock : Block Fetch Variable :=
  .assign (.name 0 0) (.operand (.const 1)) (.loop (.operand (.var (.name 0 1)))
    (.when (.operand (.var (.name 0 2)))
      (.assign (.name 0 3) (.operand (.const 2)) (.again .done)) (.leave .done)) .done)

/-- The code of the loop's body. -/
def flowBody : List Int :=
  (Fetch.var (.name 0 2)).words ++ (oneSided 13 (scopedCode ((Fetch.const 2).words ++
    (Variable.name 0 3).storeWords ++ leaveCode 1 5)) ++ leaveCode 0 29)

/-- The code of the program. -/
def flowCode : List Int :=
  (Fetch.const 1).words ++ (Variable.name 0 0).storeWords ++
    ((Fetch.var (.name 0 1)).words ++ turnCode 5 8 flowBody) ++ [Opcode.halt.word]

/-- A machine with the program's code, about to run it. -/
def beforeFlow : State :=
  let (name, heap) := Heap.init.aerMakeString (bytes "x")
  { State.init with
    heap
    chunk := { Chunk.init with
      code := flowCode
      pool := [name, .boolean true, .boolean false]
      addrCache := List.replicate 4 none } }

theorem namesLive_beforeFlow : NamesLive beforeFlow := by
  have hpools : Heap.init.PoolsWf := Heap.poolsWf_init
  have hallocated := Heap.allocated_aerMakeString hpools (bytes "x")
  refine ⟨hallocated.wf hpools, fun c hc => ?_⟩
  rcases List.mem_cons.mp hc with hc | hc
  · exact (hallocated.live (.string c)).mpr (.inl (congrArg Cell.string (AerVal.string.inj hc)))
  · simp at hc

theorem isName_beforeFlow {n : Nat} (h : beforeFlow.IsName n) : n = 0 := by
  obtain ⟨c, hc, -⟩ := h
  match n, hc with
  | 0, _ => rfl
  | 1, hc => cases hc
  | 2, hc => cases hc
  | n + 3, hc => cases hc

/-- Its caches are empty. -/
theorem addrCache_beforeFlow {c : Nat} {a : Addr} : beforeFlow.chunk.addrCache[c]? ≠ some (some a) := by
  intro h
  have hmem : some a ∈ List.replicate 4 none := List.mem_of_getElem? h
  cases List.eq_of_mem_replicate hmem

theorem rests_beforeFlow : Rests (fun _ => 0) beforeFlow beforeFlow beforeFlow [] 0 where
  base := .refl _
  tidy := {
    names := namesLive_beforeFlow
    interned := fun m n hm hn _ => (isName_beforeFlow hm).trans (isName_beforeFlow hn).symm
    depth := by decide
    tables := fun i hi => .empty
    overflow := fun i hi _ => rfl }
  clear := rfl
  here := ⟨rfl, ⟨rfl, fun _ _ => rfl, fun i hi => nomatch hi⟩,
    fun c a h => absurd h addrCache_beforeFlow, rfl⟩
  globals c a h := absurd h addrCache_beforeFlow
  ip := rfl

theorem blockCoded_flowBlock : ∃ ws, BlockCoded beforeFlow.chunk.pool none 0 flowBlock 0 ws [] ∧
    beforeFlow.chunk.code = ws ++ [Opcode.halt.word] ∧ ws.length = 29 := by
  have hbody : BlockCoded beforeFlow.chunk.pool (some ⟨5, 5 + 3 + flowBody.length + 4⟩) 0
      (.when (.operand (.var (.name 0 2))) (.assign (.name 0 3) (.operand (.const 2)) (.again .done))
        (.leave .done)) 10 flowBody _ :=
    .when (.operand _ _) (.assign _ (.operand _ _) (.again (.done _ _ _))) (.leave (.done _ _ _))
  -- The exit in the body's code is behind that code, so the code is given.
  have hloop := @BlockCoded.loop _ none 0 5 _ _ _ _ flowBody [] _ _ (.operand (.var (.name 0 1)) _) hbody
    (.done _ _ _)
  exact ⟨_, .assign _ (.operand _ _) hloop, rfl, rfl⟩

theorem sited_flowBlock : (∀ a ∈ flowBlock.operands, a.Sited (fun _ => 0) beforeFlow) ∧
    ∀ a ∈ flowBlock.targets, a.operand.Sited (fun _ => 0) beforeFlow := by
  have hcache {c : Nat} (hc : c < 4) : c < beforeFlow.chunk.addrCache.length := hc
  constructor
  · intro a ha
    change a ∈ [Fetch.const 1, .var (.name 0 1), .var (.name 0 2), .const 2] at ha
    simp only [List.mem_cons, List.not_mem_nil, or_false] at ha
    rcases ha with rfl | rfl | rfl | rfl
    exacts [trivial, ⟨rfl, hcache (by decide)⟩, ⟨rfl, hcache (by decide)⟩, trivial]
  · intro a ha
    change a ∈ [Variable.name 0 0, .name 0 3] at ha
    simp only [List.mem_cons, List.not_mem_nil, or_false] at ha
    rcases ha with rfl | rfl
    exacts [⟨rfl, hcache (by decide)⟩, ⟨rfl, hcache (by decide)⟩]

end Sample

end Aer.Machine
