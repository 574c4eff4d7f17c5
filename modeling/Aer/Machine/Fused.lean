import Aer.Machine.Calls
import Aer.Machine.ValueOps
import Aer.Memory.Growth

set_option linter.all false

/-! The fused instructions against the sequences they replace. -/
namespace Aer.Machine

open Aer.Data Aer.Memory Aer.Lib.Interaction

/-! Code. -/

/-- A variable: a parameter slot, or a name with the address cache of its site. -/
inductive Variable
  | slot (slot : Nat)
  | name (nameIdx cacheIdx : Nat)
  deriving DecidableEq

def Variable.operand : Variable → Operand
  | slot i => .slot i
  | name n c => .name n c

/-- The same variable at another site. -/
def Variable.atSite (cache : Nat) : Variable → Variable
  | slot i => .slot i
  | name n _ => .name n cache

def Operand.atSite (cache : Nat) : Operand → Operand
  | const i => .const i
  | slot i => .slot i
  | name n _ => .name n cache

/-- The operand's words in a fused instruction. -/
def Operand.words : Operand → List Nat
  | const i => [i]
  | slot i => [i]
  | name n c => [n, c]

/-- The instruction that pushes the operand. -/
def Operand.load : Operand → Opcode
  | const _ => .push
  | slot _ => .loadLocal
  | name _ _ => .load

/-- The instruction that pops a value to the variable. -/
def Variable.store : Variable → Opcode
  | slot _ => .storeLocal
  | name _ _ => .store

def Opcode.isBinary : Opcode → Bool
  | .add | .sub | .mul | .div | .mod | .floorDiv | .eq | .neq | .lt | .gt | .lte | .gte | .isIn
  | .and | .or | .bitwiseAnd | .bitwiseOr | .bitwiseXor | .lshift | .rshift => true
  | _ => false

def compoundOpcode : Variable → Operand → Opcode
  | .name _ _, .const _ => .compoundNameConst
  | .name _ _, .name _ _ => .compoundNameName
  | .name _ _, .slot _ => .compoundNameLocal
  | .slot _, .const _ => .compoundLocalConst
  | .slot _, .slot _ => .compoundLocalLocal
  | .slot _, .name _ _ => .compoundLocalName

def indexGetOpcode : Variable → Operand → Opcode
  | .slot _, .const _ => .indexGetLocalConst
  | .slot _, .slot _ => .indexGetLocalLocal
  | .slot _, .name _ _ => .indexGetLocalName
  | .name _ _, .const _ => .indexGetNameConst
  | .name _ _, .slot _ => .indexGetNameLocal
  | .name _ _, .name _ _ => .indexGetNameName

def instructionWords (op : Opcode) (args : List Nat) : List Int := op.word :: args.map Int.ofNat

/-- A fused instruction. -/
inductive Fused
  | compound (target : Variable) (op : Opcode) (rhs : Operand)
  | indexGet (obj : Variable) (idx : Operand)

namespace Fused

def words : Fused → List Int
  | compound t op rhs =>
      instructionWords (compoundOpcode t rhs) t.operand.words ++ op.word :: rhs.words.map Int.ofNat
  | indexGet obj idx => instructionWords (indexGetOpcode obj idx) (obj.operand.words ++ idx.words)

/-- The instructions it replaces, with the address caches of their own sites. -/
def plain (c₁ c₂ c₃ : Nat) : Fused → List (Opcode × List Nat)
  | compound t op rhs =>
      [((t.atSite c₁).operand.load, (t.atSite c₁).operand.words),
        ((rhs.atSite c₂).load, (rhs.atSite c₂).words),
        (op, []),
        ((t.atSite c₃).store, (t.atSite c₃).operand.words)]
  | indexGet obj idx =>
      [((obj.atSite c₁).operand.load, (obj.atSite c₁).operand.words),
        ((idx.atSite c₂).load, (idx.atSite c₂).words),
        (.indexGet, [])]

def plainWords (c₁ c₂ c₃ : Nat) (f : Fused) : List Int :=
  (f.plain c₁ c₂ c₃).flatMap fun i => instructionWords i.1 i.2

def op : Fused → Opcode
  | compound _ op _ => op
  | indexGet _ _ => .add

/-- The operands of the instruction and of those it replaces. -/
def operands (c₁ c₂ c₃ : Nat) : Fused → List Operand
  | compound t _ rhs =>
      [t.operand, rhs, (t.atSite c₁).operand, rhs.atSite c₂, (t.atSite c₃).operand]
  | indexGet obj idx => [obj.operand, idx, (obj.atSite c₁).operand, idx.atSite c₂]

end Fused

/-- `n` instructions, with the check of the error flag that `DISPATCH` makes between them. -/
def instructions : Nat → Handler Unit
  | 0 => return
  | n + 1 => do
      instruction
      if ← perform .hadError then return
      instructions n

def CodeAt (s : State) (ip : Nat) (ws : List Int) : Prop := ws <+: s.chunk.code.drop ip

/-! States. -/

/-- A state without its instruction pointer, its value stack, its address caches and the
lines of its error reports. -/
def State.core (s : State) : State :=
  { s with
    vm := { s.vm with ip := 0, stack := fun _ => .null, stackTop := 0 }
    chunk := { s.chunk with addrCache := [] }
    errors := s.errors.map fun e => (0, e.2) }

/-- The address caches hold what `vm_scope_get` finds; `site` tells whose a cache is. -/
def CachesAgree (site : Nat → Nat) (s : State) : Prop :=
  ∀ c a, s.chunk.addrCache[c]? = some (some a) → s.vmScopeGet (site c) = some a

/-- A name's cache is a cache of that name. -/
def Operand.Sited (site : Nat → Nat) (s : State) : Operand → Prop
  | const _ | slot _ => True
  | name n c => site c = n ∧ c < s.chunk.addrCache.length

/-- The value stack is that of `s` with values on top. -/
structure StackIs (s x : State) (vs : List AerVal) : Prop where
  top : x.vm.stackTop = s.vm.stackTop + vs.length
  below : ∀ i < s.vm.stackTop, x.vm.stack i = s.vm.stack i
  above : ∀ i (hi : i < vs.length), x.vm.stack (s.vm.stackTop + i) = vs[i]

/-- A state that differs from `t` in what `core` leaves out, with the value stack of `s` and
values on top of it. -/
structure At (site : Nat → Nat) (s t x : State) (vs : List AerVal) : Prop where
  core : x.core = t.core
  stack : StackIs s x vs
  caches : CachesAgree site x
  length : x.chunk.addrCache.length = s.chunk.addrCache.length

section Core
variable {x t : State} (h : x.core = t.core)
include h

theorem heap_of_core : x.heap = t.heap := congrArg (fun s => s.heap) h

theorem code_of_core : x.chunk.code = t.chunk.code := congrArg (fun s => s.chunk.code) h

theorem pool_of_core : x.chunk.pool = t.chunk.pool := congrArg (fun s => s.chunk.pool) h

theorem hadError_of_core : x.runtimeHadError = t.runtimeHadError :=
  congrArg (fun s => s.runtimeHadError) h

theorem vmScopeGet_of_core (name : Nat) : x.vmScopeGet name = t.vmScopeGet name :=
  congrArg (fun s => s.vmScopeGet name) h

theorem readAddr_of_core (a : Addr) : x.readAddr a = t.readAddr a :=
  congrArg (fun s => s.readAddr a) h

theorem localSlot_of_core (i : Nat) : x.localSlot i = t.localSlot i :=
  congrArg (fun s => s.localSlot i) h

theorem writeAddr_of_core (a : Addr) (v : AerVal) : (x.writeAddr a v).core = (t.writeAddr a v).core := by
  have hx : ∀ s : State, (s.writeAddr a v).core = s.core.writeAddr a v := by
    intro s
    cases a <;> rfl
  rw [hx, hx, h]

theorem addError_of_core (msg : Bytes) : (x.addError msg).core = (t.addError msg).core := by
  have hx : ∀ s : State, (s.addError msg).core =
      { s.core with runtimeHadError := true, errors := (0, msg) :: s.core.errors } := fun _ => rfl
  rw [hx, hx, h]

end Core

namespace StackIs
variable {s x : State} {vs : List AerVal}

theorem push (h : StackIs s x vs) (hroom : s.vm.stackTop + vs.length < vmStackMax) (v : AerVal) :
    ∃ y, x.push v = .done () y ∧ y.core = x.core ∧ y.vm.ip = x.vm.ip ∧ y.chunk = x.chunk ∧
      StackIs s y (vs ++ [v]) := by
  refine ⟨_, if_pos (h.top ▸ hroom), rfl, rfl, rfl, ?_, ?_, ?_⟩
  · simp [h.top, Nat.add_assoc]
  · intro i hi
    have hne : i ≠ x.vm.stackTop := by
      rw [h.top]
      omega
    exact (Function.update_of_ne hne _ _).trans (h.below i hi)
  · intro i hi
    rw [List.length_append, List.length_singleton] at hi
    by_cases hlast : i = vs.length
    · subst hlast
      simp [Vm.setStack, h.top]
    · have hlt : i < vs.length := by omega
      have hne : s.vm.stackTop + i ≠ x.vm.stackTop := by
        rw [h.top]
        omega
      refine (Function.update_of_ne hne _ _).trans ?_
      rw [h.above i hlt, List.getElem_append_left hlt]

theorem pop {v : AerVal} (h : StackIs s x (vs ++ [v])) :
    ∃ y, x.pop = .done v y ∧ y.core = x.core ∧ y.vm.ip = x.vm.ip ∧ y.chunk = x.chunk ∧
      StackIs s y vs := by
  have htop : x.vm.stackTop = s.vm.stackTop + vs.length + 1 := by
    rw [h.top, List.length_append, List.length_singleton, Nat.add_assoc]
  have hv : x.vm.stack (x.vm.stackTop - 1) = v := by
    have := h.above vs.length (by simp)
    rw [htop, Nat.add_sub_cancel, this]
    simp
  refine ⟨{ x with vm := { x.vm with stackTop := x.vm.stackTop - 1 } }, ?_, rfl, rfl, rfl, ?_, h.below, ?_⟩
  · unfold State.pop
    rw [if_neg (by omega), hv]
  · simp [htop]
  · intro i hi
    rw [h.above i (by simp; omega), List.getElem_append_left hi]

end StackIs

/-! Operands. -/

/-- What an operand is: a value, or a name that has none. -/
inductive Got
  | value (v : AerVal)
  | undefined (msg : Bytes)
  | fault

def Got.ofOption : Option AerVal → Got
  | some v => .value v
  | none => .fault

/-- The text of a name that is a string constant in use. -/
def State.nameOf (s : State) (n : Nat) : Option Bytes :=
  match s.chunk.pool[n]? with
  | some (.string c) => (s.stringData c).map cString
  | _ => none

theorem exec_nameOf (cfg : Config) (s : State) (n : Nat) :
    exec cfg (.nameText n) s = orFault (s.nameOf n) s := by
  simp only [exec, State.nameOf]
  cases s.chunk.pool[n]? with
  | none => rfl
  | some v => cases v <;> rfl

/-- The value an operand denotes; a fault where the C code reads outside its data. -/
def Operand.got (s : State) : Operand → Got
  | const i => .ofOption s.chunk.pool[i]?
  | slot i => .ofOption ((s.localSlot i).bind s.readAddr)
  | name n _ =>
      match s.vmScopeGet n with
      | some a => .ofOption (s.readAddr a)
      | none =>
          match s.nameOf n with
          | some b => .undefined (notDefined b)
          | none => .fault

variable {cfg : Config} {site : Nat → Nat} {s t x : State} {vs : List AerVal}

/-- The cached resolution of a name finds what `vm_scope_get` finds. -/
theorem exec_resolve (cfg : Config) (h : At site s t x vs) {n c : Nat} (hsite : site c = n)
    (hc : c < s.chunk.addrCache.length) :
    ∃ y, exec cfg (.resolve n c) x = .done (t.vmScopeGet n) y ∧ At site s t y vs ∧
      y.vm = x.vm := by
  have hget := vmScopeGet_of_core h.core n
  simp only [exec, State.resolve, if_pos (h.length ▸ hc)]
  split
  · next a ha =>
    refine ⟨x, ?_, h, rfl⟩
    have hcached : x.chunk.addrCache[c]? = some (some a) := by
      split at ha
      · rw [List.getD_eq_getElem?_getD] at ha
        cases hcell : x.chunk.addrCache[c]? with
        | none => simp [hcell] at ha
        | some o => simpa [hcell] using ha
      · cases ha
    rw [← hget, ← hsite, h.caches c a hcached]
  · split
    · next hcond =>
      simp only [Bool.and_eq_true, beq_iff_eq] at hcond
      refine ⟨{ x with chunk := { x.chunk with
        addrCache := x.chunk.addrCache.set c (x.vmGlobalSlotAddress n) } }, ?_, ⟨h.core, ?_, ?_, ?_⟩,
        rfl⟩
      · rw [hget]
      · exact ⟨h.stack.top, h.stack.below, h.stack.above⟩
      · intro d a hd
        rw [List.getElem?_set] at hd
        split at hd
        · next he =>
          subst he
          split at hd
          · have ha := Option.some.inj hd
            rw [hsite]
            exact hcond.2.symm.trans ha
          · cases hd
        · exact h.caches d a hd
      · simp [h.length]
    · exact ⟨x, by rw [hget], h, rfl⟩

/-- The read of an operand by a fused instruction. -/
theorem run_read (cfg : Config) (h : At site s t x vs) (o : Operand) (ho : o.Sited site s) :
    match o.got t with
    | .value v => ∃ y, o.read.run (exec cfg) x = .done (some v) y ∧ At site s t y vs ∧ y.vm = x.vm
    | .undefined m => ∃ y, o.read.run (exec cfg) x = .done none y ∧
        y.core = (t.addError m).core ∧ y.vm = x.vm
    | .fault => ∃ y, o.read.run (exec cfg) x = .stop .fault y := by
  cases o with
  | const i =>
    simp only [Operand.read, Operand.got, perform, run_bind, run_perform, exec, pool_of_core h.core]
    cases t.chunk.pool[i]? with
    | none => exact ⟨x, rfl⟩
    | some v => exact ⟨x, rfl, h, rfl⟩
  | slot i =>
    have hread : (x.localSlot i).bind x.readAddr = (t.localSlot i).bind t.readAddr := by
      rw [localSlot_of_core h.core, funext (readAddr_of_core h.core)]
    simp only [Operand.read, Operand.got, perform, run_bind, run_perform, exec, hread]
    cases (t.localSlot i).bind t.readAddr with
    | none => exact ⟨x, rfl⟩
    | some v => exact ⟨x, rfl, h, rfl⟩
  | name n c =>
    obtain ⟨y, hy, hat, hvm⟩ := exec_resolve cfg h ho.1 ho.2
    simp only [Operand.read, vmResolveNameCached, Operand.got, perform, run_bind, run_perform, hy,
      Outcome.done_andThen]
    cases hget : t.vmScopeGet n with
    | some a =>
      simp only [Option.isNone_some, Bool.false_eq_true, if_false, run_pure, Outcome.done_andThen,
        run_bind, run_perform, exec, readAddr_of_core hat.core]
      cases t.readAddr a with
      | none => exact ⟨y, rfl⟩
      | some v => exact ⟨y, rfl, hat, hvm⟩
    | none =>
      have hname : y.nameOf n = t.nameOf n := congrArg (fun s => s.nameOf n) hat.core
      simp only [Option.isNone_none, if_true, run_bind, run_perform, exec_nameOf, hname]
      cases t.nameOf n with
      | none => exact ⟨y, rfl⟩
      | some b => exact ⟨y.addError _, rfl, addError_of_core hat.core _, hvm⟩

/-! Fetching. -/

theorem CodeAt.head {ip : Nat} {w : Int} {ws : List Int} (h : CodeAt s ip (w :: ws)) :
    s.chunk.code[ip]? = some w := by
  obtain ⟨rest, hrest⟩ := h
  have := congrArg List.head? hrest
  rw [List.head?_drop] at this
  exact this.symm

theorem CodeAt.tail {ip : Nat} {w : Int} {ws : List Int} (h : CodeAt s ip (w :: ws)) :
    CodeAt s (ip + 1) ws := by
  obtain ⟨rest, hrest⟩ := h
  refine ⟨rest, ?_⟩
  rw [← List.tail_drop, ← hrest]
  rfl

theorem CodeAt.left {ip : Nat} {ws ws' : List Int} (h : CodeAt s ip (ws ++ ws')) : CodeAt s ip ws :=
  (List.prefix_append ws ws').trans h

theorem CodeAt.right {ip : Nat} {ws ws' : List Int} (h : CodeAt s ip (ws ++ ws')) :
    CodeAt s (ip + ws.length) ws' := by
  induction ws generalizing ip with
  | nil => exact h
  | cons w ws ih =>
    have := ih h.tail
    rwa [Nat.add_assoc, Nat.add_comm 1] at this

theorem CodeAt.of_code (hc : x.chunk.code = t.chunk.code) {ip : Nat} {ws : List Int}
    (h : CodeAt t ip ws) : CodeAt x ip ws := by
  unfold CodeAt
  rw [hc]
  exact h

theorem run_instruction {op : Opcode} {ws : List Int} (h : CodeAt x x.vm.ip (op.word :: ws)) :
    instruction.run (exec cfg) x = (handler op).run (exec cfg) (x.atIp (x.vm.ip + 1)) :=
  run_fetched h.head

theorem run_readIdx {n : Nat} {ws : List Int} (h : CodeAt x x.vm.ip ((n : Int) :: ws)) :
    exec cfg .readIdx x = .done n (x.atIp (x.vm.ip + 1)) :=
  exec_readIdx cfg h.head

namespace At

theorem atIp (h : At site s t x vs) (ip : Nat) : At site s t (x.atIp ip) vs :=
  ⟨h.core, ⟨h.stack.top, h.stack.below, h.stack.above⟩, h.caches, h.length⟩

/-- A change of the stack alone. -/
theorem withStack {y : State} {ws : List AerVal} (h : At site s t x vs) (hcore : y.core = x.core)
    (hchunk : y.chunk = x.chunk) (hs : StackIs s y ws) : At site s t y ws where
  core := hcore.trans h.core
  stack := hs
  caches c a ha := by
    rw [vmScopeGet_of_core hcore]
    exact h.caches c a (hchunk ▸ ha)
  length := hchunk ▸ h.length

theorem push (cfg : Config) (h : At site s t x vs) (hroom : s.vm.stackTop + vs.length < vmStackMax) (v : AerVal) :
    ∃ y, (Machine.push v).run (exec cfg) x = .done () y ∧ At site s t y (vs ++ [v]) ∧
      y.vm.ip = x.vm.ip := by
  obtain ⟨y, hy, hcore, hip, hchunk, hs⟩ := h.stack.push hroom v
  exact ⟨y, (run_perform _ _ _).trans hy, h.withStack hcore hchunk hs, hip⟩

theorem pop (cfg : Config) (vs : List AerVal) {v : AerVal} (h : At site s t x (vs ++ [v])) :
    ∃ y, Machine.pop.run (exec cfg) x = .done v y ∧ At site s t y vs ∧ y.vm.ip = x.vm.ip := by
  obtain ⟨y, hy, hcore, hip, hchunk, hs⟩ := h.stack.pop
  exact ⟨y, (run_perform _ _ _).trans hy, h.withStack hcore hchunk hs, hip⟩

end At

theorem run_arg {α : Type} {f : Nat → Handler α} {n : Nat} {ws : List Int}
    (h : CodeAt x x.vm.ip ((n : Int) :: ws)) :
    (perform .readIdx >>= f).run (exec cfg) x = (f n).run (exec cfg) (x.atIp (x.vm.ip + 1)) := by
  unfold perform
  rw [run_bind, run_perform, run_readIdx h]
  rfl

/-- The run of an instruction that is to push what an operand denotes. -/
def LoadsAs (site : Nat → Nat) (s t : State) (vs : List AerVal) (ip : Nat) (r : Result Unit) :
    Got → Prop
  | .value v => ∃ y, r = .done () y ∧ At site s t y (vs ++ [v]) ∧ y.vm.ip = ip
  | .undefined m => ∃ y, r = .done () y ∧ y.core = (t.addError m).core
  | .fault => ∃ y, r = .stop .fault y

theorem At.loadsAs (cfg : Config) (h : At site s t x vs) (hroom : s.vm.stackTop + vs.length < vmStackMax)
    (o : Option AerVal) :
    LoadsAs site s t vs x.vm.ip
      ((orFault o x).andThen fun v x => (Machine.push v).run (exec cfg) x) (.ofOption o) := by
  cases o with
  | none => exact ⟨x, rfl⟩
  | some v => exact h.push cfg hroom v

/-- The instruction that pushes an operand. -/
theorem run_load (cfg : Config) (h : At site s t x vs) (o : Operand) (ho : o.Sited site s)
    (hroom : s.vm.stackTop + vs.length < vmStackMax)
    (hcode : CodeAt x x.vm.ip (instructionWords o.load o.words)) :
    LoadsAs site s t vs (x.vm.ip + (instructionWords o.load o.words).length)
      (instruction.run (exec cfg) x) (o.got t) := by
  rw [run_instruction hcode]
  cases o with
  | const i =>
    have hat := h.atIp (x.vm.ip + 2)
    have hrun : lblPush.run (exec cfg) (x.atIp (x.vm.ip + 1)) =
        (orFault t.chunk.pool[i]? (x.atIp (x.vm.ip + 2))).andThen fun v x =>
          (push v).run (exec cfg) x := by
      have hargs : CodeAt (x.atIp (x.vm.ip + 1)) (x.vm.ip + 1) [(i : Int)] := hcode.tail
      unfold lblPush
      rw [run_arg hargs, run_bind, ← pool_of_core hat.core]
      exact congrArg (Outcome.andThen · _) (run_perform _ _ _)
    exact hrun ▸ hat.loadsAs cfg hroom _
  | slot i =>
    have hat := h.atIp (x.vm.ip + 2)
    have hrun : lblLoadLocal.run (exec cfg) (x.atIp (x.vm.ip + 1)) =
        (orFault ((t.localSlot i).bind t.readAddr) (x.atIp (x.vm.ip + 2))).andThen fun v x =>
          (push v).run (exec cfg) x := by
      have hargs : CodeAt (x.atIp (x.vm.ip + 1)) (x.vm.ip + 1) [(i : Int)] := hcode.tail
      unfold lblLoadLocal
      rw [run_arg hargs, run_bind, ← localSlot_of_core hat.core, ← funext (readAddr_of_core hat.core)]
      exact congrArg (Outcome.andThen · _) (run_perform _ _ _)
    exact hrun ▸ hat.loadsAs cfg hroom _
  | name n c =>
    have hat := h.atIp (x.vm.ip + 3)
    obtain ⟨y, hy, hat, hvm⟩ := exec_resolve cfg hat ho.1 ho.2
    have hargs : CodeAt (x.atIp (x.vm.ip + 1)) (x.vm.ip + 1) [(n : Int), (c : Int)] := hcode.tail
    have hargs' : CodeAt (x.atIp (x.vm.ip + 2)) (x.vm.ip + 2) [(c : Int)] := hargs.tail
    have hip : y.vm.ip = x.vm.ip + 3 := congrArg Vm.ip hvm
    change LoadsAs site s t vs (x.vm.ip + 3) (lblLoad.run (exec cfg) (x.atIp (x.vm.ip + 1))) _
    rw [← hip]
    unfold lblLoad
    rw [run_arg hargs]
    change LoadsAs _ _ _ _ _ (Prog.run _ _ (x.atIp (x.vm.ip + 2))) _
    rw [run_arg hargs', run_bind, perform, run_perform]
    change LoadsAs _ _ _ _ _ (Outcome.andThen (exec cfg (.resolve n c) (x.atIp (x.vm.ip + 3))) _) _
    rw [hy, Outcome.done_andThen]
    cases hget : t.vmScopeGet n with
    | some a =>
      have hgot : (Operand.name n c).got t = .ofOption (t.readAddr a) := by
        simp only [Operand.got, hget]
      rw [hgot]
      have hload := hat.loadsAs cfg hroom (t.readAddr a)
      simpa only [perform, run_bind, run_perform, exec, readAddr_of_core hat.core] using hload
    | none =>
      have hname : y.nameOf n = t.nameOf n := congrArg (fun s => s.nameOf n) hat.core
      simp only [errorNull, perform, run_bind, run_perform, exec_nameOf, hname, Operand.got, hget]
      cases t.nameOf n with
      | none => exact ⟨y, rfl⟩
      | some b =>
        obtain ⟨z, hz, hcore, -⟩ := StackIs.push (x := y.addError (notDefined b))
          ⟨hat.stack.top, hat.stack.below, hat.stack.above⟩ hroom .null
        exact ⟨z, hz, hcore.trans (addError_of_core hat.core _)⟩

/-! Computations with values. -/

/-- What a computation with values leaves as it was. -/
structure State.Values (s t : State) : Prop where
  vm : t.vm = s.vm
  chunk : t.chunk = s.chunk
  arrays : t.heap.arrays = s.heap.arrays
  dicts : t.heap.dicts = s.heap.dicts
  boxes : t.heap.boxes = s.heap.boxes
  entries : t.heap.entries = s.heap.entries
  heap : s.heap.PoolsWf → Heap.Grows s.heap t.heap

namespace State.Values

theorem refl (s : State) : s.Values s := ⟨rfl, rfl, rfl, rfl, rfl, rfl, fun _ => .refl _ _⟩

theorem trans {u : State} (h : s.Values t) (h' : t.Values u) : s.Values u where
  vm := h'.vm.trans h.vm
  chunk := h'.chunk.trans h.chunk
  arrays := h'.arrays.trans h.arrays
  dicts := h'.dicts.trans h.dicts
  boxes := h'.boxes.trans h.boxes
  entries := h'.entries.trans h.entries
  heap hw := (h.heap hw).trans (h'.heap ((h.heap hw).wf hw))

theorem aerInt (s : State) (n : Int) : s.Values { s with heap := (s.heap.aerInt n).2 } := by
  have hgrows := fun hw : s.heap.PoolsWf => Heap.grows_aerInt hw n
  revert hgrows
  unfold Heap.aerInt
  split
  · exact fun _ => .refl s
  · exact fun hgrows => ⟨rfl, rfl, rfl, rfl, rfl, rfl, hgrows⟩

end State.Values

/-- An operation on values, in the state it is performed in. -/
theorem exec_values (cfg : Config) {o : Op} (ho : o.isValue = true) (s : State) :
    s.Values (exec cfg o s).state := by
  cases o with
  | asInt v | string c | array c | dict c | function c =>
    simp only [exec, orFault_state]
    exact .refl s
  | newInt n => exact .aerInt s n
  | newString b =>
    exact ⟨rfl, rfl, rfl, rfl, rfl, rfl, fun hw => Heap.grows_aerMakeString hw b⟩
  | error m => exact ⟨rfl, rfl, rfl, rfl, rfl, rfl, fun _ => .refl _ _⟩
  | fault => exact .refl s
  | _ => cases ho

theorem eq_fault_of_orFault {α : Type} {o : Option α} {w : Stop} (h : orFault o s = .stop w t) :
    w = .fault := by
  cases o <;> cases h
  rfl

theorem exec_valueStop {o : Op} (ho : o.isValue = true) {w : Stop}
    (h : exec cfg o s = .stop w t) : w = .fault := by
  cases o with
  | asInt v | string c | array c | dict c | function c => exact eq_fault_of_orFault h
  | newInt n | newString b | error m => cases h
  | fault =>
    cases h
    rfl
  | _ => cases ho

/-- An operation on values, in two states of one core. -/
theorem exec_sameCore (cfg : Config) {o : Op} (ho : o.isValue = true) (h : x.core = t.core) :
    Outcome.Rel (fun x t => x.core = t.core) (exec cfg o x) (exec cfg o t) := by
  have hread : ∀ {α : Type} (f : Heap → Option α),
      Outcome.Rel (fun x t : State => x.core = t.core) (orFault (f x.heap) x) (orFault (f t.heap) t) := by
    intro α f
    rw [heap_of_core h]
    cases f t.heap with
    | none => exact .stop _ h
    | some a => exact .done a h
  have hgain : ∀ {α : Type} (f : Heap → α × Heap),
      Outcome.Rel (fun x t : State => x.core = t.core) (x.gain (f x.heap)) (t.gain (f t.heap)) := by
    intro α f
    rw [heap_of_core h]
    refine .done _ ?_
    exact congrArg (fun s : State => { s with heap := (f t.heap).2 }) h
  cases o with
  | asInt v => exact hread fun heap => State.asInt { x with heap } v
  | string c => exact hread fun heap => State.stringData { x with heap } c
  | array c => exact hread fun heap => State.arrayData { x with heap } c
  | dict c => exact hread fun heap => State.dictData { x with heap } c
  | function c => exact hread fun heap => State.functionData { x with heap } c
  | newInt n => exact hgain fun heap => heap.aerInt n
  | newString b => exact hgain fun heap => heap.aerMakeString b
  | error m => exact .done _ (addError_of_core h m)
  | fault => exact .stop _ h
  | _ => cases ho

/-- The names of the pool are strings in use. -/
structure NamesLive (s : State) : Prop where
  pools : s.heap.PoolsWf
  live : ∀ c, AerVal.string c ∈ s.chunk.pool → s.heap.strings.Live c

namespace State.Values
variable {u : State} (h : s.Values u) (hs : NamesLive s)
include h hs

theorem nameText (n : Nat) : u.nameText n = s.nameText n := by
  unfold State.nameText Chunk.nameText
  rw [h.chunk]
  cases hn : s.chunk.pool[n]? with
  | none => rfl
  | some v =>
    cases v with
    | string c =>
      have hlive := hs.live c (List.mem_of_getElem? hn)
      exact congrArg cString ((h.heap hs.pools).data (.string c) hlive id)
    | _ => rfl

theorem vmScopeGet (n : Nat) : u.vmScopeGet n = s.vmScopeGet n := by
  have hplace : u.placeIn n = s.placeIn n := by
    funext i
    unfold State.placeIn
    rw [h.vm, h.nameText hs]
  have haddr : u.placeAddr = s.placeAddr := by
    funext p
    cases p with
    | slot i j => exact congrArg (fun vm : Vm => (vm.scopes i).slotAddr i j) h.vm
    | entry i e => rfl
  unfold State.vmScopeGet State.locate
  rw [h.vm, hplace, haddr]

end State.Values

/-- A computation with values goes in step from two states of one core, and leaves the
machines themselves alone. -/
theorem run_values (cfg : Config) {α : Type} {p : Handler α} (hp : ValueOnly p) (hs : NamesLive t)
    (h : At site s t x vs) :
    match p.run (exec cfg) t with
    | .done v u => t.Values u ∧
        ∃ y, p.run (exec cfg) x = .done v y ∧ At site s u y vs ∧ y.vm.ip = x.vm.ip
    | .stop w _ => w = .fault ∧ ∃ y, p.run (exec cfg) x = .stop w y := by
  have hrun : Outcome.Rel (fun x t => x.core = t.core) (p.run (exec cfg) x) (p.run (exec cfg) t) :=
    Only.run_lockstep hp h.core fun o x t ho hxt => exec_sameCore cfg ho hxt
  have hkept : ∀ y : State, y.Values (p.run (exec cfg) y).state := fun y =>
    Only.run_preserves hp (.refl y) fun o u ho hu => hu.trans (exec_values cfg ho u)
  have ht := hkept t
  have hx := hkept x
  have hstop : ∀ w u, p.run (exec cfg) t = .stop w u → w = .fault := fun w u hw =>
    Only.run_stops (W := (· = .fault)) hp hw fun o s w t ho he => exec_valueStop ho he
  generalize p.run (exec cfg) x = r, p.run (exec cfg) t = q at hrun hx ht hstop
  cases hrun with
  | stop w _ => exact ⟨hstop w _ rfl, _, rfl⟩
  | @done v y u hcore =>
    have ht : t.Values u := ht
    have hx : x.Values y := hx
    refine ⟨ht, y, rfl, ⟨hcore, ?_, ?_, ?_⟩, congrArg Vm.ip hx.vm⟩
    · exact ⟨congrArg Vm.stackTop hx.vm ▸ h.stack.top, fun i hi => hx.vm ▸ h.stack.below i hi,
        fun i hi => hx.vm ▸ h.stack.above i hi⟩
    · intro c a ha
      rw [vmScopeGet_of_core hcore, ht.vmScopeGet hs, ← vmScopeGet_of_core h.core]
      exact h.caches c a (hx.chunk ▸ ha)
    · exact hx.chunk ▸ h.length

/-! What a fused instruction does, apart from the stack and the caches. -/

/-- The end of a computation: undefined behaviour, a reported error, or a state and the
values it pushes. -/
inductive End
  | fault
  | error (t : State)
  | done (t : State) (vs : List AerVal)

/-- Continue with the value of an operand. -/
def Got.andThen (s : State) (k : AerVal → End) : Got → End
  | .value v => k v
  | .undefined m => .error (s.addError m)
  | .fault => .fault

/-- Continue with a computed value, unless an error has been reported. -/
def End.ofRun (k : AerVal → State → End) : Result AerVal → End
  | .done r t => if t.runtimeHadError then .error t else k r t
  | .stop _ _ => .fault

/-- The address of a variable. -/
def Variable.addr (s : State) : Variable → Option Addr
  | slot i => s.localSlot i
  | name n _ => s.vmScopeGet n

/-- Write a variable that has an address. -/
def Variable.write (v : Variable) (s : State) (r : AerVal) : End :=
  match v.addr s with
  | some a => if s.isStored a then .done (s.writeAddr a r) [] else .fault
  | none => .fault

def Fused.end (cfg : Config) (s : State) : Fused → End
  | compound t op rhs =>
      (t.operand.got s).andThen s fun a => (rhs.got s).andThen s fun b =>
        .ofRun (fun r u => t.write u r) ((vmBinary a b op).run (exec cfg) s)
  | indexGet obj idx =>
      (obj.operand.got s).andThen s fun a => (idx.got s).andThen s fun b =>
        .ofRun (fun r u => .done u [r]) ((vmIndexGetCompute a b).run (exec cfg) s)

/-- A run that ends so, with the instruction pointer at `ip` when there is no error. -/
def EndsAs (s : State) (ip : Nat) (r : Result Unit) : End → Prop
  | .fault => ∃ y, r = .stop .fault y
  | .error t => t.runtimeHadError = true ∧ ∃ y, r = .done () y ∧ y.core = t.core
  | .done t vs => t.runtimeHadError = false ∧
      ∃ y, r = .done () y ∧ y.core = t.core ∧ StackIs s y vs ∧ y.vm.ip = ip

section Plain
variable {ip n : Nat}

theorem run_instructions (cfg : Config) (n : Nat) (x : State) :
    (instructions (n + 1)).run (exec cfg) x =
      (instruction.run (exec cfg) x).andThen fun _ y =>
        if y.runtimeHadError then .done () y else (instructions n).run (exec cfg) y := by
  have hunfold : instructions (n + 1) = (do
      instruction
      if ← perform .hadError then return
      instructions n) := rfl
  rw [hunfold, run_bind]
  congr 1
  funext _ y
  rw [run_bind, perform, run_perform]
  simp only [exec, Outcome.done_andThen]
  split <;> rfl

variable (hs : NamesLive s) (hclear : s.runtimeHadError = false)

include hclear in
theorem run_loads (h : At site s s x vs) (o : Operand) (ho : o.Sited site s)
    (hroom : s.vm.stackTop + vs.length < vmStackMax)
    (hcode : CodeAt x x.vm.ip (instructionWords o.load o.words)) {k : AerVal → End}
    (hk : ∀ a y, o.got s = .value a → At site s s y (vs ++ [a]) →
      y.vm.ip = x.vm.ip + (instructionWords o.load o.words).length →
      EndsAs s ip ((instructions n).run (exec cfg) y) (k a)) :
    EndsAs s ip ((instructions (n + 1)).run (exec cfg) x) ((o.got s).andThen s k) := by
  have hload := run_load cfg h o ho hroom hcode
  rw [run_instructions]
  cases hgot : o.got s with
  | value a =>
    rw [hgot] at hload
    obtain ⟨y, hy, hat, hip⟩ := hload
    have hno : y.runtimeHadError = false := (hadError_of_core hat.core).trans hclear
    rw [hy, Outcome.done_andThen, hno]
    exact hk a y hgot hat hip
  | undefined m =>
    rw [hgot] at hload
    obtain ⟨y, hy, hcore⟩ := hload
    have hyes : y.runtimeHadError = true := hadError_of_core hcore
    rw [hy, Outcome.done_andThen, hyes]
    exact ⟨rfl, y, rfl, hcore⟩
  | fault =>
    rw [hgot] at hload
    obtain ⟨y, hy⟩ := hload
    rw [hy]
    exact ⟨y, rfl⟩

include hs in
/-- An instruction that pops two values and pushes what it computes of them. -/
theorem run_computes {a b : AerVal} (h : At site s s x [a, b]) {op : Opcode} {f : Handler AerVal}
    (hf : ValueOnly f) (hcode : CodeAt x x.vm.ip (instructionWords op []))
    (hop : ∀ y, At site s s y [a, b] → ∃ z, At site s s z [] ∧ z.vm.ip = y.vm.ip ∧
      (handler op).run (exec cfg) y = (f >>= push).run (exec cfg) z)
    (hroom : s.vm.stackTop < vmStackMax) {k : AerVal → State → End}
    (hk : ∀ r u y, s.Values u → u.runtimeHadError = false → At site s u y [r] →
      y.vm.ip = x.vm.ip + 1 → EndsAs s ip ((instructions n).run (exec cfg) y) (k r u)) :
    EndsAs s ip ((instructions (n + 1)).run (exec cfg) x) (.ofRun k (f.run (exec cfg) s)) := by
  rw [run_instructions, run_instruction hcode]
  obtain ⟨z, hat, hip, hrun⟩ := hop _ (h.atIp (x.vm.ip + 1))
  have hvalues := run_values cfg hf hs hat
  rw [hrun, run_bind]
  cases hfrun : f.run (exec cfg) s with
  | stop w u =>
    rw [hfrun] at hvalues
    obtain ⟨rfl, y, hy⟩ := hvalues
    rw [hy]
    exact ⟨y, rfl⟩
  | done r u =>
    rw [hfrun] at hvalues
    obtain ⟨hkept, y, hy, hat, hip'⟩ := hvalues
    obtain ⟨w, hw, hat, hip''⟩ := hat.push cfg hroom r
    rw [hy, Outcome.done_andThen, hw, Outcome.done_andThen, End.ofRun, hadError_of_core hat.core]
    split
    · next hyes => exact ⟨hyes, w, rfl, hat.core⟩
    · next hno =>
      exact hk r u w hkept (Bool.eq_false_iff.mpr hno) hat (hip''.trans (hip'.trans hip))

theorem At.stores {r : AerVal} {u : State} (h : At site s u x []) (hu : u.runtimeHadError = false)
    {v : Variable} {a : Addr} (ha : v.addr u = some a) :
    EndsAs s x.vm.ip (x.store a r) (v.write u r) := by
  have hstored : x.isStored a = u.isStored a := congrArg Option.isSome (readAddr_of_core h.core a)
  unfold State.store Variable.write
  rw [ha, hstored]
  dsimp only
  split
  · have hcore := writeAddr_of_core h.core a r
    have hkept : (u.writeAddr a r).runtimeHadError = u.runtimeHadError := by cases a <;> rfl
    refine ⟨hkept.trans hu, _, rfl, hcore, ?_, ?_⟩
    · cases a <;> exact ⟨h.stack.top, h.stack.below, h.stack.above⟩
    · cases a <;> rfl
  · exact ⟨x, rfl⟩

theorem run_lastInstruction (cfg : Config) (x : State) :
    (instructions 1).run (exec cfg) x = instruction.run (exec cfg) x := by
  rw [run_instructions]
  cases instruction.run (exec cfg) x with
  | stop w y => rfl
  | done _ y => exact ite_self _

/-- The instruction that stores to a variable. -/
theorem run_stores (cfg : Config) {r : AerVal} {u : State} (h : At site s u x [r]) (hu : u.runtimeHadError = false)
    (v : Variable) (hv : v.operand.Sited site s) (haddr : v.addr u ≠ none)
    (hcode : CodeAt x x.vm.ip (instructionWords v.store v.operand.words)) :
    EndsAs s (x.vm.ip + (instructionWords v.store v.operand.words).length)
      ((instructions 1).run (exec cfg) x) (v.write u r) := by
  obtain ⟨a, ha⟩ := Option.ne_none_iff_exists'.mp haddr
  rw [run_lastInstruction, run_instruction hcode]
  cases v with
  | slot i =>
    have hargs : CodeAt (x.atIp (x.vm.ip + 1)) (x.vm.ip + 1) [(i : Int)] := hcode.tail
    obtain ⟨z, hz, hat, hip⟩ := (h.atIp (x.vm.ip + 2)).pop cfg []
    have hslot : z.localSlot i = some a := (localSlot_of_core hat.core i).trans ha
    have hrun : lblStoreLocal.run (exec cfg) (x.atIp (x.vm.ip + 1)) = z.store a r := by
      unfold lblStoreLocal
      rw [run_arg hargs, run_bind]
      change Outcome.andThen (pop.run (exec cfg) (x.atIp (x.vm.ip + 2))) _ = _
      rw [hz, Outcome.done_andThen, perform, run_perform]
      simp only [exec, hslot]
    have hstores := hat.stores (r := r) hu ha
    rw [hip] at hstores
    exact hrun ▸ hstores
  | name m c =>
    have hargs : CodeAt (x.atIp (x.vm.ip + 1)) (x.vm.ip + 1) [(m : Int), (c : Int)] := hcode.tail
    have hargs' : CodeAt (x.atIp (x.vm.ip + 2)) (x.vm.ip + 2) [(c : Int)] := hargs.tail
    obtain ⟨z, hz, hat, hip⟩ := (h.atIp (x.vm.ip + 3)).pop cfg []
    obtain ⟨w, hw, hat, hvm⟩ := exec_resolve cfg hat hv.1 hv.2
    have hfound : u.vmScopeGet m = some a := ha
    have hrun : lblStore.run (exec cfg) (x.atIp (x.vm.ip + 1)) = w.store a r := by
      unfold lblStore
      rw [run_arg hargs]
      change Prog.run _ _ (x.atIp (x.vm.ip + 2)) = _
      rw [run_arg hargs', run_bind]
      change Outcome.andThen (pop.run (exec cfg) (x.atIp (x.vm.ip + 3))) _ = _
      rw [hz, Outcome.done_andThen, run_bind, perform, run_perform, hw, Outcome.done_andThen, hfound]
      simp only [perform, run_perform, exec]
    have hstores := hat.stores (r := r) hu ha
    rw [congrArg Vm.ip hvm, hip] at hstores
    exact hrun ▸ hstores

theorem got_atSite (s : State) (o : Operand) (c : Nat) : (o.atSite c).got s = o.got s := by
  cases o <;> rfl

theorem operand_atSite (v : Variable) (c : Nat) : (v.atSite c).operand = v.operand.atSite c := by
  cases v <;> rfl

theorem write_atSite (v : Variable) (c : Nat) : (v.atSite c).write = v.write := by
  cases v <;> rfl

theorem addr_atSite (v : Variable) (c : Nat) (s : State) : (v.atSite c).addr s = v.addr s := by
  cases v <;> rfl

/-- A variable that has a value has an address. -/
theorem addr_of_got {v : Variable} {a : AerVal} (h : v.operand.got s = .value a) :
    v.addr s ≠ none := by
  intro hnone
  cases v with
  | slot i =>
    have hslot : s.localSlot i = none := hnone
    simp only [Variable.operand, Operand.got, hslot, Option.bind_none, Got.ofOption] at h
    cases h
  | name n c =>
    have hname : s.vmScopeGet n = none := hnone
    simp only [Variable.operand, Operand.got, hname] at h
    split at h <;> cases h

theorem State.Values.addr {u : State} (h : s.Values u) (hs : NamesLive s) (v : Variable) :
    v.addr u = v.addr s := by
  cases v with
  | slot i =>
    change u.localSlot i = s.localSlot i
    unfold State.localSlot
    rw [h.vm]
  | name n c => exact h.vmScopeGet hs n

end Plain

/-- The premises of a comparison: names in use, correct caches, no pending error and room
on the value stack. -/
structure Ready (site : Nat → Nat) (c₁ c₂ c₃ : Nat) (f : Fused) (s : State) : Prop where
  names : NamesLive s
  caches : CachesAgree site s
  sited : ∀ o ∈ f.operands c₁ c₂ c₃, o.Sited site s
  clear : s.runtimeHadError = false
  room : s.vm.stackTop + 2 ≤ vmStackMax

theorem Ready.start {c₁ c₂ c₃ : Nat} {f : Fused} (h : Ready site c₁ c₂ c₃ f s) (q : Nat) :
    At site s s (s.atIp q) [] where
  core := rfl
  stack := ⟨rfl, fun _ _ => rfl, fun _ hi => absurd hi (Nat.not_lt_zero _)⟩
  caches := h.caches
  length := rfl

theorem handler_of_isBinary {op : Opcode} (h : op.isBinary = true) : handler op = lblBinary op := by
  cases op <;> first | rfl | cases h

/-- Two pops. -/
theorem run_popTwo {α : Type} {a b : AerVal} (h : At site s t x [a, b]) (f : AerVal → AerVal → Handler α) :
    ∃ z, At site s t z [] ∧ z.vm.ip = x.vm.ip ∧
      (do
        let b ← pop
        let a ← pop
        f a b).run (exec cfg) x = (f a b).run (exec cfg) z := by
  obtain ⟨y, hy, hat, hip⟩ := At.pop cfg [a] h
  obtain ⟨z, hz, hat, hip'⟩ := hat.pop cfg []
  refine ⟨z, hat, hip'.trans hip, ?_⟩
  rw [run_bind, hy, Outcome.done_andThen, run_bind, hz, Outcome.done_andThen]

/-- What the replaced instructions do. -/
theorem plain_ends (cfg : Config) {c₁ c₂ c₃ : Nat} {f : Fused} (h : Ready site c₁ c₂ c₃ f s)
    (hop : f.op.isBinary = true) {q : Nat} (hcode : CodeAt s q (f.plainWords c₁ c₂ c₃)) :
    EndsAs s (q + (f.plainWords c₁ c₂ c₃).length)
      ((instructions (f.plain c₁ c₂ c₃).length).run (exec cfg) (s.atIp q)) (f.end cfg s) := by
  have hstart := h.start q
  have hroom := h.room
  cases f with
  | compound t op rhs =>
    have hsited : (t.atSite c₁).operand.Sited site s ∧ (rhs.atSite c₂).Sited site s ∧
        (t.atSite c₃).operand.Sited site s :=
      ⟨h.sited _ (by simp [Fused.operands]), h.sited _ (by simp [Fused.operands]),
        h.sited _ (by simp [Fused.operands])⟩
    let w₁ := instructionWords (t.atSite c₁).operand.load (t.atSite c₁).operand.words
    let w₂ := instructionWords (rhs.atSite c₂).load (rhs.atSite c₂).words
    let w₃ := instructionWords (t.atSite c₃).store (t.atSite c₃).operand.words
    have hwords : (Fused.compound t op rhs).plainWords c₁ c₂ c₃ =
        w₁ ++ (w₂ ++ (instructionWords op [] ++ (w₃ ++ []))) := rfl
    rw [hwords] at hcode
    have hcode₂ := hcode.right
    have hcode₃ := hcode₂.right
    have hcode₄ := hcode₃.right.left
    dsimp only [Fused.end]
    rw [← got_atSite s t.operand c₁, ← operand_atSite, ← got_atSite s rhs c₂]
    refine run_loads h.clear hstart _ hsited.1 (by simp; omega) hcode.left fun a y hgot hat hip => ?_
    refine run_loads h.clear hat _ hsited.2.1 (by simp; omega)
      (hip ▸ hcode₂.left.of_code (code_of_core hat.core)) fun b y hgot' hat' hip' => ?_
    have hip₂ : y.vm.ip = q + w₁.length + w₂.length := hip'.trans (hip ▸ rfl)
    refine run_computes h.names hat' (valueOnly_vmBinary a b op)
      (hip₂ ▸ hcode₃.left.of_code (code_of_core hat'.core)) (fun y hy => ?_) (by omega) fun r u y hkept hclear hat'' hip'' => ?_
    · have hbinary : handler op = lblBinary op := handler_of_isBinary hop
      rw [hbinary]
      exact run_popTwo hy fun a b => vmBinary a b op >>= push
    · have hip₃ : y.vm.ip = q + w₁.length + w₂.length + 1 := hip''.trans (hip₂ ▸ rfl)
      have hcode : CodeAt y y.vm.ip w₃ :=
        hip₃ ▸ hcode₄.of_code ((code_of_core hat''.core).trans (congrArg Chunk.code hkept.chunk))
      have haddr : (t.atSite c₃).addr u ≠ none := by
        rw [hkept.addr h.names, addr_atSite, ← addr_atSite t c₁]
        exact addr_of_got hgot
      have hstores := run_stores cfg hat'' hclear (t.atSite c₃) hsited.2.2 haddr hcode
      rw [write_atSite, hip₃] at hstores
      have hlength : q + (w₁ ++ (w₂ ++ (instructionWords op [] ++ (w₃ ++ [])))).length =
          q + w₁.length + w₂.length + 1 + w₃.length := by
        simp [instructionWords]
        omega
      rw [hwords, hlength]
      exact hstores
  | indexGet obj idx =>
    have hsited : (obj.atSite c₁).operand.Sited site s ∧ (idx.atSite c₂).Sited site s :=
      ⟨h.sited _ (by simp [Fused.operands]), h.sited _ (by simp [Fused.operands])⟩
    let w₁ := instructionWords (obj.atSite c₁).operand.load (obj.atSite c₁).operand.words
    let w₂ := instructionWords (idx.atSite c₂).load (idx.atSite c₂).words
    have hwords : (Fused.indexGet obj idx).plainWords c₁ c₂ c₃ =
        w₁ ++ (w₂ ++ (instructionWords .indexGet [] ++ [])) := rfl
    rw [hwords] at hcode
    have hcode₂ := hcode.right
    have hcode₃ := hcode₂.right
    dsimp only [Fused.end]
    rw [← got_atSite s obj.operand c₁, ← operand_atSite, ← got_atSite s idx c₂]
    refine run_loads h.clear hstart _ hsited.1 (by simp; omega) hcode.left fun a y hgot hat hip => ?_
    refine run_loads h.clear hat _ hsited.2 (by simp; omega)
      (hip ▸ hcode₂.left.of_code (code_of_core hat.core)) fun b y hgot' hat' hip' => ?_
    have hip₂ : y.vm.ip = q + w₁.length + w₂.length := hip'.trans (hip ▸ rfl)
    refine run_computes h.names hat' (valueOnly_vmIndexGetCompute a b)
      (hip₂ ▸ hcode₃.left.of_code (code_of_core hat'.core))
      (fun y hy => run_popTwo hy fun a b => vmIndexGetCompute a b >>= push)
      (by omega) fun r u y hkept hclear hat'' hip'' => ?_
    have hip₃ : y.vm.ip = q + w₁.length + w₂.length + 1 := hip''.trans (hip₂ ▸ rfl)
    refine ⟨hclear, y, rfl, hat''.core, hat''.stack, ?_⟩
    rw [hwords, hip₃]
    simp [instructionWords]
    omega

/-! The fused instruction. -/

def Operand.reader : Operand → Handler Operand
  | const _ => readConst
  | slot _ => readSlot
  | name _ _ => readName

theorem run_reader {α : Type} {o : Operand} {ws : List Int} {f : Operand → Handler α}
    (h : CodeAt x x.vm.ip (o.words.map Int.ofNat ++ ws)) :
    (o.reader >>= f).run (exec cfg) x = (f o).run (exec cfg) (x.atIp (x.vm.ip + o.words.length)) := by
  cases o with
  | const i => exact run_arg (f := fun i => f (.const i)) h
  | slot i => exact run_arg (f := fun i => f (.slot i)) h
  | name n c =>
    have hargs : CodeAt (x.atIp (x.vm.ip + 1)) (x.vm.ip + 1) ((c : Int) :: ws) := h.tail
    have hrun : (readName >>= f).run (exec cfg) x =
        (perform .readIdx >>= fun c => f (.name n c)).run (exec cfg) (x.atIp (x.vm.ip + 1)) :=
      run_arg (f := fun n => perform .readIdx >>= fun c => f (.name n c)) h
    exact hrun.trans (run_arg hargs)

theorem run_operandOpcode {α : Type} {op : Opcode} {ws : List Int} {f : Opcode → Handler α}
    (h : CodeAt x x.vm.ip (op.word :: ws)) :
    (readOpcode >>= f).run (exec cfg) x = (f op).run (exec cfg) (x.atIp (x.vm.ip + 1)) := by
  have hread : exec cfg .read x = .done op.word (x.atIp (x.vm.ip + 1)) := by
    simp only [exec, h.head]
    rfl
  unfold readOpcode perform
  rw [run_bind, run_bind, run_perform, hread, Outcome.done_andThen, Opcode.ofWord?_word]
  rfl

/-- The assignment of a fused instruction, once its words have been read. -/
def Variable.assign (t : Variable) (op : Opcode) (rhs : Operand) : Handler Unit :=
  match t with
  | .slot i => do
      let a ← perform (.readLocal i)
      match ← rhs.read with
      | none => return
      | some b =>
          let result ← vmBinary a b op
          if ← perform .hadError then return
          perform (.writeLocal i result)
  | .name n c => do
      match ← vmResolveNameCached n c with
      | none => return
      | some addr =>
          match ← rhs.read with
          | none => return
          | some b =>
              let result ← vmBinary (← perform (.load addr)) b op
              if ← perform .hadError then return
              perform (.store addr result)

def indexRead (obj idx : Operand) : Handler Unit := do
  match ← obj.read with
  | none => return
  | some obj =>
      match ← idx.read with
      | none => return
      | some idx => push (← vmIndexGetCompute obj idx)

def Fused.body : Fused → Handler Unit
  | compound t op rhs => t.assign op rhs
  | indexGet obj idx => indexRead obj.operand idx

theorem handler_compoundOpcode (t : Variable) (rhs : Operand) :
    handler (compoundOpcode t rhs) = (match t with
      | .slot _ => compoundLocal rhs.reader
      | .name _ _ => compoundName rhs.reader) := by
  cases t <;> cases rhs <;> rfl

theorem handler_indexGetOpcode (obj : Variable) (idx : Operand) :
    handler (indexGetOpcode obj idx) = indexGetFused obj.operand.reader idx.reader := by
  cases obj <;> cases idx <;> rfl

/-- The words of a fused instruction are read before anything else happens. -/
theorem run_fused {f : Fused} (hcode : CodeAt s s.vm.ip f.words) :
    instruction.run (exec cfg) s = f.body.run (exec cfg) (s.atIp (s.vm.ip + f.words.length)) := by
  cases f with
  | compound t op rhs =>
    rw [run_instruction hcode, handler_compoundOpcode]
    cases t with
    | slot i =>
      have hslot : CodeAt (s.atIp (s.vm.ip + 1)) (s.vm.ip + 1)
          ((i : Int) :: op.word :: rhs.words.map Int.ofNat) := hcode.tail
      have hop : CodeAt (s.atIp (s.vm.ip + 2)) (s.vm.ip + 2) (op.word :: rhs.words.map Int.ofNat) :=
        hslot.tail
      have hrhs : CodeAt (s.atIp (s.vm.ip + 3)) (s.vm.ip + 3) (rhs.words.map Int.ofNat ++ []) :=
        (List.append_nil _).symm ▸ hop.tail
      have hlength : (Fused.compound (.slot i) op rhs).words.length = 3 + rhs.words.length := by
        simp [Fused.words, instructionWords, Variable.operand, Operand.words]
        omega
      dsimp only
      unfold compoundLocal
      rw [run_arg hslot]
      refine (run_operandOpcode hop).trans ?_
      refine (run_reader hrhs).trans ?_
      rw [hlength, ← Nat.add_assoc]
      rfl
    | name n c =>
      have hname : CodeAt (s.atIp (s.vm.ip + 1)) (s.vm.ip + 1)
          ((n : Int) :: (c : Int) :: op.word :: rhs.words.map Int.ofNat) := hcode.tail
      have hcache : CodeAt (s.atIp (s.vm.ip + 2)) (s.vm.ip + 2)
          ((c : Int) :: op.word :: rhs.words.map Int.ofNat) := hname.tail
      have hop : CodeAt (s.atIp (s.vm.ip + 3)) (s.vm.ip + 3) (op.word :: rhs.words.map Int.ofNat) :=
        hcache.tail
      have hrhs : CodeAt (s.atIp (s.vm.ip + 4)) (s.vm.ip + 4) (rhs.words.map Int.ofNat ++ []) :=
        (List.append_nil _).symm ▸ hop.tail
      have hlength : (Fused.compound (.name n c) op rhs).words.length = 4 + rhs.words.length := by
        simp [Fused.words, instructionWords, Variable.operand, Operand.words]
        omega
      dsimp only
      unfold compoundName
      rw [run_arg hname]
      refine (run_arg hcache).trans ?_
      refine (run_operandOpcode hop).trans ?_
      refine (run_reader hrhs).trans ?_
      rw [hlength, ← Nat.add_assoc]
      rfl
  | indexGet obj idx =>
    rw [run_instruction hcode, handler_indexGetOpcode]
    have hobj : CodeAt (s.atIp (s.vm.ip + 1)) (s.vm.ip + 1)
        (obj.operand.words.map Int.ofNat ++ idx.words.map Int.ofNat) := by
      have := hcode.tail
      rwa [List.map_append] at this
    have hidx : CodeAt (s.atIp (s.vm.ip + 1 + obj.operand.words.length))
        (s.vm.ip + 1 + obj.operand.words.length) (idx.words.map Int.ofNat ++ []) := by
      have := hobj.right
      rw [List.length_map] at this
      exact (List.append_nil _).symm ▸ this
    have hlength : (Fused.indexGet obj idx).words.length =
        1 + obj.operand.words.length + idx.words.length := by
      simp [Fused.words, instructionWords]
      omega
    unfold indexGetFused
    refine (run_reader hobj).trans ?_
    refine (run_reader hidx).trans ?_
    rw [hlength, ← Nat.add_assoc, ← Nat.add_assoc]
    rfl

theorem run_assigns {p : Handler AerVal} (hp : ValueOnly p) (hs : NamesLive s) (h : At site s s x [])
    {w : AerVal → Handler Unit} {k : AerVal → State → End}
    (hk : ∀ r u y, s.Values u → u.runtimeHadError = false → At site s u y [] → y.vm.ip = x.vm.ip →
      EndsAs s x.vm.ip ((w r).run (exec cfg) y) (k r u)) :
    EndsAs s x.vm.ip
      ((do
        let r ← p
        if ← perform .hadError then return
        w r).run (exec cfg) x)
      (.ofRun k (p.run (exec cfg) s)) := by
  have hvalues := run_values cfg hp hs h
  rw [run_bind]
  cases hprun : p.run (exec cfg) s with
  | stop v u =>
    rw [hprun] at hvalues
    obtain ⟨rfl, y, hy⟩ := hvalues
    rw [hy]
    exact ⟨y, rfl⟩
  | done r u =>
    rw [hprun] at hvalues
    obtain ⟨hkept, y, hy, hat, hip⟩ := hvalues
    rw [hy, Outcome.done_andThen, run_bind, perform, run_perform]
    simp only [exec, Outcome.done_andThen, hadError_of_core hat.core, End.ofRun]
    split
    · next hyes => exact ⟨hyes, y, rfl, hat.core⟩
    · next hno => exact hk r u y hkept (Bool.eq_false_iff.mpr hno) hat hip

/-- The operand of a fused instruction, and what follows it. -/
theorem run_reads (h : At site s s x vs) (o : Operand) (ho : o.Sited site s) {ip : Nat}
    {w : AerVal → Handler Unit} {k : AerVal → End}
    (hk : ∀ b y, o.got s = .value b → At site s s y vs → y.vm = x.vm →
      EndsAs s ip ((w b).run (exec cfg) y) (k b)) :
    EndsAs s ip
      ((do
        match ← o.read with
        | none => return
        | some b => w b).run (exec cfg) x)
      ((o.got s).andThen s k) := by
  have hread := run_read cfg h o ho
  rw [run_bind]
  cases hgot : o.got s with
  | value b =>
    rw [hgot] at hread
    obtain ⟨y, hy, hat, hvm⟩ := hread
    rw [hy]
    exact hk b y hgot hat hvm
  | undefined m =>
    rw [hgot] at hread
    obtain ⟨y, hy, hcore, -⟩ := hread
    rw [hy]
    exact ⟨rfl, y, rfl, hcore⟩
  | fault =>
    rw [hgot] at hread
    obtain ⟨y, hy⟩ := hread
    rw [hy]
    exact ⟨y, rfl⟩

theorem run_assigned {a b : AerVal} {op : Opcode} (hs : NamesLive s) (h : At site s s x [])
    {t : Variable} {addr : Addr} (haddr : t.addr s = some addr) {w : AerVal → Handler Unit}
    (hw : ∀ r u z, s.Values u → At site s u z [] → (w r).run (exec cfg) z = z.store addr r) :
    EndsAs s x.vm.ip
      ((do
        let r ← vmBinary a b op
        if ← perform .hadError then return
        w r).run (exec cfg) x)
      (.ofRun (fun r u => t.write u r) ((vmBinary a b op).run (exec cfg) s)) := by
  refine run_assigns (valueOnly_vmBinary a b op) hs h fun r u y hkept hclear hat hip => ?_
  rw [hw r u y hkept hat, ← hip]
  exact hat.stores hclear ((hkept.addr hs t).trans haddr)

/-- Only the load of a dangling variable keeps a fused assignment from going as the plain
one: it comes after the read of the operand. -/
theorem assign_ends (hs : NamesLive s) (h : At site s s x []) {t : Variable} {op : Opcode}
    {rhs : Operand} (ht : t.operand.Sited site s) (hrhs : rhs.Sited site s)
    (hend : (Fused.compound t op rhs).end cfg s ≠ .fault) :
    EndsAs s x.vm.ip ((t.assign op rhs).run (exec cfg) x) ((Fused.compound t op rhs).end cfg s) := by
  cases t with
  | slot i =>
    refine run_reads h (.slot i) ht fun a y hgot hat hvm => ?_
    refine run_reads hat rhs hrhs fun b z _ hat hvm' => ?_
    obtain ⟨addr, haddr⟩ := Option.ne_none_iff_exists'.mp (addr_of_got (v := .slot i) hgot)
    rw [← congrArg Vm.ip hvm, ← congrArg Vm.ip hvm']
    refine run_assigned hs hat haddr fun r u w hkept hat => ?_
    have hslot : w.localSlot i = some addr :=
      (localSlot_of_core hat.core i).trans ((hkept.addr hs (.slot i)).trans haddr)
    rw [perform, run_perform]
    simp only [exec, hslot]
  | name n c =>
    obtain ⟨y, hy, hat, hvm⟩ := exec_resolve cfg h ht.1 ht.2
    cases hget : s.vmScopeGet n with
    | none =>
      have hname : y.nameOf n = s.nameOf n := congrArg (fun s => s.nameOf n) hat.core
      simp only [Variable.assign, vmResolveNameCached, perform, run_bind, run_perform, hy, hget,
        Outcome.done_andThen, Option.isNone_none, if_true, exec_nameOf, hname, Fused.end,
        Variable.operand, Operand.got]
      cases s.nameOf n with
      | none => exact ⟨y, rfl⟩
      | some m => exact ⟨rfl, y.addError _, rfl, addError_of_core hat.core _⟩
    | some addr =>
      cases hread : s.readAddr addr with
      | none =>
        refine absurd ?_ hend
        simp only [Fused.end, Variable.operand, Operand.got, hget, hread, Got.ofOption, Got.andThen]
      | some a =>
        have hgot : (Operand.name n c).got s = .value a := by
          simp only [Operand.got, hget, hread, Got.ofOption]
        have hrun : ((Variable.name n c).assign op rhs).run (exec cfg) x =
            (do
              match ← rhs.read with
              | none => return
              | some b =>
                  let r ← vmBinary (← perform (.load addr)) b op
                  if ← perform .hadError then return
                  perform (.store addr r) : Handler Unit).run (exec cfg) y := by
          simp only [Variable.assign, vmResolveNameCached]
          rw [run_bind, run_bind, perform, run_perform, hy, hget]
          rfl
        have hend : (Fused.compound (.name n c) op rhs).end cfg s = (rhs.got s).andThen s fun b =>
            .ofRun (fun r u => (Variable.name n c).write u r) ((vmBinary a b op).run (exec cfg) s) := by
          simp only [Fused.end, Variable.operand, hgot, Got.andThen]
        rw [hrun, hend]
        refine run_reads hat rhs hrhs fun b z _ hat hvm' => ?_
        have hload : exec cfg (.load addr) z = .done a z := by
          simp only [exec, readAddr_of_core hat.core, hread]
          rfl
        rw [run_bind, perform, run_perform, hload, Outcome.done_andThen, ← congrArg Vm.ip hvm,
          ← congrArg Vm.ip hvm']
        refine run_assigned (t := .name n c) hs hat hget fun r u w _ _ => ?_
        rw [perform, run_perform]
        rfl

theorem indexRead_ends (hs : NamesLive s) (h : At site s s x []) {obj : Variable} {idx : Operand}
    (hobj : obj.operand.Sited site s) (hidx : idx.Sited site s) (hroom : s.vm.stackTop < vmStackMax) :
    EndsAs s x.vm.ip ((indexRead obj.operand idx).run (exec cfg) x)
      ((Fused.indexGet obj idx).end cfg s) := by
  unfold indexRead
  refine run_reads h _ hobj fun a y _ hat hvm => ?_
  refine run_reads hat _ hidx fun b z _ hat hvm' => ?_
  have hvalues := run_values cfg (valueOnly_vmIndexGetCompute a b) hs hat
  rw [run_bind]
  cases hrun : (vmIndexGetCompute a b).run (exec cfg) s with
  | stop v u =>
    rw [hrun] at hvalues
    obtain ⟨rfl, y, hy⟩ := hvalues
    rw [hy]
    exact ⟨y, rfl⟩
  | done r u =>
    rw [hrun] at hvalues
    obtain ⟨-, y, hy, hat, hip⟩ := hvalues
    obtain ⟨w, hw, hat, hip'⟩ := hat.push cfg hroom r
    rw [hy, Outcome.done_andThen, hw, End.ofRun]
    split
    · next hyes => exact ⟨hyes, w, rfl, hat.core⟩
    · next hno =>
      refine ⟨Bool.eq_false_iff.mpr hno, w, rfl, hat.core, hat.stack, ?_⟩
      rw [hip', hip, hvm', hvm]

theorem fused_ends (cfg : Config) {c₁ c₂ c₃ : Nat} {f : Fused} (h : Ready site c₁ c₂ c₃ f s)
    (hcode : CodeAt s s.vm.ip f.words) (hend : f.end cfg s ≠ .fault) :
    EndsAs s (s.vm.ip + f.words.length) (instruction.run (exec cfg) s) (f.end cfg s) := by
  rw [run_fused hcode]
  have hstart := h.start (s.vm.ip + f.words.length)
  cases f with
  | compound t op rhs =>
    exact assign_ends h.names hstart (h.sited _ (by simp [Fused.operands]))
      (h.sited _ (by simp [Fused.operands])) hend
  | indexGet obj idx =>
    have hroom := h.room
    exact indexRead_ends h.names hstart (h.sited _ (by simp [Fused.operands]))
      (h.sited _ (by simp [Fused.operands])) (by omega)

/-! The comparison. -/

theorem values_of_error {k : AerVal → State → End} {p : Handler AerVal} (hp : ValueOnly p)
    (hk : ∀ r u t, k r u ≠ .error t) (h : End.ofRun k (p.run (exec cfg) s) = .error t) :
    s.Values t := by
  have hkept : s.Values (p.run (exec cfg) s).state :=
    Only.run_preserves hp (.refl s) fun o u ho hu => hu.trans (exec_values cfg ho u)
  cases hrun : p.run (exec cfg) s with
  | stop w u =>
    rw [hrun] at h
    cases h
  | done r u =>
    rw [hrun] at h hkept
    simp only [End.ofRun] at h
    split at h
    · cases h
      exact hkept
    · exact absurd h (hk r u t)

theorem values_of_got {g : Got} {k : AerVal → End} (hk : ∀ a, k a = .error t → s.Values t)
    (h : g.andThen s k = .error t) : s.Values t := by
  cases g with
  | value a => exact hk a h
  | undefined m =>
    cases h
    exact exec_values {} (o := .error m) rfl s
  | fault => cases h

/-- An error leaves the variables and the collections as they were. -/
theorem end_error {f : Fused} (h : f.end cfg s = .error t) : s.Values t := by
  cases f with
  | compound v op rhs =>
    refine values_of_got (fun a ha => values_of_got (fun b hb => ?_) ha) h
    refine values_of_error (valueOnly_vmBinary a b op) (fun r u t ht => ?_) hb
    unfold Variable.write at ht
    split at ht
    · split at ht <;> cases ht
    · cases ht
  | indexGet obj idx =>
    refine values_of_got (fun a ha => values_of_got (fun b hb => ?_) ha) h
    exact values_of_error (valueOnly_vmIndexGetCompute a b) (fun r u t ht => End.noConfusion ht) hb

/-- Two ends of a run from `s`: the same bindings, heap and error messages, without an error
also the same value stack, and with one no variable and no collection changed. -/
structure SameEnd (s v u : State) : Prop where
  core : v.core = u.core
  stackTop : u.runtimeHadError = false → v.vm.stackTop = u.vm.stackTop
  stack : u.runtimeHadError = false → ∀ i < u.vm.stackTop, v.vm.stack i = u.vm.stack i
  scopes : u.runtimeHadError = true → v.vm.scopes = s.vm.scopes
  boxes : u.runtimeHadError = true → v.heap.boxes = s.heap.boxes
  entries : u.runtimeHadError = true → v.heap.entries = s.heap.entries
  arrays : u.runtimeHadError = true → v.heap.arrays = s.heap.arrays
  dicts : u.runtimeHadError = true → v.heap.dicts = s.heap.dicts

theorem StackIs.unique {x y : State} {vs : List AerVal} (hx : StackIs s x vs) (hy : StackIs s y vs) :
    x.vm.stackTop = y.vm.stackTop ∧ ∀ i < y.vm.stackTop, x.vm.stack i = y.vm.stack i := by
  refine ⟨hx.top.trans hy.top.symm, fun i hi => ?_⟩
  rw [hy.top] at hi
  by_cases hlow : i < s.vm.stackTop
  · rw [hx.below i hlow, hy.below i hlow]
  · obtain ⟨j, rfl⟩ := Nat.exists_eq_add_of_le (Nat.le_of_not_lt hlow)
    rw [hx.above j (by omega), hy.above j (by omega)]

/-- A fused instruction does what the instructions it replaces do, unless these run into
undefined behaviour. -/
theorem fused_refines (cfg : Config) {site : Nat → Nat} {c₁ c₂ c₃ : Nat} {f : Fused} {s : State}
    (h : Ready site c₁ c₂ c₃ f s) (hop : f.op.isBinary = true) (hcode : CodeAt s s.vm.ip f.words)
    {q : Nat} (hplain : CodeAt s q (f.plainWords c₁ c₂ c₃)) :
    (∃ u, (instructions (f.plain c₁ c₂ c₃).length).run (exec cfg) (s.atIp q) = .stop .fault u) ∨
      ∃ v u, instruction.run (exec cfg) s = .done () v ∧
        (instructions (f.plain c₁ c₂ c₃).length).run (exec cfg) (s.atIp q) = .done () u ∧
        SameEnd s v u ∧
        (u.runtimeHadError = false → v.vm.ip = s.vm.ip + f.words.length ∧
          u.vm.ip = q + (f.plainWords c₁ c₂ c₃).length) := by
  have hunfused := plain_ends cfg h hop hplain
  have hfused := fused_ends cfg h hcode
  cases hend : f.end cfg s with
  | fault =>
    rw [hend] at hunfused
    exact .inl hunfused
  | error t =>
    rw [hend] at hunfused hfused
    obtain ⟨hyes, u, hu, hcore⟩ := hunfused
    obtain ⟨-, v, hv, hcore'⟩ := hfused End.noConfusion
    have hkept := end_error hend
    have herr : u.runtimeHadError = true := (hadError_of_core hcore).trans hyes
    have hclear : ∀ {P : Prop}, u.runtimeHadError = false → P := fun hno =>
      absurd (herr.symm.trans hno) (by decide)
    have hheap : v.heap = t.heap := heap_of_core hcore'
    have hscopes : v.vm.scopes = t.vm.scopes := congrArg (fun s => s.vm.scopes) hcore'
    refine .inr ⟨v, u, hv, hu, ⟨hcore'.trans hcore.symm, hclear, hclear, fun _ => ?_, fun _ => ?_,
      fun _ => ?_, fun _ => ?_, fun _ => ?_⟩, hclear⟩
    · rw [hscopes, hkept.vm]
    · rw [hheap, hkept.boxes]
    · rw [hheap, hkept.entries]
    · rw [hheap, hkept.arrays]
    · rw [hheap, hkept.dicts]
  | done t vs =>
    rw [hend] at hunfused hfused
    obtain ⟨hno, u, hu, hcore, hstack, hip⟩ := hunfused
    obtain ⟨-, v, hv, hcore', hstack', hip'⟩ := hfused End.noConfusion
    have hclear : u.runtimeHadError = false := (hadError_of_core hcore).trans hno
    have herr : ∀ {P : Prop}, u.runtimeHadError = true → P := fun hyes =>
      absurd (hclear.symm.trans hyes) (by decide)
    obtain ⟨htop, hslots⟩ := hstack'.unique hstack
    exact .inr ⟨v, u, hv, hu, ⟨hcore'.trans hcore.symm, fun _ => htop, fun _ => hslots, herr, herr,
      herr, herr, herr⟩, fun _ => ⟨hip', hip⟩⟩

/-! `x += 1`, fused at 0 and plain at 5. -/

def increment : Fused := .compound (.name 0 0) .add (.const 1)

/-- A machine about to run it, with no variable `x`. -/
def beforeIncrement : State :=
  let (name, heap) := Heap.init.aerMakeString (bytes "x")
  { State.init with
    heap
    chunk := { Chunk.init with
      code := increment.words ++ increment.plainWords 0 0 0
      pool := [name, .integer ⟨1, isInt47_one⟩]
      addrCache := [none] } }

theorem ready_beforeIncrement {t : State} (hheap : t.heap = beforeIncrement.heap)
    (hchunk : t.chunk = beforeIncrement.chunk) (hclear : t.runtimeHadError = false)
    (htop : t.vm.stackTop = 0) : Ready (fun _ => 0) 0 0 0 increment t where
  names := by
    have hpools : Heap.init.PoolsWf := Heap.poolsWf_init
    have hallocated := Heap.allocated_aerMakeString hpools (bytes "x")
    refine ⟨hheap ▸ hallocated.wf hpools, fun c hc => ?_⟩
    rw [hchunk] at hc
    rw [hheap]
    rcases List.mem_cons.mp hc with hc | hc
    · exact (hallocated.live (.string c)).mpr (.inl (congrArg Cell.string (AerVal.string.inj hc)))
    · rw [List.mem_singleton] at hc
      cases hc
  caches c a hc := by
    rw [hchunk] at hc
    cases c with
    | zero => cases hc
    | succ c => cases hc
  sited := by
    have hcache : 0 < t.chunk.addrCache.length := by
      rw [hchunk]
      decide
    intro o ho
    change o ∈ [Operand.name 0 0, .const 1, .name 0 0, .const 1, .name 0 0] at ho
    simp only [List.mem_cons, List.not_mem_nil, or_false] at ho
    rcases ho with rfl | rfl | rfl | rfl | rfl
    exacts [⟨rfl, hcache⟩, trivial, ⟨rfl, hcache⟩, trivial, ⟨rfl, hcache⟩]
  clear := hclear
  room := by
    rw [htop]
    decide

def beforeIncrementOf (x : AerVal) : State := beforeIncrement.vmScopeDefine 0 x

/-- Defined, `x` is incremented by both. -/
theorem fused_refines_increment :
    ∃ v u, instruction.run (exec {}) (beforeIncrementOf (.integer ⟨41, by decide⟩)) =
        .done () v ∧
      (instructions 4).run (exec {})
        ((beforeIncrementOf (.integer ⟨41, by decide⟩)).atIp 5) = .done () u ∧
      SameEnd (beforeIncrementOf (.integer ⟨41, by decide⟩)) v u ∧
      (u.runtimeHadError = false → v.vm.ip = 5 ∧ u.vm.ip = 14) := by
  refine (fused_refines {} (s := beforeIncrementOf (.integer ⟨41, by decide⟩))
    (ready_beforeIncrement rfl rfl rfl rfl) (by decide) ⟨_, rfl⟩ (q := 5) ⟨_, rfl⟩).resolve_left ?_
  rintro ⟨u, hu⟩
  have hdone : ((instructions 4).run (exec {})
      ((beforeIncrementOf (.integer ⟨41, by decide⟩)).atIp 5)).isDone = true := by
    decide +kernel
  rw [show (increment.plain 0 0 0).length = 4 from rfl] at hu
  rw [hu] at hdone
  cases hdone

/-- Without a variable `x` the plain sequence leaves the null of the failed load on the
value stack, and the fused instruction leaves nothing. -/
theorem fused_error_stack :
    ¬ ∀ (cfg : Config) (site : Nat → Nat) (c₁ c₂ c₃ : Nat) (f : Fused) (s : State) (q : Nat) (v u : State),
      Ready site c₁ c₂ c₃ f s → f.op.isBinary = true → CodeAt s s.vm.ip f.words →
      CodeAt s q (f.plainWords c₁ c₂ c₃) → instruction.run (exec cfg) s = .done () v →
      (instructions (f.plain c₁ c₂ c₃).length).run (exec cfg) (s.atIp q) = .done () u →
      v.vm.stackTop = u.vm.stackTop := by
  intro h
  have hfused : (instruction.run (exec {}) beforeIncrement).isDone = true := by decide +kernel
  have hplain : ((instructions 4).run (exec {}) (beforeIncrement.atIp 5)).isDone = true := by
    decide +kernel
  have htop := h {} _ 0 0 0 increment beforeIncrement 5 _ _ (ready_beforeIncrement rfl rfl rfl rfl)
    (by decide) ⟨_, rfl⟩ ⟨_, rfl⟩ (Outcome.eq_done_of_isDone hfused)
    (Outcome.eq_done_of_isDone hplain)
  exact absurd htop (by decide +kernel)

end Aer.Machine
