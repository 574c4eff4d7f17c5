import Aer.Machine.Calls
import Aer.Program.Source

set_option linter.all false

/-! The same call made by name, through a function value and as a deferred call. -/
namespace Aer.Machine

open Aer.Data Aer.Memory Aer.Lib.Interaction

namespace State

/-- A machine in which a call finds the same operands and data. -/
structure SameOperands (s t : State) : Prop where
  heap : t.heap = s.heap
  stack : t.vm.stack = s.vm.stack
  stackTop : t.vm.stackTop = s.vm.stackTop
  callDepth : t.vm.callDepth = s.vm.callDepth

namespace SameOperands

variable {s t : State} (h : SameOperands s t)
include h

theorem withOperands (vs : List AerVal) : SameOperands (s.withOperands vs) (t.withOperands vs) where
  heap := h.heap
  stack := by simp only [State.withOperands, h.stack, h.stackTop]
  stackTop := by rw [withOperands_stackTop, withOperands_stackTop, h.stackTop]
  callDepth := h.callDepth

theorem topArgs (n : Nat) : t.topArgs n = s.topArgs n := by
  simp only [State.topArgs, h.stack, h.stackTop]

theorem functionData (cell : Nat) : t.functionData cell = s.functionData cell := by
  simp only [State.functionData, h.heap]

theorem instance? (v : AerVal) (typeIdx : Nat) : t.instance? v typeIdx = s.instance? v typeIdx := by
  simp only [State.instance?, State.arrayData, h.heap]

end SameOperands

theorem SameOperands.trans {s t u : State} (h : SameOperands s t) (h' : SameOperands t u) :
    SameOperands s u :=
  ⟨h'.heap.trans h.heap, h'.stack.trans h.stack, h'.stackTop.trans h.stackTop,
    h'.callDepth.trans h.callDepth⟩

/-- A machine in which names stand for the same variables, with the same values. -/
structure SameNames (s t : State) : Prop where
  heap : t.heap = s.heap
  pool : t.chunk.pool = s.chunk.pool
  scopes : t.vm.scopes = s.vm.scopes
  scopeDepth : t.vm.scopeDepth = s.vm.scopeDepth
  scopeFloor : t.vm.scopeFloor = s.vm.scopeFloor

namespace SameNames

variable {s t : State} (h : SameNames s t)
include h

theorem vmScopeGet (name : Nat) : t.vmScopeGet name = s.vmScopeGet name := by
  have hplace : t.placeIn name = s.placeIn name := by
    funext i
    simp only [placeIn, State.nameText, Chunk.nameText, h.heap, h.pool, h.scopes]
  have haddr : t.placeAddr = s.placeAddr := by
    funext p
    cases p <;> simp only [placeAddr, h.scopes]
  simp only [State.vmScopeGet, locate, Vm.scopeChain, h.scopeDepth, h.scopeFloor, hplace, haddr]

theorem readAddr (a : Addr) : t.readAddr a = s.readAddr a := by
  cases a <;> simp only [State.readAddr, h.heap, h.scopes, h.scopeDepth]

theorem trans {u : State} (h' : SameNames t u) : SameNames s u :=
  ⟨h'.heap.trans h.heap, h'.pool.trans h.pool, h'.scopes.trans h.scopes,
    h'.scopeDepth.trans h.scopeDepth, h'.scopeFloor.trans h.scopeFloor⟩

end SameNames

/-- Operands and names stay as they are when a frame changes its deferred calls or its
return value. -/
theorem updateFrame_done {s : State} {g : CallFrame} (h : s.topFrame = some g)
    {f : CallFrame → CallFrame} (hf : (f g).returnScopeDepth = g.returnScopeDepth) :
    ∃ t, s.updateFrame f = .done () t ∧ SameOperands s t ∧ SameNames s t ∧
      t.topFrame = some (f g) := by
  have hpos : s.vm.callDepth ≠ 0 := by
    intro h0
    rw [topFrame, if_pos h0] at h
    cases h
  have hg : s.vm.callStack (s.vm.callDepth - 1) = g := by
    rw [topFrame, if_neg hpos] at h
    exact Option.some.inj h
  refine ⟨{ s with vm := s.vm.setFrame (s.vm.callDepth - 1) (f g) }, ?_, ⟨rfl, rfl, rfl, rfl⟩,
    ⟨rfl, rfl, rfl, rfl, ?_⟩, ?_⟩
  · rw [updateFrame, h]
  · simp only [Vm.scopeFloor, Vm.setFrame, Function.update_self, hf, hg]
  · simp only [topFrame, Vm.setFrame, Function.update_self, if_neg hpos]

/-- Moved one slot down, the operands are the same. -/
theorem slide_topArgs (s : State) {n : Nat} (hn : n < s.vm.stackTop) :
    (s.slide n).topArgs n = s.topArgs n := by
  unfold topArgs
  refine List.map_congr_left fun i hi => ?_
  have hi := List.mem_range.mp hi
  have h1 : s.vm.stackTop - 1 - n + i + 1 = s.vm.stackTop - n + i := by omega
  have h2 : s.vm.stackTop - n - 1 ≤ s.vm.stackTop - 1 - n + i ∧
      s.vm.stackTop - 1 - n + i < s.vm.stackTop - 1 := by omega
  simp only [slide, h2, and_self, ↓reduceIte, h1]

end State

/-- The checks of a call with arguments on the machine's operands, where `v` is looked at
as the receiver. -/
structure Checks (s : State) (f : AerFunction) (args : List AerVal) (v : AerVal) : Prop where
  least : f.minArity ≤ args.length
  most : args.length ≤ f.arity
  depth : s.vm.callDepth < vmCallMax
  room : s.vm.stackTop + f.arity ≤ vmStackMax
  receiver : f.hasReceiver = true → s.instance? v f.receiverType = some true

theorem Checks.length {s : State} {f : AerFunction} {args : List AerVal} {v : AerVal}
    (h : Checks s f args v) (hreg : AerFunction.Regular f) :
    (args ++ omittedDefaults f args.length).length = f.arity := by
  rw [List.length_append, hreg.omitted h.least]
  exact Nat.add_sub_cancel' h.most

section Checks
variable {s t : State} {f : AerFunction} {args : List AerVal} (h : State.SameOperands (s.withOperands args) t)
include h

/-- With the receiver omitted, a call through a value looks at the slot above the stack. -/
theorem setup_iff :
    Setup t f args.length ↔ Checks s f args (args.head?.getD (s.vm.stack s.vm.stackTop)) := by
  have htop : t.vm.stackTop = s.vm.stackTop + args.length := h.stackTop
  have hfirst : t.vm.stack (t.vm.stackTop - args.length) =
      args.head?.getD (s.vm.stack s.vm.stackTop) := by
    rw [htop, Nat.add_sub_cancel, h.stack, s.withOperands_first]
  have hinst := h.instance? (args.head?.getD (s.vm.stack s.vm.stackTop)) f.receiverType
  have hdepth : t.vm.callDepth = s.vm.callDepth := h.callDepth
  constructor
  · intro hc
    have hle := hc.most
    have hroom := hc.room
    refine ⟨hc.least, hle, hdepth ▸ hc.depth, by omega, fun hr => ?_⟩
    rw [← hc.receiver hr, hfirst, hinst]
    rfl
  · intro hc
    have hle := hc.most
    have hroom := hc.room
    refine ⟨hc.least, hle, fun hr => ?_, hdepth ▸ hc.depth, by omega⟩
    rw [hfirst, hinst]
    exact hc.receiver hr

/-- With the receiver omitted, a call by name looks at its default. -/
theorem setupByName_iff :
    SetupByName t f args.length ↔
      Checks s f args ((args ++ omittedDefaults f args.length).head?.getD
        (s.vm.stack s.vm.stackTop)) := by
  have htop : t.vm.stackTop = s.vm.stackTop + args.length := h.stackTop
  have hdefaults := h.withOperands (omittedDefaults f args.length)
  rw [s.withOperands_withOperands] at hdefaults
  have hfirst : (t.withOperands (omittedDefaults f args.length)).vm.stack
      (t.vm.stackTop - args.length) =
        (args ++ omittedDefaults f args.length).head?.getD (s.vm.stack s.vm.stackTop) := by
    rw [htop, Nat.add_sub_cancel, hdefaults.stack, s.withOperands_first]
  have hinst : ∀ v, t.instance? v f.receiverType = s.instance? v f.receiverType :=
    fun v => h.instance? v f.receiverType
  have hdepth : t.vm.callDepth = s.vm.callDepth := h.callDepth
  constructor
  · intro hc
    have hle := hc.most
    have hroom := hc.room
    refine ⟨hc.least, hle, hdepth ▸ hc.depth, by omega, fun hr => ?_⟩
    rw [← hc.receiver hr, hfirst, hinst]
  · intro hc
    have hle := hc.most
    have hroom := hc.room
    refine ⟨hc.least, hle, by omega, fun hr => ?_, hdepth ▸ hc.depth⟩
    rw [hfirst, hinst]
    exact hc.receiver hr

end Checks

/-- The function that a call has entered, where it goes on, and the values it binds to
the parameters; `none` for a call that is not entered. -/
def entered {α : Type} (depth arity : Nat) : Result α → Option (Nat × Nat × List AerVal)
  | .done _ t =>
      if t.vm.callDepth = depth + 1 then
        some ((t.vm.callStack depth).function, t.vm.ip, t.topArgs arity)
      else none
  | .stop _ _ => none

/-- A call that passes its checks is entered with `b`, any other is not. -/
structure Enters {β : Type} (accepts : Prop) (b : β) (o : Option β) : Prop where
  accepted : accepts → o = some b
  declined : ¬ accepts → o = none

theorem Enters.eq_iff {β : Type} {A B : Prop} {b : β} {o q : Option β} (h : Enters A b o)
    (h' : Enters B b q) : o = q ↔ (A ↔ B) := by
  by_cases hA : A <;> by_cases hB : B
  · simp only [h.accepted hA, h'.accepted hB, hA, hB]
  · simp only [h.accepted hA, h'.declined hB, hA, hB, reduceCtorEq, iff_false, not_true_eq_false]
  · simp only [h.declined hA, h'.accepted hB, hA, hB, reduceCtorEq, iff_true]
  · simp only [h.declined hA, h'.declined hB, hA, hB]

theorem entered_done {α : Type} {a : α} {depth arity : Nat} {t : State}
    (h : t.vm.callDepth = depth + 1) :
    entered depth arity (.done a t) =
      some ((t.vm.callStack depth).function, t.vm.ip, t.topArgs arity) :=
  if_pos h

theorem NotEntered.entered {depth arity : Nat} {r : Result Unit} (h : NotEntered depth r) :
    entered depth arity r = none := by
  cases h with
  | done hdepth => exact if_neg (by omega)
  | stop => rfl

theorem State.SameOperands.enter {s t : State} {f : AerFunction} {args : List AerVal}
    (h : State.SameOperands (s.withOperands args) t)
    (hlength : (args ++ omittedDefaults f args.length).length = f.arity) (cell returnIp : Nat) :
    let u := (t.withOperands (omittedDefaults f args.length)).enter cell returnIp f.codeOffset
    u.vm.callDepth = s.vm.callDepth + 1 ∧ (u.vm.callStack s.vm.callDepth).function = cell ∧
      u.vm.ip = f.codeOffset ∧ u.topArgs f.arity = args ++ omittedDefaults f args.length := by
  have hdefaults := h.withOperands (omittedDefaults f args.length)
  rw [s.withOperands_withOperands] at hdefaults
  have hdepth : t.vm.callDepth = s.vm.callDepth := h.callDepth
  have hframe : ∀ (stack : Nat → CallFrame) (frame : CallFrame),
      Function.update stack t.vm.callDepth frame s.vm.callDepth = frame :=
    fun _ _ => by rw [hdepth, Function.update_self]
  refine ⟨congrArg (· + 1) hdepth, congrArg CallFrame.function (hframe _ _), rfl, ?_⟩
  calc State.topArgs _ f.arity
      = (s.withOperands (args ++ omittedDefaults f args.length)).topArgs f.arity :=
        hdefaults.topArgs f.arity
    _ = args ++ omittedDefaults f args.length := by rw [← hlength, s.topArgs_withOperands]

/-- The code words of the three calls: where the operands of `OP_CALL` and of
`OP_CALL_VALUE` lie, and what the first of them are. -/
structure CallSites where
  nameIdx : Nat
  cacheIdx : Nat
  callIp : Nat
  valueIp : Nat

/-- A machine at which the function can be called with the arguments in all three ways:
it is the top operand, a name is bound to it, and the frame has the call deferred. -/
structure Callable (s : State) (p : CallSites) (cell : Nat) (f : AerFunction)
    (args : List AerVal) : Prop where
  function : s.functionData cell = some f
  regular : AerFunction.Regular f
  operand : 0 < s.vm.stackTop ∧ s.vm.stack (s.vm.stackTop - 1) = .function cell
  room : s.vm.stackTop + args.length ≤ vmStackMax
  callCode : s.chunk.code[p.callIp]? = some (.ofNat p.nameIdx) ∧
    s.chunk.code[p.callIp + 1]? = some (.ofNat args.length) ∧
    s.chunk.code[p.callIp + 2]? = some (.ofNat p.cacheIdx)
  valueCode : s.chunk.code[p.valueIp]? = some (.ofNat args.length)
  name : ∃ c, s.chunk.pool[p.nameIdx]? = some (.string c) ∧ (s.stringData c).isSome = true
  bound : ∃ a ∈ s.vmScopeGet p.nameIdx, s.readAddr a = some (.function cell)
  cacheSlot : p.cacheIdx < s.chunk.addrCache.length
  cached : ∀ a ∈ s.chunk.addrCache.getD p.cacheIdx none, s.readAddr a = some (.function cell)
  pending : 0 < s.vm.callDepth ∧
    (s.vm.callStack (s.vm.callDepth - 1)).defers.head? = some ⟨p.nameIdx, args⟩

section Paths
variable (cfg : Config) (s : State) (p : CallSites) (args : List AerVal)

def byName : Result Unit :=
  (lblCall false).run (exec cfg) ((s.withOperands args).atIp p.callIp)

def byValue : Result Unit :=
  lblCallValue.run (exec cfg) ((s.withOperands args).atIp p.valueIp)

/-- The frame returns a value, and the deferred call is the first to run. -/
def deferred (returned : AerVal) : Result Unit :=
  lblReturn.run (exec cfg) (s.withOperands [returned])

end Paths

theorem exec_nameText (cfg : Config) {s t : State} {i : Nat}
    (h : ∃ c, s.chunk.pool[i]? = some (.string c) ∧ (s.stringData c).isSome = true)
    (hpool : t.chunk.pool = s.chunk.pool) (hheap : t.heap = s.heap) :
    ∃ text, exec cfg (.nameText i) t = .done text t := by
  obtain ⟨c, hc, hdata⟩ := h
  obtain ⟨b, hb⟩ := Option.isSome_iff_exists.mp hdata
  have ht : t.stringData c = some b := by
    rw [← hb]
    unfold State.stringData
    rw [hheap]
  refine ⟨cString b, ?_⟩
  rw [exec, hpool, hc]
  simp only [ht]
  rfl

/-- The name is resolved to the function, whether or not its address was cached. -/
theorem resolve_function (caching : Bool) {s : State} {cell name cache : Nat}
    (hslot : cache < s.chunk.addrCache.length)
    (hcached : ∀ a ∈ s.chunk.addrCache.getD cache none, s.readAddr a = some (.function cell))
    (hbound : ∃ a ∈ s.vmScopeGet name, s.readAddr a = some (.function cell)) :
    ∃ a addrCache, s.readAddr a = some (.function cell) ∧
      s.resolve caching name cache =
        .done (some a) { s with chunk := { s.chunk with addrCache } } := by
  obtain ⟨b, hb, hread⟩ := hbound
  unfold State.resolve
  rw [if_pos hslot]
  cases hc : (if caching then s.chunk.addrCache.getD cache none else none) with
  | some a =>
    refine ⟨a, s.chunk.addrCache, hcached a ?_, rfl⟩
    split at hc
    · exact hc
    · cases hc
  | none =>
    rw [show s.vmScopeGet name = some b from hb]
    simp only
    split
    · exact ⟨b, _, hread, rfl⟩
    · exact ⟨b, s.chunk.addrCache, hread, rfl⟩

section Callable
variable (cfg : Config) {s : State} {p : CallSites} {cell : Nat} {f : AerFunction}
  {args : List AerVal} (h : Callable s p cell f args)
include h

/-- A call by name reaches the checks of the function. -/
theorem byName_eq : ∃ name t, byName cfg s p args =
      (callFunction false name cell args.length).run (exec cfg) t ∧
    State.SameOperands (s.withOperands args) t := by
  obtain ⟨hname, hcount, hcache⟩ := h.callCode
  let u := (s.withOperands args).atIp p.callIp
  have h1 : exec cfg .readIdx u = .done p.nameIdx (u.atIp (p.callIp + 1)) := exec_readIdx cfg hname
  have h2 : exec cfg .readIdx (u.atIp (p.callIp + 1)) = .done args.length (u.atIp (p.callIp + 2)) :=
    exec_readIdx cfg hcount
  have h3 : exec cfg .readIdx (u.atIp (p.callIp + 2)) = .done p.cacheIdx (u.atIp (p.callIp + 3)) :=
    exec_readIdx cfg hcache
  obtain ⟨a, addrCache, hread, hresolve⟩ :=
    resolve_function cfg.caching (s := u.atIp (p.callIp + 3)) h.cacheSlot h.cached h.bound
  let t : State :=
    { u.atIp (p.callIp + 3) with chunk := { (u.atIp (p.callIp + 3)).chunk with addrCache } }
  have hcall : exec cfg (.resolve p.nameIdx p.cacheIdx) (u.atIp (p.callIp + 3)) =
      .done (some a) t := hresolve
  obtain ⟨name, htext⟩ := exec_nameText cfg (t := t) h.name rfl rfl
  have hload : exec cfg (.load a) t = .done (.function cell) t := by
    change orFault (s.readAddr a) t = _
    rw [show s.readAddr a = _ from hread]
    rfl
  refine ⟨name, t, ?_, ⟨rfl, rfl, rfl, rfl⟩⟩
  unfold byName lblCall perform
  simp only [run_bind, run_perform, u, h1, h2, h3, hcall, htext, hload, Outcome.done_andThen]

theorem entered_byName :
    Enters (Checks s f args ((args ++ omittedDefaults f args.length).head?.getD
        (s.vm.stack s.vm.stackTop)))
      (cell, f.codeOffset, args ++ omittedDefaults f args.length)
      (entered s.vm.callDepth f.arity (byName cfg s p args)) := by
  obtain ⟨name, t, hrun, hsame⟩ := byName_eq cfg h
  have hf : t.functionData cell = some f := (hsame.functionData cell).trans h.function
  have htop : t.vm.stackTop = s.vm.stackTop + args.length := hsame.stackTop
  have hdepth : t.vm.callDepth = s.vm.callDepth := hsame.callDepth
  have hroom := h.room
  rw [hrun]
  constructor
  · intro hc
    rw [run_callFunction cfg hf h.regular (by omega) ((setupByName_iff hsame).mpr hc)]
    obtain ⟨hdepth, hcell, hip, hargs⟩ := hsame.enter (hc.length h.regular) cell t.vm.ip
    rw [entered_done hdepth, hcell, hip, hargs]
  · intro hc
    rw [← hdepth]
    exact (callFunction_notEntered cfg hf h.regular (by omega)
      (fun hn => hc ((setupByName_iff hsame).mp hn)) (by omega) name).entered

/-- A call through a value reaches the shared set-up. -/
theorem byValue_eq : ∃ t, byValue cfg s p args =
      ((vmSetupCall (.function cell) args.length t.vm.ip).run (exec cfg) t).andThen (fun ok t =>
        (if ok then do perform (.slide (← perform (.function cell)).arity)
          else do
            popN (args.length + 1)
            push .null : Handler Unit).run (exec cfg) t) ∧
    State.SameOperands (s.withOperands args) t := by
  let u := (s.withOperands args).atIp p.valueIp
  let t := u.atIp (p.valueIp + 1)
  have h1 : exec cfg .readIdx u = .done args.length t := exec_readIdx cfg h.valueCode
  have hpeek : exec cfg (.peek args.length) t = .done (.function cell) t := by
    obtain ⟨hpos, hoperand⟩ := h.operand
    have htop : t.vm.stackTop = s.vm.stackTop + args.length := rfl
    have hidx : t.vm.stackTop - 1 - args.length = s.vm.stackTop - 1 := by
      rw [htop]
      omega
    have hstack : t.vm.stack (t.vm.stackTop - 1 - args.length) = .function cell := by
      rw [hidx]
      exact (s.withOperands_below args (by omega)).trans hoperand
    change (if args.length < t.vm.stackTop then
      Outcome.done (t.vm.stack (t.vm.stackTop - 1 - args.length)) t else _) = _
    rw [if_pos (by omega), hstack]
  have hip : exec cfg .getIp t = .done t.vm.ip t := rfl
  refine ⟨t, ?_, ⟨rfl, rfl, rfl, rfl⟩⟩
  unfold byValue lblCallValue perform
  simp only [run_bind, run_perform, u, h1, hpeek, hip, Outcome.done_andThen]

theorem entered_byValue :
    Enters (Checks s f args (args.head?.getD (s.vm.stack s.vm.stackTop)))
      (cell, f.codeOffset, args ++ omittedDefaults f args.length)
      (entered s.vm.callDepth f.arity (byValue cfg s p args)) := by
  obtain ⟨t, hrun, hsame⟩ := byValue_eq cfg h
  have hf : t.functionData cell = some f := (hsame.functionData cell).trans h.function
  have htop : t.vm.stackTop = s.vm.stackTop + args.length := hsame.stackTop
  have hdepth : t.vm.callDepth = s.vm.callDepth := hsame.callDepth
  have hn : args.length ≤ t.vm.stackTop := by omega
  rw [hrun]
  constructor
  · intro hc
    rw [run_vmSetupCall cfg hf h.regular hn ((setup_iff hsame).mpr hc), Outcome.done_andThen,
      if_pos rfl]
    obtain ⟨hdepth, hcell, hip, hargs⟩ := hsame.enter (hc.length h.regular) cell t.vm.ip
    let u := (t.withOperands (omittedDefaults f args.length)).enter cell t.vm.ip f.codeOffset
    have hfu : exec cfg (.function cell) u = .done f u := exec_function cfg hf
    have harity : f.arity < u.vm.stackTop := by
      have hpos := h.operand.1
      have hmost := hc.most
      change f.arity < t.vm.stackTop + (omittedDefaults f args.length).length
      rw [h.regular.omitted hc.least]
      omega
    have hslide : exec cfg (.slide f.arity) u = .done () (u.slide f.arity) := if_pos harity
    unfold perform
    rw [run_bind, run_perform, hfu, Outcome.done_andThen, run_perform, hslide,
      entered_done (t := u.slide f.arity) hdepth, u.slide_topArgs harity, hargs]
    change some ((u.vm.callStack _).function, u.vm.ip, _) = _
    rw [hcell, hip]
  · intro hc
    have hdeclined := vmSetupCall_declined cfg hf hn
      (fun hn => hc ((setup_iff hsame).mp hn)) t.vm.ip
    rw [hdepth] at hdeclined
    generalize (vmSetupCall (.function cell) args.length t.vm.ip).run (exec cfg) t = r at hdeclined
    cases hdeclined with
    | error hd _ =>
      rw [Outcome.done_andThen, if_neg Bool.false_ne_true, run_bind]
      exact (notEntered_popN cfg hd _).entered
    | stop => rfl

/-- The machine with a value in the slot above its operands. -/
def State.withDead (s : State) (v : AerVal) : State :=
  { s with vm := s.vm.setStack s.vm.stackTop v }

omit h in
/-- A value that has been pushed and popped again stays in the slot above the operands. -/
theorem pop_withOperands (s : State) (v : AerVal) :
    (s.withOperands [v]).pop = .done v (s.withDead v) := by
  have hstack : (s.withOperands [v]).vm.stack = Function.update s.vm.stack s.vm.stackTop v := by
    funext i
    rcases Nat.lt_trichotomy i s.vm.stackTop with hlt | rfl | hlt
    · rw [s.withOperands_below [v] hlt, Function.update_of_ne hlt.ne]
    · rw [s.withOperands_first, Function.update_self]
      rfl
    · have hi : ¬ i < s.vm.stackTop := by omega
      have hle : [v].length ≤ i - s.vm.stackTop := Nat.sub_pos_of_lt hlt
      simp only [State.withOperands, hi, ↓reduceIte, List.getElem?_eq_none hle, Option.getD_none,
        Function.update_of_ne hlt.ne']
  have hfirst : (s.withOperands [v]).vm.stack s.vm.stackTop = v := s.withOperands_first [v]
  unfold State.pop
  rw [if_neg (show ¬ (s.withOperands [v]).vm.stackTop = 0 from Nat.succ_ne_zero _)]
  change Outcome.done ((s.withOperands [v]).vm.stack s.vm.stackTop)
    { s with vm := { s.vm with stack := (s.withOperands [v]).vm.stack } } = _
  rw [hfirst, hstack]
  rfl

/-- One turn of the loop over the deferred calls ends the instruction. -/
inductive Turned (depth : Nat) : Result Bool → Prop
  | error {t : State} : t.vm.callDepth = depth → Turned depth (.done true t)
  | stop (w : Stop) (t : State) : Turned depth (.stop w t)

/-- A turn of the loop over the deferred calls reaches the shared set-up. -/
theorem drainDefers_eq {w : State} {g : CallFrame} (hnames : State.SameNames s w)
    (hg : w.topFrame = some g) (hdefers : g.defers.head? = some ⟨p.nameIdx, args⟩)
    (htop : w.vm.stackTop = s.vm.stackTop) (returnAddr fuel : Nat) :
    ∃ t, (drainDefers returnAddr (fuel + 1)).run (exec cfg) w =
        ((vmSetupCall (.function cell) args.length returnAddr).run (exec cfg) t).andThen
          (fun ok t => (if ok then return true else do
            popN args.length
            if ← perform .hadError then return true
            drainDefers returnAddr fuel : Handler Bool).run (exec cfg) t) ∧
      State.SameOperands (w.withOperands args) t := by
  obtain ⟨rest, hrest⟩ : ∃ rest, g.defers = ⟨p.nameIdx, args⟩ :: rest :=
    ⟨_, List.eq_cons_of_mem_head? hdefers⟩
  obtain ⟨t, hset, hsame, hnames', -⟩ := State.updateFrame_done hg
    (f := fun f => { f with defers := rest }) rfl
  have hnames := hnames.trans hnames'
  obtain ⟨name, htext⟩ := exec_nameText cfg (t := t) h.name hnames.pool hnames.heap
  obtain ⟨a, ha, hread⟩ := h.bound
  have h1 : exec cfg .frameDefers w = .done (⟨p.nameIdx, args⟩ :: rest) w := by
    change orFault (w.topFrame.map CallFrame.defers) w = _
    rw [hg, Option.map_some, hrest]
    rfl
  have h2 : exec cfg (.setDefers rest) w = .done () t := hset
  have h3 : exec cfg (.scopeGet p.nameIdx) t = .done (some a) t := by
    change Outcome.done (t.vmScopeGet p.nameIdx) t = _
    rw [hnames.vmScopeGet, show s.vmScopeGet p.nameIdx = some a from ha]
  have h4 : exec cfg (.load a) t = .done (.function cell) t := by
    change orFault (t.readAddr a) t = _
    rw [hnames.readAddr, hread]
    rfl
  have h5 := run_pushAll cfg t [] args (by
    rw [hsame.stackTop, htop]
    exact h.room)
  rw [State.withOperands_nil, List.nil_append] at h5
  refine ⟨t.withOperands args, ?_, hsame.withOperands args⟩
  rw [drainDefers]
  unfold perform
  simp only [run_bind, run_perform, h1, h2, htext, h3, h4, h5, Outcome.done_andThen]

omit h in
/-- A return comes to the loop over the deferred calls with the returned value in the slot
above the operands. -/
theorem deferred_eq {g : CallFrame} (hg : s.topFrame = some g) (returned : AerVal) :
    ∃ w g' returnAddr fuel, State.SameNames s w ∧ State.SameOperands (s.withDead returned) w ∧
      w.topFrame = some g' ∧ g'.defers = g.defers ∧
      deferred cfg s returned =
        ((drainDefers returnAddr (fuel + 1)).run (exec cfg) w).andThen fun left t =>
          (if left then return else do
            perform .unwindScopes
            let ret ← perform .takeReturn
            perform (.setIp (← perform .popFrame))
            push ret : Handler Unit).run (exec cfg) t := by
  let u := s.withOperands [returned]
  let v := s.withDead returned
  have hip : exec cfg .getIp u = .done u.vm.ip u := rfl
  have hdraining : exec cfg .frameDraining u = .done g.defersDraining u := by
    change orFault (s.topFrame.map CallFrame.defersDraining) u = _
    rw [hg]
    rfl
  have hpop : exec cfg .pop u = .done returned v := pop_withOperands s returned
  have hv : v.topFrame = some g := hg
  have hdefers : ∀ {w : State} {g' : CallFrame}, w.topFrame = some g' →
      exec cfg .frameDefers w = .done g'.defers w := by
    intro w g' hw
    change orFault (w.topFrame.map CallFrame.defers) w = _
    rw [hw]
    rfl
  cases hd : g.defersDraining with
  | true =>
    refine ⟨v, g, u.vm.ip - 1, g.defers.length, ⟨rfl, rfl, rfl, rfl, rfl⟩, ⟨rfl, rfl, rfl, rfl⟩, hv,
      rfl, ?_⟩
    unfold deferred lblReturn pop perform
    simp only [run_bind, run_perform, hip, hdraining, hd, hpop, hdefers hv, Outcome.done_andThen,
      u, ↓reduceIte]
  | false =>
    obtain ⟨w, hstash, hsame, hnames, hw⟩ := State.updateFrame_done hv
      (f := fun f => { f with pendingReturnValue := returned, defersDraining := true }) rfl
    have hstash : exec cfg (.stashReturn returned) v = .done () w := hstash
    refine ⟨w, _, u.vm.ip - 1, g.defers.length,
      ⟨hnames.heap, hnames.pool, hnames.scopes, hnames.scopeDepth, hnames.scopeFloor⟩, hsame, hw, rfl,
      ?_⟩
    unfold deferred lblReturn pop perform
    simp only [run_bind, run_perform, hip, hdraining, hd, hpop, hstash, hdefers hw,
      Outcome.done_andThen, u, Bool.false_eq_true, ↓reduceIte]

theorem entered_deferred (returned : AerVal) :
    Enters (Checks s f args (args.head?.getD returned))
      (cell, f.codeOffset, args ++ omittedDefaults f args.length)
      (entered s.vm.callDepth f.arity (deferred cfg s returned)) := by
  obtain ⟨hpos, hpending⟩ := h.pending
  have hg : s.topFrame = some (s.vm.callStack (s.vm.callDepth - 1)) := if_neg (by omega)
  obtain ⟨w, g, returnAddr, fuel, hnames, hdead, hw, hdefers, hrun⟩ := deferred_eq cfg hg returned
  rw [← hdefers] at hpending
  obtain ⟨t, hturn, hsame⟩ := drainDefers_eq cfg h hnames hw hpending hdead.stackTop returnAddr fuel
  have hsame := (hdead.withOperands args).trans hsame
  have hf : t.functionData cell = some f := (hsame.functionData cell).trans h.function
  have hdepth : t.vm.callDepth = s.vm.callDepth := hsame.callDepth
  have hn : args.length ≤ t.vm.stackTop := by
    rw [hsame.stackTop, State.withOperands_stackTop]
    exact Nat.le_add_left _ _
  have hchecks : Checks (s.withDead returned) f args
      (args.head?.getD ((s.withDead returned).vm.stack s.vm.stackTop)) ↔
        Checks s f args (args.head?.getD returned) := by
    rw [show (s.withDead returned).vm.stack s.vm.stackTop = returned from Function.update_self ..]
    exact ⟨fun ⟨h1, h2, h3, h4, h5⟩ => ⟨h1, h2, h3, h4, h5⟩,
      fun ⟨h1, h2, h3, h4, h5⟩ => ⟨h1, h2, h3, h4, h5⟩⟩
  have hsetup := (setup_iff hsame).trans hchecks
  rw [hrun, hturn]
  constructor
  · intro hc
    obtain ⟨hdepth, hcell, hip, hargs⟩ := hsame.enter (hc.length h.regular) cell returnAddr
    rw [run_vmSetupCall cfg hf h.regular hn (hsetup.mpr hc), Outcome.done_andThen, if_pos rfl,
      run_pure, Outcome.done_andThen, if_pos rfl, run_pure]
    exact (entered_done hdepth).trans (by rw [hcell, hip, hargs])
  · intro hc
    have hdeclined := vmSetupCall_declined cfg hf hn (fun hn => hc (hsetup.mp hn)) returnAddr
    rw [hdepth] at hdeclined
    generalize (vmSetupCall (.function cell) args.length returnAddr).run (exec cfg) t = r at hdeclined
    cases hdeclined with
    | error hd he =>
      obtain ⟨v, hv, hdepth', herr⟩ := run_popN cfg args.length _
      have hhad : exec cfg .hadError v = .done true v := by
        change Outcome.done v.runtimeHadError v = _
        rw [herr he]
      unfold perform
      simp only [Outcome.done_andThen, Bool.false_eq_true, ↓reduceIte, run_bind, hv, run_perform,
        hhad, run_pure]
      exact (NotEntered.done (hdepth'.trans hd)).entered
    | stop => rfl

end Callable

/-- The three calls enter the function alike: all with the same parameters, or none. -/
def PathsAgree (cfg : Config) (s : State) (p : CallSites) (f : AerFunction) (args : List AerVal)
    (returned : AerVal) : Prop :=
  entered s.vm.callDepth f.arity (byName cfg s p args) =
      entered s.vm.callDepth f.arity (byValue cfg s p args) ∧
    entered s.vm.callDepth f.arity (byValue cfg s p args) =
      entered s.vm.callDepth f.arity (deferred cfg s returned)

/-- The call passes the other checks, but leaves the receiver to its default. -/
structure OmitsReceiver (s : State) (f : AerFunction) (args : List AerVal) : Prop where
  receiver : f.hasReceiver = true
  omitted : args = []
  defaults : f.minArity = 0
  depth : s.vm.callDepth < vmCallMax
  room : s.vm.stackTop + f.arity ≤ vmStackMax

/-- With no argument given, it is the receiver that decides. -/
theorem OmitsReceiver.checks_iff {s : State} {f : AerFunction} (h : OmitsReceiver s f [])
    (v : AerVal) : Checks s f [] v ↔ s.instance? v f.receiverType = some true :=
  ⟨fun hc => hc.receiver h.receiver,
    fun hv => ⟨h.defaults.le, Nat.zero_le _, h.depth, h.room, fun _ => hv⟩⟩

/-- A call that does not omit a receiver is checked alike, whatever lies above the operands. -/
theorem checks_congr {s : State} {f : AerFunction} (h : ¬ OmitsReceiver s f []) (v w : AerVal) :
    Checks s f [] v ↔ Checks s f [] w := by
  have hmono : ∀ v w, Checks s f [] v → Checks s f [] w := fun v w hc =>
    ⟨hc.least, hc.most, hc.depth, hc.room, fun hr =>
      absurd ⟨hr, rfl, Nat.le_zero.mp hc.least, hc.depth, hc.room⟩ h⟩
  exact ⟨hmono v w, hmono w v⟩

/-- The call paths agree unless the receiver is left to its default, and then when the
default, the slot above the operands and the returned value are all of its type, or none. -/
theorem pathsAgree_iff (cfg : Config) {s : State} {p : CallSites} {cell : Nat} {f : AerFunction}
    {args : List AerVal} (h : Callable s p cell f args) (returned : AerVal) :
    PathsAgree cfg s p f args returned ↔
      (OmitsReceiver s f args → ∀ d ∈ f.defaults.head?,
        (s.instance? d f.receiverType = some true ↔
          s.instance? (s.vm.stack s.vm.stackTop) f.receiverType = some true) ∧
        (s.instance? (s.vm.stack s.vm.stackTop) f.receiverType = some true ↔
          s.instance? returned f.receiverType = some true)) := by
  unfold PathsAgree
  rw [(entered_byName cfg h).eq_iff (entered_byValue cfg h),
    (entered_byValue cfg h).eq_iff (entered_deferred cfg h returned)]
  have hreg := h.regular
  cases args with
  | cons v vs =>
    refine ⟨fun _ homits => ?_, fun _ => ⟨Iff.rfl, Iff.rfl⟩⟩
    cases homits.omitted
  | nil =>
    by_cases homits : OmitsReceiver s f []
    · have hlength := hreg.defaults
      have hpos := hreg.receiver homits.receiver
      rw [homits.defaults, Nat.sub_zero] at hlength
      obtain ⟨d, ds, hd⟩ := List.exists_cons_of_length_pos (hlength ▸ hpos)
      have hfirst : ([] ++ omittedDefaults f ([] : List AerVal).length).head? = some d := by
        unfold omittedDefaults
        rw [homits.defaults, hd]
        rfl
      simp only [hfirst, hd, homits.checks_iff, homits, List.head?_cons, List.head?_nil,
        Option.getD_some, Option.getD_none, Option.mem_def, Option.some.injEq, forall_eq',
        forall_const]
    · exact ⟨fun _ h => absurd h homits,
        fun _ => ⟨checks_congr homits _ _, checks_congr homits _ _⟩⟩

section Sample

/-- A receiver with a default that is not of its type, and a call through a value over a
slot that an instance was left in. -/
def receiverProgram : String :=
  "struct P:\n    x\nfunction f(p as P = null):\n    return p\nfunction g():\n    defer f()\n" ++
    "    q = [f, P()]\n    x = q[0]()\n    f()\ng()\n"

/-- The machine about to call the function through a value. -/
def aboutToCall : State := Program.after 15 30 receiverProgram

def receiverSites : CallSites where
  nameIdx := 3
  cacheIdx := 6
  callIp := 50
  valueIp := 45

def receiverFunction : AerFunction where
  codeOffset := 7
  arity := 1
  minArity := 0
  defaults := [.null]
  hasReceiver := true
  receiverType := 0
  upvalues := []

/-- What the program has come to: the call through the value is entered from here, the call
by name is not. -/
theorem aboutToCall_eq :
    (aboutToCall.functionData 0 = some receiverFunction ∧ aboutToCall.vm.stackTop = 1 ∧
      aboutToCall.vm.stack 0 = .function 0 ∧ aboutToCall.vm.callDepth = 1) ∧
    ((aboutToCall.chunk.code[50]? = some 3 ∧ aboutToCall.chunk.code[51]? = some 0 ∧
        aboutToCall.chunk.code[52]? = some 6) ∧
      aboutToCall.chunk.code[45]? = some 0 ∧ aboutToCall.chunk.pool[3]? = some (.string 2) ∧
      (aboutToCall.stringData 2).isSome = true) ∧
    ((∃ a ∈ aboutToCall.vmScopeGet 3, aboutToCall.readAddr a = some (.function 0)) ∧
      6 < aboutToCall.chunk.addrCache.length ∧
      aboutToCall.chunk.addrCache.getD 6 none = none) ∧
    (aboutToCall.vm.callStack 0).defers.head? = some ⟨3, []⟩ ∧
    (vmRun {} 15 (Program.load 30 receiverProgram)).isDone = true ∧
    entered 1 1 (byName {} aboutToCall receiverSites []) ≠
      entered 1 1 (byValue {} aboutToCall receiverSites []) := by
  decide +kernel

theorem callable_receiverFunction :
    Callable aboutToCall receiverSites 0 receiverFunction [] := by
  obtain ⟨⟨hf, htop, hstack, hdepth⟩, ⟨hcall, hvalue, hpool, hname⟩, ⟨hbound, hslot, hcached⟩,
    hdefers, -, -⟩ := aboutToCall_eq
  constructor
  case function => exact hf
  case regular => exact ⟨rfl, fun _ => Nat.one_pos⟩
  case operand =>
    rw [htop, Nat.sub_self]
    exact ⟨Nat.one_pos, hstack⟩
  case room =>
    rw [htop]
    decide
  case callCode => exact hcall
  case valueCode => exact hvalue
  case name => exact ⟨2, hpool, hname⟩
  case bound => exact hbound
  case cacheSlot => exact hslot
  case cached =>
    intro a ha
    rw [show aboutToCall.chunk.addrCache.getD receiverSites.cacheIdx none = none from hcached] at ha
    cases ha
  case pending =>
    rw [hdepth, Nat.sub_self]
    exact ⟨Nat.one_pos, hdefers⟩

theorem pathsAgree_iff_receiver :
    PathsAgree {} aboutToCall receiverSites receiverFunction [] .null ↔
      (OmitsReceiver aboutToCall receiverFunction [] → ∀ d ∈ receiverFunction.defaults.head?,
        (aboutToCall.instance? d 0 = some true ↔
          aboutToCall.instance? (aboutToCall.vm.stack 1) 0 = some true) ∧
        (aboutToCall.instance? (aboutToCall.vm.stack 1) 0 = some true ↔
          aboutToCall.instance? .null 0 = some true)) := by
  have htop := aboutToCall_eq.1.2.1
  have h := pathsAgree_iff {} callable_receiverFunction .null
  rwa [htop] at h

/-- The call through the value is entered, with null as its receiver; the call by name is
not. -/
theorem receiver_disagrees :
    ∃ s p cell f args returned, Steps {} (Program.load 30 receiverProgram) s ∧
      Callable s p cell f args ∧ ¬ PathsAgree {} s p f args returned := by
  obtain ⟨⟨-, -, -, hdepth⟩, -, -, -, hsteps, hne⟩ := aboutToCall_eq
  refine ⟨aboutToCall, receiverSites, 0, receiverFunction, [], .null,
    Program.steps_after hsteps, callable_receiverFunction, fun h => hne ?_⟩
  have hsame := h.1
  rwa [hdepth] at hsame

end Sample

end Aer.Machine
