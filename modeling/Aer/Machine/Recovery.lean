import Aer.Machine.DeadData
import Aer.Program.Source

set_option linter.all false

/-! Recovery after a runtime error: a host that resets the machine as documented can
go on with it as with one that was never in the middle of anything. -/
namespace Aer.Machine

open Aer.Data Aer.Memory Aer.Lib.Interaction

/-- The global scope is there, and no call returns below it. -/
structure Vm.Scoped (v : Vm) : Prop where
  depth : 1 ≤ v.scopeDepth
  frames : ∀ i < v.callDepth, 1 ≤ (v.callStack i).returnScopeDepth

namespace Vm.Scoped

variable {v w : Vm}

theorem congr (h : v.Scoped) (hdepth : w.scopeDepth = v.scopeDepth)
    (hcall : w.callDepth = v.callDepth) (hstack : w.callStack = v.callStack) : w.Scoped where
  depth := by rw [hdepth]; exact h.depth
  frames := by rw [hcall, hstack]; exact h.frames

theorem scopeFloor (h : v.Scoped) (hcall : v.callDepth ≠ 0) : 1 ≤ v.scopeFloor := by
  unfold Vm.scopeFloor
  rw [if_neg hcall]
  exact h.frames _ (by omega)

theorem setFrame (h : v.Scoped) (i : Nat) {f : CallFrame} (hf : 1 ≤ f.returnScopeDepth) :
    (v.setFrame i f).Scoped where
  depth := h.depth
  frames j hj := by
    by_cases hji : j = i
    · subst hji
      simpa [Vm.setFrame] using hf
    · simpa [Vm.setFrame, hji] using h.frames j hj

end Vm.Scoped

section Scoped
variable {s : State}

theorem Vm.Scoped.unwindScopes (h : s.vm.Scoped) {base : Nat} (hbase : 1 ≤ base) :
    (s.unwindScopes base).vm.Scoped where
  depth := by
    rw [unwindScopes_depth]
    exact le_min h.depth hbase
  frames := by
    obtain ⟨-, hcall, hstack, -⟩ := popScopes_vm (s.vm.scopeDepth - base) s
    rw [State.unwindScopes, hcall, hstack]
    exact h.frames

theorem Vm.Scoped.writeAddr (h : s.vm.Scoped) (a : Addr) (v : AerVal) :
    (s.writeAddr a v).vm.Scoped := by
  cases a with
  | box b => exact h
  | slot i j => exact h.congr rfl rfl rfl

theorem Vm.Scoped.store (h : s.vm.Scoped) (a : Addr) (v : AerVal) :
    (s.store a v).state.vm.Scoped := by
  unfold State.store
  split
  · exact h.writeAddr a v
  · exact h

theorem Vm.Scoped.vmScopeDefine (h : s.vm.Scoped) (name : Nat) (v : AerVal) :
    (s.vmScopeDefine name v).vm.Scoped := by
  simp only [State.vmScopeDefine]
  split
  · exact h.writeAddr _ v
  · split
    · exact h.congr rfl rfl rfl
    · split
      · exact h.congr rfl rfl rfl
      · exact h.congr rfl rfl rfl

theorem Vm.Scoped.vmBoxSlot (h : s.vm.Scoped) {name : Nat} {b : BoxRef} {s' : State}
    (hs : s.vmBoxSlot name = some (b, s')) : s'.vm.Scoped := by
  simp only [State.vmBoxSlot] at hs
  split at hs
  · cases hs
  · cases hs
    exact h.congr rfl rfl rfl
  · split at hs
    · cases hs
      exact h
    · cases hs
      exact h.congr rfl rfl rfl

theorem Vm.Scoped.updateFrame (h : s.vm.Scoped) {f : CallFrame → CallFrame}
    (hf : ∀ g, (f g).returnScopeDepth = g.returnScopeDepth) :
    (s.updateFrame f).state.vm.Scoped := by
  unfold State.updateFrame State.topFrame
  by_cases hc : s.vm.callDepth = 0
  · simp only [hc, ↓reduceIte]
    exact h
  · simp only [hc, ↓reduceIte]
    refine h.setFrame _ ?_
    rw [hf]
    exact h.frames _ (by omega)

theorem Vm.Scoped.takeReturn (h : s.vm.Scoped) : s.takeReturn.state.vm.Scoped := by
  unfold State.takeReturn State.topFrame
  by_cases hc : s.vm.callDepth = 0
  · simp only [hc, ↓reduceIte]
    exact h
  · simp only [hc, ↓reduceIte]
    split
    · exact h.setFrame _ (h.frames _ (by omega))
    · exact h

theorem Vm.Scoped.pushFrame (h : s.vm.Scoped) (function returnIp : Nat) :
    (s.pushFrame function returnIp).state.vm.Scoped := by
  simp only [State.pushFrame]
  split
  · refine ⟨h.depth, fun j hj => ?_⟩
    by_cases hjc : j = s.vm.callDepth
    · subst hjc
      simpa [Vm.setFrame, Outcome.state] using h.depth
    · have hold : j < s.vm.callDepth := by
        change j < s.vm.callDepth + 1 at hj
        omega
      simpa [Vm.setFrame, Outcome.state, hjc] using h.frames j hold
  · exact h

theorem Vm.Scoped.callNative (h : s.vm.Scoped) (cfg : Config) (module fn : Bytes) (argCount : Nat) :
    (s.callNative cfg.native module fn argCount).state.vm.Scoped := by
  simp only [State.callNative]
  split
  · split
    · exact h
    · simp only [Outcome.state, addErrors_vm]
      exact h.congr rfl rfl rfl
  · exact h

/-- Every operation keeps the global scope. -/
theorem Vm.Scoped.exec (h : s.vm.Scoped) (cfg : Config) (o : Op) :
    (exec cfg o s).state.vm.Scoped := by
  cases o with
  | store a v => exact h.store a v
  | callNative module fn argCount => exact h.callNative cfg module fn argCount
  | pushFrame function returnIp => exact h.pushFrame function returnIp
  | takeReturn => exact h.takeReturn
  | setDefers _ | setFrameFunction _ | stashReturn _ => exact h.updateFrame fun _ => rfl
  | storeUpvalue b v =>
    exact Vm.Scoped.store (s := { s with heap := s.heap.gcBarrierBox b v }) h _ v
  | pushScope =>
    simp only [Machine.exec, State.pushScope]
    split
    · exact ⟨Nat.le_add_left 1 _, h.frames⟩
    · exact h
  | popScope =>
    simp only [Machine.exec, State.popScope]
    split
    · exact h
    · obtain ⟨hdepth, hcall, hstack, -⟩ := popScopes_vm 1 s
      refine ⟨?_, ?_⟩
      · change 1 ≤ (State.popScopes 1 s).vm.scopeDepth
        omega
      · change ∀ i < (State.popScopes 1 s).vm.callDepth, 1 ≤ _
        rw [hcall]
        change ∀ i < s.vm.callDepth, 1 ≤ ((State.popScopes 1 s).vm.callStack i).returnScopeDepth
        rw [hstack]
        exact h.frames
  | unwindScopes =>
    simp only [Machine.exec]
    split
    · exact h
    · next hc => exact h.unwindScopes (h.scopeFloor hc)
  | popFrame =>
    simp only [Machine.exec, State.popFrame]
    split
    · exact h
    · exact ⟨h.depth, fun i hi => h.frames i (lt_of_lt_of_le hi (Nat.sub_le _ _))⟩
  | boxSlot name =>
    simp only [Machine.exec]
    split
    · next hb => exact h.vmBoxSlot hb
    · exact h
  | scopeDefine name v =>
    simp only [Machine.exec]
    split
    · exact h.vmScopeDefine name v
    · exact h
  | writeLocal slot v =>
    simp only [Machine.exec]
    split
    · exact h.store _ v
    · exact h
  | defineLocal slot name v =>
    simp only [Machine.exec, State.defineLocal]
    split <;> exact h.congr rfl rfl rfl
  | read | readIdx =>
    simp only [Machine.exec]
    split <;> exact h.congr rfl rfl rfl
  | push v =>
    simp only [Machine.exec, State.push]
    split <;> exact h.congr rfl rfl rfl
  | pop =>
    simp only [Machine.exec, State.pop]
    split <;> exact h.congr rfl rfl rfl
  | peek n | poke n v | drop n | slide n | argAt n =>
    simp only [Machine.exec]
    split <;> exact h.congr rfl rfl rfl
  | pendUpvalue b =>
    simp only [Machine.exec, State.pendUpvalue]
    split <;> exact h.congr rfl rfl rfl
  | takeUpvalues n =>
    simp only [Machine.exec, State.takeUpvalues]
    split <;> exact h.congr rfl rfl rfl
  | resolve name cache =>
    simp only [Machine.exec, State.resolve]
    split
    · split
      · exact h
      · split <;> exact h
    · exact h
  | nameText i =>
    simp only [Machine.exec]
    split
    · simpa only [orFault_state] using h
    · exact h
  | constant _ | readLocal _ | load _ | frameDefers | frameDraining | upvalue _ | asInt _ | string _
  | array _ | dict _ | function _ | shape _ | format _ | typeName _ =>
    simpa only [Machine.exec, orFault_state] using h
  | setIp n => exact h.congr rfl rfl rfl
  | getIp | hasRoom _ | scopeGet _ | callDepth | pendingCount | newInt _ | newString _ | newArray _
  | newDict _ | newFunction _ | appendItem _ _ | setItem _ _ _ | deleteItem _ _ | setEntry _ _ _
  | deleteEntry _ _ | findShape _ | defineShape _ | error _ | hadError | print _
  | countAssertFailure | fail | halt | fault => exact h

end Scoped

namespace State

/-- What the embedding contract asks of a host after an error: the value stack and the
calls are dropped, the scopes popped down to the global one, the flag cleared. -/
def recover (s : State) : State :=
  let s := s.unwindScopes 1
  { s with vm := { s.vm with stackTop := 0, callDepth := 0 }, runtimeHadError := false }

/-- Go on with another program: a grown chunk and heap, and where its code begins. -/
def load (s : State) (chunk : Chunk) (heap : Heap) (ip : Nat) : State :=
  { s with chunk, heap, vm := { s.vm with ip } }

/-- The same globals, heap and chunk, in a machine in which nothing has been going on. -/
def idle (s : State) : State :=
  { s with vm :=
    { Vm.init with ip := s.vm.ip, scopes := Function.update Vm.init.scopes 0 (s.vm.scopes 0) } }

end State

theorem Vm.Scoped.dispatch {s : State} (h : s.vm.Scoped) (cfg : Config) :
    (Machine.dispatch cfg s).state.vm.Scoped := by
  unfold Machine.dispatch
  split
  · exact h
  · have hgc : s.gcMaybeCollect.vm.Scoped := by
      rw [State.gcMaybeCollect_vm]
      exact h
    exact run_preserves (I := fun s : State => s.vm.Scoped) hgc fun o _ _ hs => hs.exec cfg o

/-- The states a host can bring a machine to: it loads programs, runs them a while,
whatever becomes of them, and recovers. -/
inductive Session (cfg : Config) : State → Prop
  | init (gc : GcState) : Session cfg { State.init with gc }
  | load {s : State} (chunk : Chunk) (heap : Heap) (ip : Nat) :
      Session cfg s → Session cfg (s.load chunk heap ip)
  | dispatch {s : State} : Session cfg s → Session cfg (dispatch cfg s).state
  | recover {s : State} : Session cfg s → Session cfg s.recover

theorem Session.scoped {cfg : Config} {s : State} (h : Session cfg s) : s.vm.Scoped := by
  induction h with
  | init gc => exact ⟨Nat.le_refl 1, fun _ hi => absurd hi (Nat.not_lt_zero _)⟩
  | load chunk heap ip _ ih => exact ih.congr rfl rfl rfl
  | dispatch _ ih => exact ih.dispatch cfg
  | recover _ ih =>
    exact ⟨(ih.unwindScopes (Nat.le_refl 1)).depth, fun _ hi => absurd hi (Nat.not_lt_zero _)⟩

theorem Session.run {cfg : Config} {s : State} (h : Session cfg s) (n : Nat) :
    Session cfg (vmRun cfg n s).state := by
  induction n generalizing s with
  | zero => exact h
  | succ n ih =>
    have hstep := h.dispatch
    unfold vmRun
    cases hd : Machine.dispatch cfg s with
    | done a u =>
      rw [hd] at hstep
      exact ih hstep
    | stop w u =>
      rw [hd] at hstep
      exact hstep

/-- Recovery leaves nothing in use but the globals, unless captures were pending. -/
theorem same_recover_idle {s : State} (hs : s.vm.Scoped) (hpending : s.vm.pendingUpvalueCount = 0) :
    s.recover.Same s.recover.idle := by
  obtain ⟨-, -, -, hkept⟩ := popScopes_vm (s.vm.scopeDepth - 1) s
  have hcount : s.recover.vm.pendingUpvalueCount = 0 := hkept.trans hpending
  have hdepth : s.recover.vm.scopeDepth = 1 := by
    have hmin := unwindScopes_depth s 1
    have hone := hs.depth
    change (s.unwindScopes 1).vm.scopeDepth = 1
    omega
  refine ⟨_, ?_, rfl⟩
  refine ⟨rfl, rfl, ?_, hdepth.symm, fun i hi => ?_, rfl, ?_, hcount.symm, fun i hi => ?_⟩
  · exact fun i hi => absurd hi (Nat.not_lt_zero i)
  · have hzero : i = 0 := by omega
    subst hzero
    exact .refl _
  · exact fun i hi => absurd hi (Nat.not_lt_zero i)
  · exact absurd (hcount ▸ hi) (Nat.not_lt_zero i)

/-- After an abort with no capture pending, the documented reset leaves a machine on
which every later program runs as on one that was never in the middle of anything. -/
theorem Session.recovers {cfg : Config} {s : State} (h : Session cfg s)
    (hpending : s.vm.pendingUpvalueCount = 0) (chunk : Chunk) (heap : Heap) (ip n : Nat)
    (hdead : ∀ k < n, ∀ u, vmRun cfg k (s.recover.load chunk heap ip) = .done () u →
      ¬ ReadsDeadSlot cfg u) :
    SameResult (vmRun cfg n (s.recover.load chunk heap ip))
      (vmRun cfg n (s.recover.idle.load chunk heap ip)) := by
  obtain ⟨w, hvm, hidle⟩ := same_recover_idle h.scoped hpending
  refine same_vmRun ?_ hdead
  rw [hidle]
  exact ⟨_, hvm.setIp ip, rfl⟩

section Sample

/-- Whether the next instruction looks for a receiver among no arguments. -/
def readsDeadSlot (s : State) : Bool :=
  anyVisited (exec {}) (fun o => match o with | .argAt 0 => true | _ => false) instruction
    s.gcMaybeCollect

theorem not_readsDeadSlot {s : State} (h : readsDeadSlot s = false) : ¬ ReadsDeadSlot {} s := by
  rintro ⟨s', hv⟩
  exact absurd (h.symm.trans (anyVisited_of_visits hv rfl)) (by decide)

theorem never_readsDeadSlot {s : State} {n : Nat}
    (h : (List.range n).all (fun k => !readsDeadSlot (vmRun {} k s).state) = true) :
    ∀ k < n, ∀ u, vmRun {} k s = .done () u → ¬ ReadsDeadSlot {} u := by
  intro k hk u hu
  have hdead := List.all_eq_true.mp h k (List.mem_range.mpr hk)
  rw [hu] at hdead
  exact not_readsDeadSlot (by simpa [Outcome.state] using hdead)

theorem session_after (n fuel : Nat) (text : String) : Session {} (Program.after n fuel text) :=
  ((Session.init {}).load _ _ 0).run n

/-- A program that reads an undefined variable. -/
abbrev undefinedRead : State := Program.after 5 20 "x = y\n"

/-- The program that a host runs after it has recovered from that. -/
abbrev afterUndefinedRead : Compiler.Parser := Program.compileOnto 20 "x = 1\n" undefinedRead

theorem Session.recovers_undefinedRead : SameResult
    (vmRun {} 2 (undefinedRead.recover.load afterUndefinedRead.chunk afterUndefinedRead.heap
      undefinedRead.chunk.count))
    (vmRun {} 2 (undefinedRead.recover.idle.load afterUndefinedRead.chunk afterUndefinedRead.heap
      undefinedRead.chunk.count)) :=
  Session.recovers (session_after 5 20 _) (by decide +kernel) _ _ _ 2
    (never_readsDeadSlot (by decide +kernel))

/-- A closure's second variable is undefined when its first is captured already. -/
abbrev halfCaptured : State := Program.after 20 30
  ("function mk(x):\n    return function():\n        return x + y\n" ++
    "function mk2(a):\n    return function():\n        return a\nz = mk(1)\n")

/-- The program that the host runs after it has recovered. -/
abbrev afterHalfCaptured : Compiler.Parser :=
  Program.compileOnto 30 "g = mk2(7)\nz = g()\n" halfCaptured

/-- The value of the fourth global variable. -/
def fourthGlobal (s : State) : AerVal := ((s.vm.scopes 0).slots 3).val

theorem State.Same.fourthGlobal {s t : State} (h : s.Same t) (hcount : 3 < (s.vm.scopes 0).count) :
    fourthGlobal t = fourthGlobal s := by
  obtain ⟨w, hvm, rfl⟩ := h
  exact congrArg ScopeSlot.val ((hvm.scopes 0 (.inr rfl)).slots 3 hcount)

/-- The machine that has recovered from `halfCaptured`, with the next program. -/
abbrev recoveredCapture : State := halfCaptured.recover.load afterHalfCaptured.chunk
  afterHalfCaptured.heap halfCaptured.chunk.count

/-- A machine that has never been in the middle of anything, with the same program. -/
abbrev idleCapture : State := halfCaptured.recover.idle.load afterHalfCaptured.chunk
  afterHalfCaptured.heap halfCaptured.chunk.count

theorem halfCaptured_spec :
    halfCaptured.runtimeHadError = true ∧
      3 < ((vmRun {} 30 recoveredCapture).state.vm.scopes 0).count ∧
      fourthGlobal (vmRun {} 30 idleCapture).state ≠
        fourthGlobal (vmRun {} 30 recoveredCapture).state := by
  decide +kernel

/-- The next closure captures the box that the aborted program has left: the call
answers 1, and 7 in a machine that has never been in the middle of anything. -/
theorem Session.captures_stale_box :
    ∃ s, Session {} s ∧ s.runtimeHadError = true ∧ ∃ chunk heap ip n,
      ¬ SameResult (vmRun {} n (s.recover.load chunk heap ip))
        (vmRun {} n (s.recover.idle.load chunk heap ip)) := by
  obtain ⟨herror, hcount, hne⟩ := halfCaptured_spec
  refine ⟨halfCaptured, session_after 20 30 _, herror, afterHalfCaptured.chunk,
    afterHalfCaptured.heap, halfCaptured.chunk.count, 30, fun h => hne ?_⟩
  exact State.Same.fourthGlobal h.state hcount

end Sample

end Aer.Machine
