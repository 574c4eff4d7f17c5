import Aer.Program.Source
import Aer.Machine.Leaving

set_option linter.all false

/-! A call of a file module's function: the arguments go over to the module's own machine,
which runs exactly one call, and the result comes back. -/
namespace Aer.Machine.State

open Aer.Data

def gcSuppress (s : State) : State :=
  { s with gc := { s.gc with suppressDepth := s.gc.suppressDepth + 1 } }

def gcUnsuppress (s : State) : State :=
  { s with gc := { s.gc with suppressDepth := s.gc.suppressDepth - 1 } }

/-- A result for the caller, which is dropped where its stack is full. -/
def pushResult (s : State) (v : AerVal) : State :=
  if s.vm.stackTop < vmStackMax then
    { s with vm := { s.vm.setStack s.vm.stackTop v with stackTop := s.vm.stackTop + 1 } }
  else s

/-- The messages that `t` has reported since `s`, oldest first. -/
def newMessages (s t : State) : List Bytes :=
  ((t.errors.take (t.errors.length - s.errors.length)).map Prod.snd).reverse

end Aer.Machine.State

namespace Aer.Program

open Aer.Data Aer.Memory Aer.Machine Aer.Lib.Interaction
open Aer.Compiler (FileModule)

/-- The machine of a module within the process of the machine that calls it. -/
def moduleMachine (m : FileModule) (s : State) : State := { s with vm := m.vm, chunk := m.chunk }

/-- `find_module_function`, on the machine of the module. -/
def findModuleFunction (t : State) (fn : Bytes) : Option Nat :=
  let g := t.vm.scopes 0
  let v :=
    match (List.range g.count).find? fun j => t.nameText (g.slots j).name == fn with
    | some j => t.readAddr (g.slotAddr 0 j)
    | none =>
        if g.overflow then (g.map.get fn).bind fun e => t.readAddr (.box (.spilled e)) else none
  match v with
  | some (.function cell) => some cell
  | _ => none

/-- How far `aer_module_call` comes before it runs the module. -/
inductive ModuleEntry
  | unknown
  | refused (caller : State) (m : FileModule)
  | entered (callee : State)

/-- `aer_module_call` up to the run of the module; nothing stands for undefined behaviour.
Errors are reported while the caller is the active machine. -/
def enterModule (cfg : Config) (m : FileModule) (fn : Bytes) (argCount : Nat) (s : State) :
    Option ModuleEntry :=
  match findModuleFunction (moduleMachine m s) fn with
  | none => some .unknown
  | some cell =>
      if vmStackMax < m.vm.stackTop + argCount then
        let caller := (s.addError (bytes "Stack overflow")).dropped argCount
        some (.refused (caller.pushResult .null) m)
      else
        let copied := (moduleMachine m s).withOperands (s.topArgs argCount)
        match (vmSetupCall (.function cell) argCount m.haltAddr).run (exec cfg) copied with
        | .done true callee => some (.entered (callee.gcSuppress))
        | .done false t =>
            let caller := (s.newMessages t).foldl State.addError (s.dropped argCount)
            some (.refused (caller.pushResult .null) { m with vm := (t.dropped argCount).vm })
        | .stop _ _ => none

/-- `aer_module_call` behind the run of the module, which has come to `t`. -/
def finishModule (m : FileModule) (argCount : Nat) (s t : State) : State × FileModule :=
  let caller : State := { t.gcUnsuppress with vm := (s.dropped argCount).vm, chunk := s.chunk }
  if t.runtimeHadError ∨ t.vm.stackTop = 0 then
    (caller.pushResult .null, { m with vm := t.vm, chunk := t.chunk })
  else
    (caller.pushResult (t.vm.stack (t.vm.stackTop - 1)),
      { m with vm := (t.dropped 1).vm, chunk := t.chunk })

/-- A completed `aer_module_call`: whether it was handled, the caller and the module. -/
inductive AerModuleCall (cfg : Config) (m : FileModule) (fn : Bytes) (argCount : Nat) (s : State) :
    Bool → State → FileModule → Prop
  | unknown : enterModule cfg m fn argCount s = some .unknown →
      AerModuleCall cfg m fn argCount s false s m
  | refused {caller : State} {m' : FileModule} :
      enterModule cfg m fn argCount s = some (.refused caller m') →
      AerModuleCall cfg m fn argCount s true caller m'
  | ran {e u t : State} {w : Stop} : enterModule cfg m fn argCount s = some (.entered e) →
      Steps cfg e u → dispatch cfg u = .stop w t → w ≠ .fault →
      AerModuleCall cfg m fn argCount s true (finishModule m argCount s t).1
        (finishModule m argCount s t).2

/-- What `OP_CALL_MODULE` does when the call is not handled. -/
def noModuleFunction (module fn : Bytes) (argCount : Nat) : Handler Unit := do
  perform (.error (bytes "'" ++ module ++ bytes "' has no function '" ++ fn ++ bytes "'"))
  popN argCount
  push .null

/-- `OP_CALL_MODULE` on a function of a file module. -/
inductive CallModule (cfg : Config) (m : FileModule) (fn : Bytes) (argCount : Nat) (s : State) :
    State → FileModule → Prop
  | handled {s' : State} {m' : FileModule} : AerModuleCall cfg m fn argCount s true s' m' →
      CallModule cfg m fn argCount s s' m'
  | unhandled {s' : State} {m' : FileModule} : AerModuleCall cfg m fn argCount s false s' m' →
      CallModule cfg m fn argCount s ((noModuleFunction m.name fn argCount).run (exec cfg) s').state m'

/-- The module's machine stands where it stood, and the caller has the result in place of
the arguments, or an error is reported. -/
structure Atomic (argCount : Nat) (s : State) (m : FileModule) (s' : State) (m' : FileModule) :
    Prop where
  stackTop : m'.vm.stackTop = m.vm.stackTop
  callDepth : m'.vm.callDepth = m.vm.callDepth
  scopeDepth : m'.vm.scopeDepth = m.vm.scopeDepth
  caller : s'.runtimeHadError = true ∨ s'.vm.stackTop = s.vm.stackTop - argCount + 1 ∧
    ∀ i < s.vm.stackTop - argCount, s'.vm.stack i = s.vm.stack i

/-- The function that has been entered at `e` is left by a return that finds nothing but its
operand above what the module had, and the caller has room for it. The other case is that of
a return without an operand, which no compiled function has. -/
def LeavesClean (cfg : Config) (m : FileModule) (argCount : Nat) (s e : State) : Prop :=
  ∃ ds b t, Inside cfg m.vm.callDepth e ds b ∧ b.vm.callDepth = m.vm.callDepth + 1 ∧
    dispatch cfg b = .done () t ∧ t.vm.callDepth = m.vm.callDepth ∧
    m.vm.scopeDepth ≤ b.vm.scopeDepth ∧
    (b.vm.stackTop = m.vm.stackTop + 1 ∧ s.vm.stackTop - argCount < vmStackMax ∨
      b.vm.stackTop = 0 ∧ m.vm.stackTop = 1)

section Results
variable {cfg : Config} {m : FileModule} {fn : Bytes} {argCount : Nat} {s : State}

theorem pushResult_hadError (s : State) (v : AerVal) :
    (s.pushResult v).runtimeHadError = s.runtimeHadError := by
  unfold State.pushResult
  split <;> rfl

theorem pushResult_stackTop (s : State) (v : AerVal) : (s.pushResult v).vm.stackTop =
    if s.vm.stackTop < vmStackMax then s.vm.stackTop + 1 else s.vm.stackTop := by
  unfold State.pushResult
  split <;> rfl

theorem pushResult_below (s : State) (v : AerVal) {i : Nat} (hi : i < s.vm.stackTop) :
    (s.pushResult v).vm.stack i = s.vm.stack i := by
  unfold State.pushResult
  split
  · exact Function.update_of_ne hi.ne _ _
  · rfl

theorem addErrors_hadError {s : State} {msgs : List Bytes} (h : msgs ≠ []) :
    (msgs.foldl State.addError s).runtimeHadError = true := by
  cases msgs with
  | nil => exact absurd rfl h
  | cons msg msgs => exact (State.Calm.addErrors (s.addError msg) msgs).hadError rfl

theorem noModuleFunction_hadError (cfg : Config) (module fn : Bytes) (argCount : Nat) (s : State) :
    ((noModuleFunction module fn argCount).run (exec cfg) s).state.runtimeHadError = true := by
  have hpush (t : State) (ht : t.runtimeHadError = true) :
      ((push .null).run (exec cfg) t).state.runtimeHadError = true := by
    unfold push perform
    rw [run_perform]
    simp only [exec, State.push]
    split
    · exact ht
    · rfl
  unfold noModuleFunction perform
  rw [run_bind, run_perform]
  simp only [exec, Outcome.done_andThen]
  obtain ⟨t, ht, -, herr⟩ := run_popN cfg argCount (s.addError
    (bytes "'" ++ module ++ bytes "' has no function '" ++ fn ++ bytes "'"))
  rw [run_bind, ht]
  exact hpush t (herr rfl)

/-- A function that is not entered leaves the module's machine where it stood. -/
theorem enterModule_refused {caller : State} {m' : FileModule}
    (h : enterModule cfg m fn argCount s = some (.refused caller m')) :
    Atomic argCount s m caller m' := by
  unfold enterModule at h
  split at h
  · cases h
  · split at h
    · cases h
      exact ⟨rfl, rfl, rfl, .inl (pushResult_hadError _ _)⟩
    · dsimp only at h
      split at h
      · cases h
      · next t hsetup =>
        cases h
        obtain ⟨hb, -⟩ | ⟨-, msg, rfl⟩ := vmSetupCall_done hsetup
        · cases hb
        · refine ⟨?_, rfl, rfl, .inl ?_⟩
          · simp only [State.dropped, State.addError, State.withOperands, State.topArgs,
              List.length_map, List.length_range, moduleMachine, Nat.add_sub_cancel]
          · rw [pushResult_hadError]
            refine addErrors_hadError ?_
            simp only [State.newMessages, State.addError, State.withOperands, moduleMachine,
              List.length_cons, Nat.add_sub_cancel_left]
            exact List.cons_ne_nil _ _
      · cases h

/-- A function that is entered runs in a frame above those of the module. -/
theorem enterModule_entered {e : State} (hok : s.runtimeHadError = false)
    (hhalt : m.chunk.code[m.haltAddr]? = some Opcode.halt.word)
    (h : enterModule cfg m fn argCount s = some (.entered e)) :
    Running m.vm.callDepth m.haltAddr m.vm.scopeDepth e := by
  unfold enterModule at h
  split at h
  · cases h
  · next cell _ =>
    split at h
    · cases h
    · next hroom =>
      dsimp only at h
      split at h
      · next callee hsetup =>
        cases h
        have hheight : ((moduleMachine m s).withOperands (s.topArgs argCount)).vm.stackTop ≤
            vmStackMax := by
          simp only [State.withOperands, State.topArgs, List.length_map, List.length_range,
            moduleMachine]
          omega
        have hend := Lib.Interaction.run_preserves
          (I := fun u : State => u.vm.stackTop ≤ vmStackMax) (p := vmSetupCall (.function cell) argCount m.haltAddr)
          hheight fun o u _ hu => exec_room cfg o hu
        rw [hsetup] at hend
        obtain ⟨-, f, hf, rfl⟩ | ⟨hb, -⟩ := vmSetupCall_done hsetup
        · have hframe (stack : Nat → CallFrame) (frame : CallFrame) :
              Function.update stack m.vm.callDepth frame m.vm.callDepth = frame :=
            Function.update_self ..
          exact ⟨Nat.lt_succ_self _, hok, hend, Nat.succ_pos _,
            ⟨congrArg CallFrame.returnIp (hframe _ _),
              congrArg CallFrame.returnScopeDepth (hframe _ _)⟩, hhalt⟩
        · cases hb
      · cases h
      · cases h

/-- Behind the return that leaves the module's function the run stops at once. -/
theorem leftAt_stop {d base : Nat} {b u t : State} {w : Stop} (hb : Running d m.haltAddr base b)
    (hleft : LeftAt d m.haltAddr base b u) (hstop : dispatch cfg u = .stop w t) :
    t = u ∨ t = u.atIp (u.vm.ip + 1) := by
  cases herr : u.runtimeHadError with
  | true =>
    unfold dispatch at hstop
    rw [if_pos herr] at hstop
    cases hstop
    exact .inl rfl
  | false =>
    have hhalt := dispatch_halt cfg herr (hleft.gc ▸ hb.suppressed) (by
      rw [hleft.code, hleft.ip]
      exact hb.halts)
    rw [hhalt] at hstop
    cases hstop
    exact .inr rfl

theorem leftAt_not_done {d base : Nat} {b u v : State} (hb : Running d m.haltAddr base b)
    (hleft : LeftAt d m.haltAddr base b u) : dispatch cfg u ≠ .done () v := by
  intro hstep
  have hok := (dispatch_done hstep).1
  have hhalt := dispatch_halt cfg hok (hleft.gc ▸ hb.suppressed) (by
    rw [hleft.code, hleft.ip]
    exact hb.halts)
  rw [hhalt] at hstep
  cases hstep

/-- The result of a call whose run has left the function by the return at `b`. -/
theorem finishModule_left {d : Nat} {b u t : State} (hdepth : d = m.vm.callDepth)
    (hleft : LeftAt d m.haltAddr m.vm.scopeDepth b u) (ht : t = u ∨ t = u.atIp (u.vm.ip + 1)) :
    Atomic argCount s m (finishModule m argCount s t).1 (finishModule m argCount s t).2 ↔
      m.vm.scopeDepth ≤ b.vm.scopeDepth ∧
        (b.vm.stackTop = m.vm.stackTop + 1 ∧ s.vm.stackTop - argCount < vmStackMax ∨
          b.vm.stackTop = 0 ∧ m.vm.stackTop = 1) := by
  have hcall : t.vm.callDepth = m.vm.callDepth := by
    rw [← hdepth, ← hleft.callDepth]
    obtain rfl | rfl := ht <;> rfl
  have hscope : t.vm.scopeDepth = min b.vm.scopeDepth m.vm.scopeDepth := by
    rw [← hleft.scopeDepth]
    obtain rfl | rfl := ht <;> rfl
  have hheight : t.vm.stackTop = b.vm.stackTop - 1 + 1 := by
    rw [← hleft.stackTop]
    obtain rfl | rfl := ht <;> rfl
  have herr : t.runtimeHadError = true ↔ b.vm.stackTop = 0 := by
    rw [← hleft.hadError]
    obtain rfl | rfl := ht <;> rfl
  clear ht hleft
  unfold finishModule
  by_cases hzero : b.vm.stackTop = 0
  · rw [if_pos (.inl (herr.mpr hzero))]
    refine ⟨fun h => ⟨?_, .inr ⟨hzero, ?_⟩⟩, fun h => ⟨?_, hcall, ?_, .inl ?_⟩⟩
    · have := h.scopeDepth.symm.trans hscope
      omega
    · have := h.stackTop.symm.trans hheight
      omega
    · refine hheight.trans ?_
      omega
    · refine hscope.trans ?_
      omega
    · rw [pushResult_hadError]
      exact herr.mpr hzero
  · have hok : t.runtimeHadError = false := Bool.eq_false_iff.mpr fun h => hzero (herr.mp h)
    have hcond : ¬ (t.runtimeHadError = true ∨ t.vm.stackTop = 0) := by
      rw [hok]
      rintro (h | h)
      · cases h
      · omega
    rw [if_neg hcond]
    refine ⟨fun h => ⟨?_, .inl ⟨?_, ?_⟩⟩, fun h => ⟨?_, hcall, ?_, .inr ?_⟩⟩
    · have := h.scopeDepth.symm.trans hscope
      omega
    · have htop : t.vm.stackTop - 1 = m.vm.stackTop := h.stackTop
      omega
    · obtain herror | ⟨hresult, -⟩ := h.caller
      · rw [pushResult_hadError] at herror
        exact absurd (hok.symm.trans herror) Bool.false_ne_true
      · by_contra hfull
        rw [pushResult_stackTop] at hresult
        have hresult := (if_neg hfull).symm.trans hresult
        have hresult : s.vm.stackTop - argCount = s.vm.stackTop - argCount + 1 := hresult
        omega
    · obtain ⟨hb, -⟩ | ⟨hb, -⟩ := h.2
      · have htop : t.vm.stackTop - 1 = m.vm.stackTop := by omega
        exact htop
      · exact absurd hb hzero
    · refine hscope.trans ?_
      omega
    · obtain ⟨-, hroom⟩ | ⟨hb, -⟩ := h.2
      · refine ⟨?_, fun i hi => pushResult_below _ _ hi⟩
        rw [pushResult_stackTop]
        exact if_pos hroom
      · exact absurd hb hzero

end Results

/-- A call of a module's function is atomic exactly when the function is not entered, or is
left clean. -/
theorem CallModule.atomic_iff {cfg : Config} {m : FileModule} {fn : Bytes} {argCount : Nat}
    {s s' : State} {m' : FileModule} (h : CallModule cfg m fn argCount s s' m')
    (hok : s.runtimeHadError = false)
    (hhalt : m.chunk.code[m.haltAddr]? = some Opcode.halt.word) :
    Atomic argCount s m s' m' ↔
      ∀ e, enterModule cfg m fn argCount s = some (.entered e) → LeavesClean cfg m argCount s e := by
  cases h with
  | unhandled hcall =>
    cases hcall with
    | unknown hentry =>
      refine iff_of_true ⟨rfl, rfl, rfl, .inl (noModuleFunction_hadError ..)⟩ fun e he => ?_
      rw [hentry] at he
      cases he
  | handled hcall =>
    cases hcall with
    | refused hentry =>
      refine iff_of_true (enterModule_refused hentry) fun e he => ?_
      rw [hentry] at he
      cases he
    | @ran e u t w hentry hrun hstop hw =>
      have hrunning := enterModule_entered hok hhalt hentry
      constructor
      · intro hatomic e' he'
        rw [hentry] at he'
        cases he'
        obtain hinside | ⟨ds, b, hin, hb, hdepth, hstep, hleft⟩ := hrunning.ends hrun hstop
        · -- the run has stopped inside the function
          have hsame := hatomic.callDepth
          unfold finishModule at hsame
          split at hsame
          · exact absurd hsame hinside.ne'
          · exact absurd hsame hinside.ne'
        · have hclean := (finishModule_left rfl hleft (leftAt_stop hb hleft hstop)).mp hatomic
          exact ⟨ds, b, u, hin, hdepth, hstep, hleft.callDepth, hclean⟩
      · intro hclean
        obtain ⟨ds, b, v, hin, hdepth, hstep, hv, hheights⟩ := hclean e hentry
        have hb := hin.running hrunning (by omega) (dispatch_done hstep).1
        obtain hu | ⟨-, hu⟩ | ⟨-, hleft⟩ := hb.step hstep
        · have := hu.depth
          omega
        · omega
        · -- the run is deterministic, so it is this return that it has come to
          have hrest := (hin.steps.tail hstep).through hrun hstop
          obtain rfl | ⟨x, hx, -⟩ := hrest.cases_head
          · exact (finishModule_left rfl hleft (leftAt_stop hb hleft hstop)).mpr hheights
          · exact absurd hx (leftAt_not_done hb hleft)

/-- `OP_CALL_MODULE` with at most `fuel` instructions of the module's function. -/
def callModule? (cfg : Config) (fuel : Nat) (m : FileModule) (fn : Bytes) (argCount : Nat)
    (s : State) : Option (State × FileModule) :=
  match enterModule cfg m fn argCount s with
  | none => none
  | some .unknown => some (((noModuleFunction m.name fn argCount).run (exec cfg) s).state, m)
  | some (.refused caller m') => some (caller, m')
  | some (.entered e) =>
      match vmRun cfg fuel e with
      | .stop .fault _ | .done _ _ => none
      | .stop _ t => some (finishModule m argCount s t)

theorem stops_of_vmRun {cfg : Config} {n : Nat} {s t : State} {w : Stop}
    (h : vmRun cfg n s = .stop w t) : ∃ u, Steps cfg s u ∧ dispatch cfg u = .stop w t := by
  induction n generalizing s with
  | zero => cases h
  | succ n ih =>
    unfold vmRun Outcome.andThen at h
    split at h
    · next u hstep =>
      obtain ⟨v, hv, hstop⟩ := ih h
      exact ⟨v, hv.head hstep, hstop⟩
    · next hstop =>
      cases h
      exact ⟨s, .refl s, hstop⟩

theorem callModule_of_run {cfg : Config} {fuel : Nat} {m m' : FileModule} {fn : Bytes}
    {argCount : Nat} {s s' : State}
    (h : callModule? cfg fuel m fn argCount s = some (s', m')) :
    CallModule cfg m fn argCount s s' m' := by
  unfold callModule? at h
  split at h
  · cases h
  · next hentry =>
    cases h
    exact .unhandled (.unknown hentry)
  · next hentry =>
    cases h
    exact .handled (.refused hentry)
  · next e hentry =>
    split at h
    · cases h
    · cases h
    · next w t hfault hrun =>
      obtain ⟨u, hu, hstop⟩ := stops_of_vmRun hrun
      have hcall := AerModuleCall.ran hentry hu hstop hfault
      rw [Option.some.inj h] at hcall
      exact .handled hcall

section Sample

def moduleProgram : String :=
  "function id(a):\n    return a\nfunction first(n):\n    for i in 0..n:\n        return i\n"

/-- The state in which the module's own program has run to its end. -/
def moduleLoaded : State := after 10 20 moduleProgram

def sampleModule : FileModule :=
  ⟨bytes "m", moduleLoaded.chunk, moduleLoaded.vm, moduleLoaded.chunk.count - 1⟩

/-- A caller with the argument 3 on its stack. -/
def sampleCaller : State :=
  ({ State.init with heap := moduleLoaded.heap } : State).withOperands [.integer ⟨3, by decide⟩]

/-- Both functions return to the caller; the second one leaves its loop's operands behind. -/
theorem sampleModule_spec :
    (callModule? {} 10 sampleModule (bytes "id") 1 sampleCaller).isSome = true ∧
      sampleModule.chunk.code[sampleModule.haltAddr]? = some Opcode.halt.word ∧
      (callModule? {} 20 sampleModule (bytes "first") 1 sampleCaller).map
        (fun x => (x.1.runtimeHadError, x.2.vm.stackTop)) = some (false, 3) ∧
      sampleModule.vm.stackTop = 0 := by
  decide +kernel

theorem CallModule.atomic_iff_id : ∃ s' m',
    CallModule {} sampleModule (bytes "id") 1 sampleCaller s' m' ∧
      (Atomic 1 sampleCaller sampleModule s' m' ↔
        ∀ e, enterModule {} sampleModule (bytes "id") 1 sampleCaller = some (.entered e) →
          LeavesClean {} sampleModule 1 sampleCaller e) := by
  obtain ⟨hrun, hhalt, -, -⟩ := sampleModule_spec
  obtain ⟨⟨s', m'⟩, heq⟩ := Option.isSome_iff_exists.mp hrun
  have hcall := callModule_of_run heq
  exact ⟨s', m', hcall, CallModule.atomic_iff hcall rfl hhalt⟩

/-- A `return` in a loop over a range leaves the loop's iterator on the module's stack. -/
theorem first_not_atomic : ∃ s' m', CallModule {} sampleModule (bytes "first") 1 sampleCaller s' m' ∧
    s'.runtimeHadError = false ∧ ¬ Atomic 1 sampleCaller sampleModule s' m' := by
  obtain ⟨-, -, hrun, hstart⟩ := sampleModule_spec
  obtain ⟨⟨s', m'⟩, heq, hend⟩ := Option.map_eq_some_iff.mp hrun
  rw [Prod.mk.injEq] at hend
  refine ⟨s', m', callModule_of_run heq, hend.1, fun hatomic => ?_⟩
  have hsame := hatomic.stackTop
  rw [hend.2, hstart] at hsame
  cases hsame

end Sample

end Aer.Program
