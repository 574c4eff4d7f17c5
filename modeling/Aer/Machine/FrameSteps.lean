import Aer.Machine.Frames
import Aer.Machine.Calls

set_option linter.all false

/-! What an operation, and so an instruction, does to the call frames. -/
namespace Aer.Machine

open Aer.Data Aer.Memory Aer.Lib.Interaction

/-- The frames are the same, as is the code, and a reported error stays reported. -/
structure State.Calm (s t : State) : Prop where
  code : t.chunk.code = s.chunk.code
  hadError : s.runtimeHadError = true → t.runtimeHadError = true
  callDepth : t.vm.callDepth = s.vm.callDepth
  callStack : t.vm.callStack = s.vm.callStack

/-- A result, if there is one, with the frames as they were. -/
def CalmResult {α : Type} (s : State) (r : Result α) : Prop := ∀ a t, r = .done a t → s.Calm t

namespace State.Calm

theorem refl (s : State) : s.Calm s := ⟨rfl, id, rfl, rfl⟩

theorem trans {s t u : State} (h : s.Calm t) (h' : t.Calm u) : s.Calm u :=
  ⟨h'.code.trans h.code, h'.hadError ∘ h.hadError, h'.callDepth.trans h.callDepth,
    h'.callStack.trans h.callStack⟩

theorem done {α : Type} {s t : State} {a : α} (h : s.Calm t) : CalmResult s (.done a t) := by
  rintro _ _ ⟨⟩
  exact h

theorem addError (s : State) (msg : Bytes) : s.Calm (s.addError msg) := ⟨rfl, fun _ => rfl, rfl, rfl⟩

theorem addErrors (s : State) (msgs : List Bytes) : s.Calm (msgs.foldl State.addError s) := by
  induction msgs generalizing s with
  | nil => exact .refl s
  | cons msg msgs ih => exact (addError s msg).trans (ih _)

theorem writeAddr (s : State) (a : Addr) (v : AerVal) : s.Calm (s.writeAddr a v) := by
  cases a <;> exact ⟨rfl, id, rfl, rfl⟩

theorem vmScopeDefine (s : State) (name : Nat) (v : AerVal) : s.Calm (s.vmScopeDefine name v) := by
  unfold State.vmScopeDefine
  dsimp only
  split
  · exact writeAddr _ _ _
  · split
    · exact ⟨rfl, id, rfl, rfl⟩
    · split <;> exact ⟨rfl, id, rfl, rfl⟩

theorem freeScope (s : State) (i : Nat) : s.Calm (s.freeScope i) := by
  unfold State.freeScope
  dsimp only
  split <;> exact ⟨rfl, id, rfl, rfl⟩

theorem popOneScope (s : State) : s.Calm s.popOneScope :=
  (⟨rfl, id, rfl, rfl⟩ : s.Calm { s with vm := { s.vm with scopeDepth := s.vm.scopeDepth - 1 } }).trans
    (freeScope _ _)

theorem popScopes (n : Nat) (s : State) : s.Calm (State.popScopes n s) := by
  induction n generalizing s with
  | zero => exact .refl s
  | succ n ih => exact (popOneScope s).trans (ih _)

end State.Calm

theorem calm_stop {α : Type} (s : State) (w : Stop) (t : State) :
    CalmResult s (.stop w t : Result α) :=
  fun _ _ h => nomatch h

theorem calm_orFault {α : Type} (s : State) (o : Option α) : CalmResult s (orFault o s) := by
  cases o with
  | none => exact calm_stop s _ _
  | some a => exact (State.Calm.refl s).done

section Operations
variable (s : State)

theorem calm_push (v : AerVal) : CalmResult s (s.push v) := by
  unfold State.push
  split
  · exact .done ⟨rfl, id, rfl, rfl⟩
  · exact calm_stop _ _ _

theorem calm_pop : CalmResult s s.pop := by
  unfold State.pop
  split
  · exact (State.Calm.addError s _).done
  · exact .done ⟨rfl, id, rfl, rfl⟩

theorem calm_resolve (caching : Bool) (name cache : Nat) :
    CalmResult s (s.resolve caching name cache) := by
  unfold State.resolve
  split
  · split
    · exact (State.Calm.refl s).done
    · dsimp only
      split
      · exact .done ⟨rfl, id, rfl, rfl⟩
      · exact (State.Calm.refl s).done
  · exact calm_stop _ _ _

theorem calm_store (a : Addr) (v : AerVal) : CalmResult s (s.store a v) := by
  unfold State.store
  split
  · exact (State.Calm.writeAddr s a v).done
  · exact calm_stop _ _ _

theorem calm_boxSlot (name : Nat) {b : BoxRef} {t : State} (h : s.vmBoxSlot name = some (b, t)) :
    s.Calm t := by
  unfold State.vmBoxSlot at h
  split at h
  · cases h
  · cases h
    exact ⟨rfl, id, rfl, rfl⟩
  · dsimp only at h
    split at h
    · cases h
      exact .refl s
    · cases h
      exact ⟨rfl, id, rfl, rfl⟩

theorem calm_callNative (native : List NativeCall → NativeCall → Option NativeResult)
    (module fn : Bytes) (n : Nat) : CalmResult s (s.callNative native module fn n) := by
  unfold State.callNative
  split
  · dsimp only
    split
    · exact (State.Calm.refl s).done
    · refine (State.Calm.trans ?_ (State.Calm.addErrors _ _)).done
      exact ⟨rfl, id, rfl, rfl⟩
  · exact calm_stop _ _ _

end Operations

theorem exec_calm (cfg : Config) {o : Op} (ho : o.isFrameFree = true) (s : State) :
    CalmResult s (exec cfg o s) := by
  cases o with
  | push v => exact calm_push s v
  | pop => exact calm_pop s
  | resolve name cache => exact calm_resolve s _ name cache
  | store a v => exact calm_store s a v
  | callNative module fn n => exact calm_callNative s _ module fn n
  | boxSlot name =>
    simp only [exec]
    split
    · exact (calm_boxSlot s name ‹_›).done
    · exact (State.Calm.addError s _).done
  | storeUpvalue b v =>
    intro a t h
    obtain ⟨hcode, herror, hdepth, hframes⟩ :=
      calm_store { s with heap := s.heap.gcBarrierBox b v } (.box b) v a t h
    exact ⟨hcode, herror, hdepth, hframes⟩
  | writeLocal slot v =>
    simp only [exec]
    split
    · exact calm_store s _ v
    · exact calm_stop s _ _
  | defineLocal slot name v =>
    simp only [exec, State.defineLocal]
    split
    · exact .done ⟨rfl, id, rfl, rfl⟩
    · exact calm_stop s _ _
  | scopeDefine name v =>
    simp only [exec]
    split
    · exact (State.Calm.vmScopeDefine s name v).done
    · exact calm_stop s _ _
  | pushScope =>
    simp only [exec, State.pushScope]
    split
    · exact .done ⟨rfl, id, rfl, rfl⟩
    · exact calm_stop s _ _
  | popScope =>
    simp only [exec, State.popScope]
    split
    · exact calm_stop s _ _
    · exact (State.Calm.popOneScope s).done
  | unwindScopes =>
    simp only [exec]
    split
    · exact calm_stop s _ _
    · exact (State.Calm.popScopes _ s).done
  | pendUpvalue b =>
    simp only [exec, State.pendUpvalue]
    split
    · exact .done ⟨rfl, id, rfl, rfl⟩
    · exact calm_stop s _ _
  | takeUpvalues n =>
    simp only [exec, State.takeUpvalues]
    split
    · exact .done ⟨rfl, id, rfl, rfl⟩
    · exact calm_stop s _ _
  | read | readIdx | peek _ | poke _ _ | drop _ | argAt _ | slide _ | nameText _ =>
    simp only [exec]
    split <;> first
      | exact .done ⟨rfl, id, rfl, rfl⟩
      | exact calm_stop s _ _
      | exact calm_orFault s _
  | constant _ | readLocal _ | load _ | frameDefers | frameDraining | upvalue _ | asInt _
  | string _ | array _ | dict _ | function _ | shape _ | format _ | typeName _ =>
    exact calm_orFault s _
  | error msg => exact (State.Calm.addError s msg).done
  | fail | halt | fault => exact calm_stop s _ _
  | pushFrame _ _ | setFrameFunction _ | setDefers _ | stashReturn _ | takeReturn | popFrame =>
    cases ho
  | getIp | setIp _ | hasRoom _ | scopeGet _ | callDepth | pendingCount | newInt _ | newString _
  | newArray _ | newDict _ | newFunction _ | appendItem _ _ | setItem _ _ _ | deleteItem _ _
  | setEntry _ _ _ | deleteEntry _ _ | findShape _ | defineShape _ | hadError | print _
  | countAssertFailure =>
    exact State.Calm.done ⟨rfl, id, rfl, rfl⟩

/-- Calls may have been entered, and the running call may have become one of another
function; otherwise the frames are the same. -/
structure State.Deepens (s t : State) : Prop where
  code : t.chunk.code = s.chunk.code
  hadError : s.runtimeHadError = true → t.runtimeHadError = true
  callDepth : s.vm.callDepth ≤ t.vm.callDepth
  callStack : ∀ i < s.vm.callDepth,
    ∃ cell, t.vm.callStack i = { s.vm.callStack i with function := cell }

namespace State

theorem Calm.deepens {s t : State} (h : s.Calm t) : s.Deepens t :=
  ⟨h.code, h.hadError, h.callDepth.ge, fun i _ => ⟨_, congrFun h.callStack i⟩⟩

theorem Deepens.trans {s t u : State} (h : s.Deepens t) (h' : t.Deepens u) : s.Deepens u where
  code := h'.code.trans h.code
  hadError := h'.hadError ∘ h.hadError
  callDepth := h.callDepth.trans h'.callDepth
  callStack i hi := by
    obtain ⟨cell, hcell⟩ := h.callStack i hi
    obtain ⟨cell', hcell'⟩ := h'.callStack i (lt_of_lt_of_le hi h.callDepth)
    exact ⟨cell', by rw [hcell', hcell]⟩

theorem deepens_framed {s : State} (cell returnIp : Nat) : s.Deepens (s.framed cell returnIp) where
  code := rfl
  hadError := id
  callDepth := Nat.le_succ _
  callStack _ hi := ⟨_, Function.update_of_ne hi.ne _ _⟩

theorem deepens_setFrameFunction {s t : State} {cell : Nat}
    (h : (s.updateFrame fun f => { f with function := cell }) = .done () t) : s.Deepens t := by
  unfold updateFrame at h
  split at h
  · next g hg =>
    cases h
    refine ⟨rfl, id, le_refl _, fun i _ => ?_⟩
    have hpos : s.vm.callDepth ≠ 0 := by
      intro h0
      rw [topFrame, if_pos h0] at hg
      cases hg
    rw [topFrame, if_neg hpos, Option.some.injEq] at hg
    by_cases hi : i = s.vm.callDepth - 1
    · subst hi
      exact ⟨cell, by simp only [Vm.setFrame, Function.update_self, hg]⟩
    · exact ⟨_, Function.update_of_ne hi _ _⟩
  · cases h

end State

theorem exec_deepens (cfg : Config) {o : Op} (ho : o.keepsDefers = true) {s t : State} {r : o.Ans}
    (h : exec cfg o s = .done r t) : s.Deepens t := by
  by_cases hfree : o.isFrameFree = true
  · exact (exec_calm cfg hfree s r t h).deepens
  cases o
  case pushFrame cell ip =>
    simp only [exec, State.pushFrame] at h
    split at h
    · cases h
      exact State.deepens_framed cell ip
    · cases h
  case setFrameFunction cell => exact State.deepens_setFrameFunction h
  case setDefers | stashReturn | takeReturn | popFrame => cases ho
  all_goals exact absurd rfl hfree

theorem FrameFree.run_calm {cfg : Config} {α : Type} {p : Handler α} (hp : FrameFree p)
    {s t : State} {a : α} (h : p.run (exec cfg) s = .done a t) : s.Calm t :=
  Only.run_invariant hp h (State.Calm.refl s) fun _ u r v ho hu he =>
    hu.trans (exec_calm cfg ho u r v he)

theorem KeepsDefers.run_deepens {cfg : Config} {α : Type} {p : Handler α} (hp : KeepsDefers p)
    {s t : State} {a : α} (h : p.run (exec cfg) s = .done a t) : s.Deepens t :=
  Only.run_invariant hp h (State.Calm.refl s).deepens fun _ _ _ _ ho hu he =>
    hu.trans (exec_deepens cfg ho he)

/-! The fetch of an instruction. -/

namespace State

theorem calm_gcCollect (s : State) (minor : Bool) : s.Calm (s.gcCollect minor) := by
  unfold gcCollect
  generalize s.heap.gcCollect s.roots minor = heap
  exact ⟨rfl, id, rfl, rfl⟩

theorem calm_minorCycle (s : State) : s.Calm s.minorCycle := by
  have h := s.calm_gcCollect true
  unfold minorCycle
  generalize s.gcCollect true = t at h
  exact h.trans ⟨rfl, id, rfl, rfl⟩

theorem calm_majorCycle (s : State) : s.Calm s.majorCycle := by
  have h := s.calm_gcCollect false
  unfold majorCycle
  generalize s.gcCollect false = t at h
  exact h.trans ⟨rfl, id, rfl, rfl⟩

theorem calm_reportCeiling (s : State) : s.Calm s.reportCeiling := by
  unfold reportCeiling
  split
  · exact .refl s
  · exact .addError s _

theorem calm_checkCeiling (s : State) (majorRan : Bool) : s.Calm (s.checkCeiling majorRan) := by
  unfold checkCeiling
  split
  · exact .refl s
  · split
    · exact s.calm_reportCeiling
    · exact s.calm_majorCycle.trans (calm_reportCeiling _)

theorem calm_gcMaybeCollect (s : State) : s.Calm s.gcMaybeCollect := by
  unfold gcMaybeCollect gcRunCollectionCycle
  split
  · exact .refl s
  · split
    · exact .refl s
    · dsimp only
      split
      · exact s.calm_minorCycle.trans ((calm_majorCycle _).trans (calm_checkCeiling _ _))
      · exact s.calm_minorCycle.trans (calm_checkCeiling _ _)

/-- The opcode that the instruction pointer is at. -/
def nextOpcode (s : State) : Option Opcode := s.chunk.code[s.vm.ip]?.bind Opcode.ofWord?

/-- The machine when the handler of the next instruction begins. -/
def fetched (s : State) : State := s.gcMaybeCollect.atIp (s.vm.ip + 1)

theorem calm_fetched (s : State) : s.Calm s.fetched :=
  s.calm_gcMaybeCollect.trans ⟨rfl, id, rfl, rfl⟩

end State

theorem run_readOpcode {cfg : Config} {s t : State} {op : Opcode}
    (h : readOpcode.run (exec cfg) s = .done op t) :
    s.nextOpcode = some op ∧ t = s.atIp (s.vm.ip + 1) := by
  unfold readOpcode perform at h
  rw [run_bind, run_perform] at h
  obtain ⟨w, u, hread, h⟩ := Outcome.andThen_eq_done.mp h
  have hw : s.chunk.code[s.vm.ip]? = some w ∧ u = s.atIp (s.vm.ip + 1) := by
    simp only [exec] at hread
    split at hread
    · next w' hw =>
      cases hread
      exact ⟨hw, rfl⟩
    · cases hread
  obtain ⟨hcode, rfl⟩ := hw
  unfold State.nextOpcode
  rw [hcode, Option.bind_some]
  cases hop : Opcode.ofWord? w with
  | none =>
    rw [hop] at h
    cases h
  | some o =>
    rw [hop] at h
    cases h
    exact ⟨rfl, rfl⟩

/-- A turn of the dispatch loop runs the handler of the next opcode. -/
theorem dispatch_done {cfg : Config} {s t : State} (h : dispatch cfg s = .done () t) :
    s.runtimeHadError = false ∧
      ∃ op, s.nextOpcode = some op ∧ (handler op).run (exec cfg) s.fetched = .done () t := by
  unfold dispatch at h
  split at h
  · cases h
  · next herr =>
    refine ⟨Bool.eq_false_iff.mpr herr, ?_⟩
    unfold instruction at h
    rw [run_bind] at h
    obtain ⟨op, u, hread, h⟩ := Outcome.andThen_eq_done.mp h
    obtain ⟨hop, rfl⟩ := run_readOpcode hread
    have hcalm := s.calm_gcMaybeCollect
    have hvm : s.gcMaybeCollect.vm = s.vm := s.gcMaybeCollect_vm
    unfold State.nextOpcode at hop
    rw [hcalm.code, hvm] at hop
    rw [hvm] at h
    exact ⟨op, hop, h⟩

end Aer.Machine
