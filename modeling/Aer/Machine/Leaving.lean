import Aer.Machine.DeferRuns

set_option linter.all false

/-! What an instruction does to the heights of the machine, also where it stops: only a
return lowers the call depth, and it leaves the operands as high as it has found them. -/
namespace Aer.Machine

open Aer.Data Aer.Memory Aer.Lib.Interaction

/-- A stopped operation has left the machine alone, but for the report of an error. -/
theorem exec_stop_vm (cfg : Config) {o : Op} {s t : State} {w : Stop}
    (h : exec cfg o s = .stop w t) : t.vm = s.vm := by
  have hfault : ∀ {α : Type} {x : Option α} {u : State} {w : Stop} {t : State},
      orFault x u = .stop w t → t = u := by
    intro α x u w t h
    cases x <;> cases h
    rfl
  have hstore : ∀ {u : State} {a : Addr} {v : AerVal} {w : Stop} {t : State},
      u.store a v = .stop w t → t = u := by
    intro u a v w t h
    unfold State.store at h
    split at h <;> cases h
    rfl
  cases o
  case storeUpvalue b v => rw [hstore h]
  case store a v => rw [hstore h]
  all_goals simp only [exec, State.push, State.pop, State.resolve, State.defineLocal,
    State.pushScope, State.popScope, State.pushFrame, State.updateFrame, State.takeReturn,
    State.popFrame, State.pendUpvalue, State.takeUpvalues, State.gain, State.withHeap,
    State.callNative] at h
  all_goals
    first
      | rw [hfault h]
      | cases h
      | (repeat' split at h)
  all_goals
    first
      | rfl
      | rw [hfault h]
      | rw [hstore h]
      | (cases h; done)
      | (cases h; rfl)

/-- Whether an operation leaves the operands' height and the scope depth alone. -/
@[grind] def Op.isLevel : Op → Bool
  | .push _ | .pop | .drop _ | .slide _ | .callNative _ _ _ | .pushScope | .popScope
  | .unwindScopes => false
  | _ => true

namespace State

/-- The operands are as high and the scopes as deep; the collector's settings are the same. -/
structure Level (s t : State) : Prop where
  stackTop : t.vm.stackTop = s.vm.stackTop
  scopeDepth : t.vm.scopeDepth = s.vm.scopeDepth
  gc : t.gc = s.gc

namespace Level

theorem refl (s : State) : s.Level s := ⟨rfl, rfl, rfl⟩

theorem trans {s t u : State} (h : s.Level t) (h' : t.Level u) : s.Level u :=
  ⟨h'.stackTop.trans h.stackTop, h'.scopeDepth.trans h.scopeDepth, h'.gc.trans h.gc⟩

theorem writeAddr (s : State) (a : Addr) (v : AerVal) : s.Level (s.writeAddr a v) := by
  cases a <;> exact ⟨rfl, rfl, rfl⟩

theorem vmScopeDefine (s : State) (name : Nat) (v : AerVal) : s.Level (s.vmScopeDefine name v) := by
  unfold State.vmScopeDefine
  dsimp only
  split
  · exact writeAddr _ _ _
  · split
    · exact ⟨rfl, rfl, rfl⟩
    · split <;> exact ⟨rfl, rfl, rfl⟩

theorem boxSlot {s t : State} {name : Nat} {b : BoxRef} (h : s.vmBoxSlot name = some (b, t)) :
    s.Level t := by
  unfold State.vmBoxSlot at h
  split at h
  · cases h
  · cases h
    exact ⟨rfl, rfl, rfl⟩
  · dsimp only at h
    split at h
    · cases h
      exact .refl s
    · cases h
      exact ⟨rfl, rfl, rfl⟩

end Level

end State

theorem exec_level (cfg : Config) {o : Op} (ho : o.isLevel = true) {s t : State} {r : o.Ans}
    (h : exec cfg o s = .done r t) : s.Level t := by
  have hfault : ∀ {α : Type} {x : Option α} {u : State} {a : α} {t : State},
      orFault x u = .done a t → t = u := by
    intro α x u a t h
    cases x <;> cases h
    rfl
  have hstore : ∀ {u : State} {a : Addr} {v : AerVal} {t : State},
      u.store a v = .done () t → u.Level t := by
    intro u a v t h
    unfold State.store at h
    split at h <;> cases h
    exact .writeAddr u a v
  cases o
  case push | pop | drop | slide | callNative | pushScope | popScope | unwindScopes => cases ho
  case storeUpvalue b v =>
    obtain ⟨h1, h2, h3⟩ := hstore h
    exact ⟨h1, h2, h3⟩
  case store a v => exact hstore h
  case boxSlot name =>
    simp only [exec] at h
    split at h
    · cases h
      exact .boxSlot ‹_›
    · cases h
      exact ⟨rfl, rfl, rfl⟩
  all_goals simp only [exec, State.resolve, State.defineLocal, State.pushFrame, State.updateFrame,
    State.takeReturn, State.popFrame, State.pendUpvalue, State.takeUpvalues, State.gain,
    State.withHeap] at h
  all_goals
    first
      | (rw [hfault h]; exact .refl s)
      | (cases h; done)
      | (cases h; exact ⟨rfl, rfl, rfl⟩)
      | (repeat' split at h)
  all_goals
    first
      | (rw [hfault h]; exact .refl s)
      | exact hstore h
      | (cases h; done)
      | (cases h; exact ⟨rfl, rfl, rfl⟩)
      | (cases h; exact .vmScopeDefine s _ _)

def Leveled {α : Type} (p : Handler α) : Prop := p.Only fun o => o.isLevel = true

namespace Leveled

variable {α β : Type}

@[grind ←] theorem pure (a : α) : Leveled (pure a) := trivial

@[grind ←] theorem perform {o : Op} (h : o.isLevel = true) : Leveled (perform o) := Only.perform h

@[grind ←] theorem bind {p : Handler α} {f : α → Handler β} (hp : Leveled p)
    (hf : ∀ a, Leveled (f a)) : Leveled (p >>= f) :=
  Only.bind hp hf

theorem run_level {cfg : Config} {p : Handler α} (hp : Leveled p) {s t : State} {a : α}
    (h : p.run (exec cfg) s = .done a t) : s.Level t :=
  Only.run_invariant hp h (State.Level.refl s) fun _ _ _ _ ho hu he => hu.trans (exec_level cfg ho he)

end Leveled

/-! The built-ins and constructors work on the heap. -/

@[grind ←] theorem leveled_vmTruthy (v) : Leveled (vmTruthy v) := by
  unfold vmTruthy
  grind -ring -linarith

@[grind ←] theorem leveled_errorWith (m v) : Leveled (errorWith m v) := by
  unfold errorWith
  grind -ring -linarith

@[grind ←] theorem leveled_printValue (v) : Leveled (printValue v) := by
  unfold printValue
  grind -ring -linarith

@[grind ←] theorem leveled_builtinLength (f v) : Leveled (builtinLength f v) := by
  unfold builtinLength
  grind -ring -linarith

@[grind ←] theorem leveled_builtinDelete (o k) : Leveled (builtinDelete o k) := by
  unfold builtinDelete
  split
  · grind -ring -linarith
  · refine .bind (.perform rfl) fun a => ?_
    grind -ring -linarith
  · grind -ring -linarith

@[grind ←] theorem leveled_builtinAppend (o k) : Leveled (builtinAppend o k) := by
  unfold builtinAppend
  grind -ring -linarith

@[grind ←] theorem leveled_builtinAssert (o k) : Leveled (builtinAssert o k) := by
  unfold builtinAssert
  grind -ring -linarith

@[grind ←] theorem leveled_builtinPanic (o) : Leveled (builtinPanic o) := by
  unfold builtinPanic
  grind -ring -linarith

@[grind ←] theorem leveled_runBuiltin (f n a) : Leveled (runBuiltin f n a) := by
  unfold runBuiltin
  grind -ring -linarith

@[grind ←] theorem leveled_construct (n i a) : Leveled (construct n i a) := by
  unfold construct
  grind -ring -linarith

theorem leveled_vmCallBuiltin (n a) : Leveled (vmCallBuiltin n a) := by
  unfold vmCallBuiltin
  grind -ring -linarith

/-- The operands stay within their array. -/
theorem exec_room (cfg : Config) (o : Op) {s : State} (hs : s.vm.stackTop ≤ vmStackMax) :
    (exec cfg o s).state.vm.stackTop ≤ vmStackMax := by
  cases he : exec cfg o s with
  | stop w t =>
    change t.vm.stackTop ≤ _
    rw [exec_stop_vm cfg he]
    exact hs
  | done r t =>
    change t.vm.stackTop ≤ _
    by_cases ho : o.isLevel = true
    · rw [(exec_level cfg ho he).stackTop]
      exact hs
    cases o
    case push v =>
      simp only [exec, State.push] at he
      split at he <;> cases he
      assumption
    case pop =>
      simp only [exec, State.pop] at he
      split at he <;> cases he
      · exact hs
      · exact (Nat.sub_le _ _).trans hs
    case drop n =>
      simp only [exec] at he
      split at he <;> cases he
      exact (Nat.sub_le _ _).trans hs
    case slide n =>
      simp only [exec] at he
      split at he <;> cases he
      exact (Nat.sub_le _ _).trans hs
    case callNative module fn n =>
      simp only [exec, State.callNative] at he
      split at he
      · next hroom =>
        split at he <;> cases he
        · exact hs
        · rw [addErrors_vm]
          exact hroom.2
      · cases he
    case pushScope =>
      simp only [exec, State.pushScope] at he
      split at he <;> cases he
      exact hs
    case popScope =>
      simp only [exec, State.popScope] at he
      split at he <;> cases he
      exact (popScopes_stackTop 1 s).trans_le hs
    case unwindScopes =>
      simp only [exec, State.unwindScopes] at he
      split at he <;> cases he
      rw [popScopes_stackTop]
      exact hs
    all_goals exact absurd rfl ho

/-! The call depth. -/

theorem exec_depth (cfg : Config) {o : Op} (ho : o ≠ .popFrame) (s : State) :
    s.vm.callDepth ≤ (exec cfg o s).state.vm.callDepth := by
  cases he : exec cfg o s with
  | stop w t => exact (congrArg Vm.callDepth (exec_stop_vm cfg he)).ge
  | done r t =>
    by_cases hkeep : o.keepsDefers = true
    · exact (exec_deepens cfg hkeep he).callDepth
    cases o
    case setDefers ds =>
      obtain ⟨-, rfl⟩ := State.updateFrame_eq_done he
      exact le_refl _
    case stashReturn v =>
      obtain ⟨-, rfl⟩ := State.updateFrame_eq_done he
      exact le_refl _
    case takeReturn =>
      obtain ⟨-, -, rfl⟩ := takeReturn_done (by
        unfold perform
        rw [run_perform]
        exact he)
      exact le_refl _
    case popFrame => exact absurd rfl ho
    all_goals exact absurd rfl hkeep

/-- A program that never leaves a call. -/
def StaysIn {α : Type} (p : Handler α) : Prop := p.Only fun o => o ≠ .popFrame

namespace StaysIn

variable {α β : Type}

@[grind ←] theorem of_keepsDefers {p : Handler α} (h : KeepsDefers p) : StaysIn p :=
  Only.mono h fun _ ho he => by
    rw [he] at ho
    cases ho

@[grind ←] theorem of_frameFree {p : Handler α} (h : FrameFree p) : StaysIn p :=
  of_keepsDefers (.of_frameFree h)

@[grind ←] theorem pure (a : α) : StaysIn (pure a) := trivial

@[grind ←] theorem perform {o : Op} (h : o ≠ .popFrame) : StaysIn (perform o) := Only.perform h

@[grind ←] theorem bind {p : Handler α} {f : α → Handler β} (hp : StaysIn p)
    (hf : ∀ a, StaysIn (f a)) : StaysIn (p >>= f) :=
  Only.bind hp hf

theorem run_depth (cfg : Config) {p : Handler α} (hp : StaysIn p) (s : State) :
    s.vm.callDepth ≤ (p.run (exec cfg) s).state.vm.callDepth :=
  Only.run_preserves (I := fun t => s.vm.callDepth ≤ t.vm.callDepth) hp (le_refl _)
    fun _ t ho ht => ht.trans (exec_depth cfg ho t)

end StaysIn

theorem staysIn_lblDeferPush : StaysIn lblDeferPush := by
  unfold lblDeferPush
  repeat' first | with_reducible refine .bind ?_ fun _ => ?_ | split
  all_goals grind -ring -linarith

theorem staysIn_drainDefers (returnAddr fuel : Nat) : StaysIn (drainDefers returnAddr fuel) := by
  induction fuel with
  | zero => exact .pure _
  | succ fuel ih =>
    unfold drainDefers
    repeat' first | with_reducible refine .bind ?_ fun _ => ?_ | split
    all_goals grind -ring -linarith

/-- Only a return leaves a call. -/
theorem staysIn_handler {op : Opcode} (hret : op ≠ .ret) : StaysIn (handler op) := by
  by_cases hdefer : op = .deferPush
  · rw [hdefer]
    exact staysIn_lblDeferPush
  · exact .of_keepsDefers (keepsDefers_handler hret hdefer)

/-- The running call has been left with a value on top of the operands. -/
structure LeftCall (s t : State) : Prop where
  code : t.chunk.code = s.chunk.code
  gc : t.gc = s.gc
  hadError : t.runtimeHadError = s.runtimeHadError
  callDepth : t.vm.callDepth + 1 = s.vm.callDepth
  ip : t.vm.ip = s.top.returnIp
  scopeDepth : t.vm.scopeDepth = min s.vm.scopeDepth s.top.returnScopeDepth
  stackTop : t.vm.stackTop = s.vm.stackTop + 1

/-- Scopes have been popped down to a depth. -/
structure State.Unwound (s : State) (base : Nat) (t : State) : Prop where
  chunk : t.chunk = s.chunk
  gc : t.gc = s.gc
  hadError : t.runtimeHadError = s.runtimeHadError
  callDepth : t.vm.callDepth = s.vm.callDepth
  callStack : t.vm.callStack = s.vm.callStack
  stackTop : t.vm.stackTop = s.vm.stackTop
  scopeDepth : t.vm.scopeDepth = min s.vm.scopeDepth base

theorem gc_popScopes (n : Nat) (s : State) : (State.popScopes n s).gc = s.gc ∧
    (State.popScopes n s).chunk = s.chunk ∧
    (State.popScopes n s).runtimeHadError = s.runtimeHadError := by
  induction n generalizing s with
  | zero => exact ⟨rfl, rfl, rfl⟩
  | succ n ih =>
    obtain ⟨h1, h2, h3⟩ := ih s.popOneScope
    have hone : s.popOneScope.gc = s.gc ∧ s.popOneScope.chunk = s.chunk ∧
        s.popOneScope.runtimeHadError = s.runtimeHadError := by
      unfold State.popOneScope State.freeScope
      dsimp only
      split <;> exact ⟨rfl, rfl, rfl⟩
    exact ⟨h1.trans hone.1, h2.trans hone.2.1, h3.trans hone.2.2⟩

theorem State.unwound (s : State) (base : Nat) : s.Unwound base (s.unwindScopes base) := by
  obtain ⟨-, hcalls, hstack, -⟩ := popScopes_vm (s.vm.scopeDepth - base) s
  obtain ⟨hgc, hchunk, herr⟩ := gc_popScopes (s.vm.scopeDepth - base) s
  exact ⟨hchunk, hgc, herr, hcalls, hstack, popScopes_stackTop _ s, unwindScopes_depth s base⟩

theorem run_finishReturn (cfg : Config) {s : State} (hpos : 0 < s.vm.callDepth)
    (hdraining : s.top.defersDraining = true) (hroom : s.vm.stackTop < vmStackMax) :
    ∃ t, finishReturn.run (exec cfg) s = .done () t ∧ LeftCall s t := by
  have hfloor : s.vm.scopeFloor = s.top.returnScopeDepth := if_neg (Nat.pos_iff_ne_zero.mp hpos)
  have hunwind : exec cfg .unwindScopes s = .done () (s.unwindScopes s.top.returnScopeDepth) := by
    rw [← hfloor]
    exact if_neg (Nat.pos_iff_ne_zero.mp hpos)
  obtain ⟨hchunk, hgc, herr, hcalls, hstack, htops, hdepth⟩ := s.unwound s.top.returnScopeDepth
  generalize s.unwindScopes s.top.returnScopeDepth = w at *
  have htop : w.top = s.top := by
    unfold State.top
    rw [hcalls, hstack]
  have htake : exec cfg .takeReturn w = .done s.top.pendingReturnValue
      (w.setTop fun f => { f with defersDraining := false }) := by
    have hframe : w.topFrame = some w.top := State.topFrame_eq_some.mpr ⟨hcalls ▸ hpos, rfl⟩
    simp only [exec, State.takeReturn, hframe]
    rw [htop, if_pos hdraining, ← htop]
    rfl
  have hpop : exec cfg .popFrame (w.setTop fun f => { f with defersDraining := false }) =
      .done s.top.returnIp
        { w.setTop fun f => { f with defersDraining := false } with vm :=
          { (w.setTop fun f => { f with defersDraining := false }).vm with
            callDepth := w.vm.callDepth - 1 } } := by
    have hframe := State.topFrame_eq_some (s := w.setTop fun f => { f with defersDraining := false })
      |>.mpr ⟨show 0 < w.vm.callDepth from hcalls ▸ hpos, rfl⟩
    simp only [exec, State.popFrame, hframe, State.top_setTop, htop]
    rfl
  unfold finishReturn push perform
  simp only [run_bind, run_perform, hunwind, Outcome.done_andThen, htake, hpop]
  refine ⟨_, if_pos (by rw [← htops] at hroom; exact hroom), ?_⟩
  refine ⟨congrArg Chunk.code hchunk, hgc, herr, ?_, rfl, hdepth, congrArg (· + 1) htops⟩
  change w.vm.callDepth - 1 + 1 = _
  omega

theorem RunsInline.level {cfg : Config} {dc : DeferredCall} {s t : State}
    (h : RunsInline cfg dc s t) : s.Level t := by
  obtain ⟨name, v, -, hrun⟩ := h.run
  have htake : s.Level s.takeDefer := ⟨rfl, rfl, rfl⟩
  exact htake.trans ((leveled_vmCallBuiltin _ _).run_level hrun)

theorem RunsAllInline.level {cfg : Config} {dcs : List DeferredCall} {s t : State}
    (h : RunsAllInline cfg dcs s t) : s.Level t := by
  induction h with
  | nil s => exact .refl s
  | cons hone _ ih => exact hone.level.trans ih

/-- The loop over the deferred calls has come to the end: the frame is as it was but for
them, and so are the heights. -/
structure Drained (s t : State) : Prop where
  level : s.Level t
  code : t.chunk.code = s.chunk.code
  hadError : t.runtimeHadError = s.runtimeHadError
  callDepth : t.vm.callDepth = s.vm.callDepth
  returnIp : t.top.returnIp = s.top.returnIp
  returnScopeDepth : t.top.returnScopeDepth = s.top.returnScopeDepth
  draining : t.top.defersDraining = s.top.defersDraining

theorem Drained.refl (s : State) : Drained s s := ⟨.refl s, rfl, rfl, rfl, rfl, rfl, rfl⟩

theorem drained_of_false {cfg : Config} {returnAddr fuel : Nat} {s t : State}
    (h : (drainDefers returnAddr fuel).run (exec cfg) s = .done false t)
    (hfuel : s.top.defers.length < fuel) : Drained s t := by
  cases herr : t.runtimeHadError with
  | true =>
    rw [drainDefers_false h hfuel herr]
    exact .refl s
  | false =>
    obtain ⟨-, hall⟩ | ⟨hb, -⟩ := drainDefers_done h hfuel herr
    · obtain ⟨honly, htop⟩ := hall.onlyTop
      have hs : s.runtimeHadError = false :=
        Bool.eq_false_iff.mpr fun hs => by
          rw [honly.hadError hs] at herr
          cases herr
      exact ⟨hall.level, honly.code, herr.trans hs.symm, honly.callDepth, by rw [htop], by rw [htop],
        by rw [htop]⟩
    · cases hb

/-- A return has left its call: the operands are as high as before it, unless there was none
to return. -/
structure Returned (s t : State) : Prop where
  code : t.chunk.code = s.chunk.code
  gc : t.gc = s.gc
  callDepth : t.vm.callDepth + 1 = s.vm.callDepth
  ip : t.vm.ip = s.top.returnIp
  scopeDepth : t.vm.scopeDepth = min s.vm.scopeDepth s.top.returnScopeDepth
  stackTop : t.vm.stackTop = s.vm.stackTop - 1 + 1
  hadError : t.runtimeHadError = true ↔ s.vm.stackTop = 0

theorem State.pop_done {s t : State} {v : AerVal} (h : s.pop = .done v t) :
    t.chunk = s.chunk ∧ t.gc = s.gc ∧ t.vm.scopeDepth = s.vm.scopeDepth ∧
      t.vm.stackTop = s.vm.stackTop - 1 ∧
      (s.runtimeHadError = false → (t.runtimeHadError = true ↔ s.vm.stackTop = 0)) := by
  unfold State.pop at h
  split at h
  · next hzero =>
    cases h
    exact ⟨rfl, rfl, rfl, by simp only [addError, hzero], fun _ => iff_of_true rfl hzero⟩
  · next hpos =>
    cases h
    exact ⟨rfl, rfl, rfl, rfl, fun hok => iff_of_false (Bool.eq_false_iff.mp hok) hpos⟩

theorem State.stash_level (s : State) (v : AerVal) : s.Level (s.stash v) := by
  unfold stash
  split
  · exact .refl s
  · exact ⟨rfl, rfl, rfl⟩

theorem State.stash_frame (s : State) (v : AerVal) : (s.stash v).top.defersDraining = true ∧
    (s.stash v).top.returnIp = s.top.returnIp ∧
    (s.stash v).top.returnScopeDepth = s.top.returnScopeDepth ∧
    (s.stash v).runtimeHadError = s.runtimeHadError := by
  unfold stash
  split
  · next h => exact ⟨h, rfl, rfl, rfl⟩
  · rw [top_setTop]
    exact ⟨rfl, rfl, rfl, rfl⟩

/-- Where a return ends: in its call, or behind it. -/
theorem lblReturn_outcome (cfg : Config) {s : State} (hroom : s.vm.stackTop ≤ vmStackMax)
    (hok : s.runtimeHadError = false) (hpos : 0 < s.vm.callDepth) :
    s.vm.callDepth ≤ (lblReturn.run (exec cfg) s).state.vm.callDepth ∨
      ∃ t, lblReturn.run (exec cfg) s = .done () t ∧ Returned s t := by
  obtain ⟨v, u, hpop⟩ : ∃ v u, s.pop = .done v u := by
    unfold State.pop
    split
    · exact ⟨_, _, rfl⟩
    · exact ⟨_, _, rfl⟩
  have hcalm := calm_pop s v u hpop
  obtain ⟨hchunk, hgc, hscope, hheight, herr⟩ := State.pop_done hpop
  obtain ⟨hdraining, hip, hbase, hstashErr⟩ := u.stash_frame v
  have hlevel := u.stash_level v
  have honly := u.onlyTop_stash v
  have hdepth : (u.stash v).vm.callDepth = s.vm.callDepth := honly.callDepth.trans hcalm.callDepth
  rw [run_lblReturn hpos hpop]
  unfold drainAndFinish
  have hdefers : (perform .frameDefers).run (exec cfg) (u.stash v) =
      .done (u.stash v).top.defers (u.stash v) := by
    unfold perform
    rw [run_perform]
    simp only [exec, State.topFrame_eq_some.mpr ⟨hdepth ▸ hpos, rfl⟩, Option.map_some, orFault]
  rw [run_bind, hdefers, Outcome.done_andThen, run_bind]
  have hstays := (staysIn_drainDefers (s.vm.ip - 1) ((u.stash v).top.defers.length + 1)).run_depth
    cfg (u.stash v)
  rw [hdepth] at hstays
  cases hd : (drainDefers (s.vm.ip - 1) ((u.stash v).top.defers.length + 1)).run (exec cfg)
      (u.stash v) with
  | stop w t =>
    rw [hd] at hstays
    exact .inl hstays
  | done left c =>
    rw [hd] at hstays
    cases left with
    | true => exact .inl hstays
    | false =>
      right
      have hc := drained_of_false hd (Nat.lt_succ_self _)
      have htop : c.vm.stackTop = s.vm.stackTop - 1 := by
        rw [hc.level.stackTop, hlevel.stackTop, hheight]
      obtain ⟨t, ht, hleft⟩ := run_finishReturn cfg (s := c) (by rw [hc.callDepth, hdepth]; exact hpos)
        (hc.draining.trans hdraining) (by
          rw [htop]
          have : 0 < vmStackMax := by decide
          omega)
      refine ⟨t, ht, ?_, ?_, ?_, ?_, ?_, ?_, ?_⟩
      · rw [hleft.code, hc.code, honly.code, hchunk]
      · rw [hleft.gc, hc.level.gc, hlevel.gc, hgc]
      · rw [hleft.callDepth, hc.callDepth, hdepth]
      · rw [hleft.ip, hc.returnIp, hip, hcalm.top]
      · rw [hleft.scopeDepth, hc.level.scopeDepth, hlevel.scopeDepth, hscope, hc.returnScopeDepth,
          hbase, hcalm.top]
      · rw [hleft.stackTop, htop]
      · rw [hleft.hadError, hc.hadError, hstashErr]
        exact herr hok

theorem addErrors_gc (s : State) (msgs : List Bytes) : (msgs.foldl State.addError s).gc = s.gc := by
  induction msgs generalizing s with
  | nil => rfl
  | cons msg msgs ih => exact ih (s.addError msg)

theorem exec_gc (cfg : Config) {o : Op} {s t : State} {r : o.Ans} (h : exec cfg o s = .done r t) :
    t.gc = s.gc := by
  by_cases ho : o.isLevel = true
  · exact (exec_level cfg ho h).gc
  cases o
  case push v =>
    simp only [exec, State.push] at h
    split at h <;> cases h
    rfl
  case pop =>
    simp only [exec, State.pop] at h
    split at h <;> cases h <;> rfl
  case drop n =>
    simp only [exec] at h
    split at h <;> cases h
    rfl
  case slide n =>
    simp only [exec] at h
    split at h <;> cases h
    rfl
  case callNative module fn n =>
    simp only [exec, State.callNative] at h
    split at h
    · split at h <;> cases h
      · rfl
      · exact addErrors_gc _ _
    · cases h
  case pushScope =>
    simp only [exec, State.pushScope] at h
    split at h <;> cases h
    rfl
  case popScope =>
    simp only [exec, State.popScope] at h
    split at h <;> cases h
    exact (gc_popScopes 1 s).1
  case unwindScopes =>
    simp only [exec] at h
    split at h <;> cases h
    exact (s.unwound _).gc
  all_goals exact absurd rfl ho

/-! The run of an activation, with collections held off. -/

/-- A return of the activation in frame `d` has left it. -/
structure LeftAt (d returnIp base : Nat) (s t : State) : Prop where
  callDepth : t.vm.callDepth = d
  ip : t.vm.ip = returnIp
  scopeDepth : t.vm.scopeDepth = min s.vm.scopeDepth base
  stackTop : t.vm.stackTop = s.vm.stackTop - 1 + 1
  hadError : t.runtimeHadError = true ↔ s.vm.stackTop = 0
  code : t.chunk.code = s.chunk.code
  gc : t.gc = s.gc

/-- The activation in frame `d` is there; it goes back to the `OP_HALT` at `returnIp`, with
`base` scopes. -/
structure Running (d returnIp base : Nat) (s : State) : Prop where
  depth : d < s.vm.callDepth
  ok : s.runtimeHadError = false
  room : s.vm.stackTop ≤ vmStackMax
  suppressed : 0 < s.gc.suppressDepth
  frame : (s.vm.callStack d).returnIp = returnIp ∧ (s.vm.callStack d).returnScopeDepth = base
  halts : s.chunk.code[returnIp]? = some Opcode.halt.word

theorem State.fetched_of_suppressed {s : State} (h : 0 < s.gc.suppressDepth) :
    s.fetched = s.atIp (s.vm.ip + 1) := by
  unfold fetched gcMaybeCollect
  rw [if_pos h]

theorem dispatch_room (cfg : Config) {s t : State} (hroom : s.vm.stackTop ≤ vmStackMax)
    (h : dispatch cfg s = .done () t) : t.vm.stackTop ≤ vmStackMax := by
  obtain ⟨-, op, -, hrun⟩ := dispatch_done h
  have hstart : s.fetched.vm.stackTop ≤ vmStackMax := by
    unfold State.fetched State.atIp
    rw [State.gcMaybeCollect_vm]
    exact hroom
  have hend := Lib.Interaction.run_preserves (I := fun u : State => u.vm.stackTop ≤ vmStackMax)
    (p := handler op) hstart fun o u _ hu => exec_room cfg o hu
  rw [hrun] at hend
  exact hend

/-- A turn of the dispatch loop that stops behind the fetch. -/
theorem dispatch_stop {cfg : Config} {s t : State} {w : Stop} (h : dispatch cfg s = .stop w t)
    (hok : s.runtimeHadError = false) : s.vm.callDepth ≤ t.vm.callDepth ∨
      ∃ op, s.nextOpcode = some op ∧ (handler op).run (exec cfg) s.fetched = .stop w t := by
  unfold dispatch at h
  rw [hok, if_neg Bool.false_ne_true] at h
  unfold instruction at h
  rw [run_bind] at h
  have hvm : s.gcMaybeCollect.vm = s.vm := s.gcMaybeCollect_vm
  cases hread : readOpcode.run (exec cfg) s.gcMaybeCollect with
  | stop w' t' =>
    rw [hread] at h
    cases h
    have hdepth := (StaysIn.of_frameFree frameFree_readOpcode).run_depth cfg s.gcMaybeCollect
    rw [hread, hvm] at hdepth
    exact .inl hdepth
  | done op u =>
    rw [hread] at h
    obtain ⟨hop, rfl⟩ := run_readOpcode hread
    refine .inr ⟨op, ?_, ?_⟩
    · unfold State.nextOpcode at hop ⊢
      rwa [s.calm_gcMaybeCollect.code, hvm] at hop
    · rw [hvm] at h
      exact h

section Running
variable {cfg : Config} {d returnIp base : Nat} {s t : State}

/-- Where the activation runs, a turn of the dispatch loop keeps it, fails in it, or is the
return that leaves it. -/
theorem Running.step (h : Running d returnIp base s) (hstep : dispatch cfg s = .done () t) :
    Running d returnIp base t ∨ (t.runtimeHadError = true ∧ d < t.vm.callDepth) ∨
      (s.vm.callDepth = d + 1 ∧ LeftAt d returnIp base s t) := by
  have hroom := dispatch_room cfg h.room hstep
  obtain ⟨-, op, hop, hrun⟩ := dispatch_done hstep
  have hgc : t.gc = s.gc := by
    have hkeep := run_invariant (I := fun u : State => u.gc = s.fetched.gc) hrun rfl
      fun o u r v hu he => (exec_gc cfg he).trans hu
    rw [hkeep, State.fetched_of_suppressed h.suppressed]
    rfl
  have hsuppressed : 0 < t.gc.suppressDepth := hgc ▸ h.suppressed
  have hstays : d < t.vm.callDepth → (s.vm.callDepth = d + 1 → s.vm.callDepth ≤ t.vm.callDepth) →
      Running d returnIp base t ∨ (t.runtimeHadError = true ∧ d < t.vm.callDepth) := by
    intro hdepth hlast
    cases herr : t.runtimeHadError with
    | true => exact .inr ⟨rfl, hdepth⟩
    | false =>
      have hframes := dispatch_frames hstep herr
      have hcode : t.chunk.code = s.chunk.code := hframes.elim (·.code) (·.code)
      refine .inl ⟨hdepth, herr, hroom, hsuppressed, ?_, hcode ▸ h.halts⟩
      obtain hs | hl := hframes
      · obtain ⟨hip, hbase⟩ := hs.returns d h.depth
        exact ⟨hip.trans h.frame.1, hbase.trans h.frame.2⟩
      · have hleft := hl.callDepth
        have hdeep := h.depth
        obtain ⟨cell, hcell⟩ := hl.below d (by
          by_contra hnot
          have := hlast (by omega)
          omega)
        rw [hcell]
        exact h.frame
  by_cases hret : op = .ret
  · subst hret
    have hfetch := s.calm_fetched
    have hvm : s.fetched = s.atIp (s.vm.ip + 1) := State.fetched_of_suppressed h.suppressed
    have hout := lblReturn_outcome cfg (s := s.fetched) (by rw [hvm]; exact h.room)
      (by rw [hvm]; exact h.ok) (by rw [hfetch.callDepth]; exact (Nat.zero_le d).trans_lt h.depth)
    rw [show lblReturn.run (exec cfg) s.fetched = .done () t from hrun, hfetch.callDepth] at hout
    obtain hin | ⟨u, hu, hleft⟩ := hout
    · have hin : s.vm.callDepth ≤ t.vm.callDepth := hin
      exact (hstays (h.depth.trans_le hin) fun _ => hin).imp_right .inl
    · cases hu
      have hdepth := hleft.callDepth
      rw [hfetch.callDepth] at hdepth
      by_cases hlast : s.vm.callDepth = d + 1
      · have htop : s.fetched.top = s.vm.callStack d := by
          rw [hfetch.top, top_eq_of_depth hlast]
        have hip := hleft.ip
        have hscope := hleft.scopeDepth
        have hheight := hleft.stackTop
        have herr := hleft.hadError
        rw [htop] at hip hscope
        rw [hvm] at hscope hheight herr
        rw [h.frame.1] at hip
        rw [h.frame.2] at hscope
        exact .inr (.inr ⟨hlast, by omega, hip, hscope, hheight, herr,
          hleft.code.trans hfetch.code, hgc⟩)
      · have := h.depth
        exact (hstays (by omega) fun he => absurd he hlast).imp_right .inl
  · have hin := (staysIn_handler hret).run_depth cfg s.fetched
    rw [hrun, s.calm_fetched.callDepth] at hin
    have hin : s.vm.callDepth ≤ t.vm.callDepth := hin
    exact (hstays (h.depth.trans_le hin) fun _ => hin).imp_right .inl

/-- A run that stops where the activation runs has not left it. -/
theorem Running.stop (h : Running d returnIp base s) {w : Stop} (hstop : dispatch cfg s = .stop w t) :
    d < t.vm.callDepth := by
  obtain hread | ⟨op, -, hrun⟩ := dispatch_stop hstop h.ok
  · exact h.depth.trans_le hread
  have hfetch := s.calm_fetched
  by_cases hret : op = .ret
  · subst hret
    have hvm : s.fetched = s.atIp (s.vm.ip + 1) := State.fetched_of_suppressed h.suppressed
    have hout := lblReturn_outcome cfg (s := s.fetched) (by rw [hvm]; exact h.room)
      (by rw [hvm]; exact h.ok) (by rw [hfetch.callDepth]; exact (Nat.zero_le d).trans_lt h.depth)
    rw [show lblReturn.run (exec cfg) s.fetched = .stop w t from hrun, hfetch.callDepth] at hout
    obtain hin | ⟨u, hu, -⟩ := hout
    · exact h.depth.trans_le hin
    · cases hu
  · have hin := (staysIn_handler hret).run_depth cfg s.fetched
    rw [hrun, hfetch.callDepth] at hin
    exact h.depth.trans_le hin

/-- A turn at the `OP_HALT` of the program. -/
theorem dispatch_halt (cfg : Config) (hok : s.runtimeHadError = false) (hsuppressed : 0 < s.gc.suppressDepth)
    (hcode : s.chunk.code[s.vm.ip]? = some Opcode.halt.word) :
    dispatch cfg s = .stop .halted (s.atIp (s.vm.ip + 1)) := by
  have hcollect : s.gcMaybeCollect = s := by
    unfold State.gcMaybeCollect
    rw [if_pos hsuppressed]
  have hread : readOpcode.run (exec cfg) s = .done .halt (s.atIp (s.vm.ip + 1)) := by
    unfold readOpcode perform
    rw [run_bind, run_perform]
    simp only [exec, hcode, Outcome.done_andThen, Opcode.ofWord?_word]
    rfl
  unfold dispatch
  rw [hok, if_neg Bool.false_ne_true, hcollect]
  unfold instruction
  rw [run_bind, hread]
  rfl

/-- How a run from the entry of the activation stops: where it has not been left, or right
behind the return that leaves it. -/
theorem Running.ends {u : State} {w : Stop} (h : Running d returnIp base s)
    (hrun : Steps cfg s u) (hstop : dispatch cfg u = .stop w t) : d < t.vm.callDepth ∨
      ∃ ds b, Inside cfg d s ds b ∧ Running d returnIp base b ∧ b.vm.callDepth = d + 1 ∧
        dispatch cfg b = .done () u ∧ LeftAt d returnIp base b u := by
  have hreach : (Running d returnIp base u ∧ ∃ ds, Inside cfg d s ds u) ∨
      (u.runtimeHadError = true ∧ d < u.vm.callDepth) ∨
      ∃ ds b, Inside cfg d s ds b ∧ Running d returnIp base b ∧ b.vm.callDepth = d + 1 ∧
        dispatch cfg b = .done () u ∧ LeftAt d returnIp base b u := by
    clear hstop
    induction hrun with
    | refl => exact .inl ⟨h, [], .refl s⟩
    | @tail v u _ hstep ih =>
      have hok := (dispatch_done hstep).1
      obtain ⟨hv, ds, hin⟩ | ⟨herr, -⟩ | ⟨ds, b, -, hb, -, -, hleft⟩ := ih
      · obtain hu | hu | ⟨hlast, hleft⟩ := hv.step hstep
        · exact .inl ⟨hu, _, hin.tail hv.depth hstep⟩
        · exact .inr (.inl hu)
        · exact .inr (.inr ⟨ds, v, hin, hv, hlast, hstep, hleft⟩)
      · rw [hok] at herr
        cases herr
      · -- behind the return there is only the `OP_HALT`
        have hhalt := dispatch_halt cfg hok (hleft.gc ▸ hb.suppressed) (by
          rw [hleft.code, hleft.ip]
          exact hb.halts)
        rw [hhalt] at hstep
        cases hstep
  obtain ⟨hu, -⟩ | ⟨herr, hdepth⟩ | hleft := hreach
  · exact .inl (hu.stop hstop)
  · unfold dispatch at hstop
    rw [if_pos herr] at hstop
    cases hstop
    exact .inl hdepth
  · exact .inr hleft

theorem Inside.running {ds : List DeferredCall} (h : Running d returnIp base s)
    (hrun : Inside cfg d s ds t) (hdepth : d < t.vm.callDepth) (hok : t.runtimeHadError = false) :
    Running d returnIp base t := by
  induction hrun with
  | refl => exact h
  | @tail t u ds _ hdeep hstep ih =>
    obtain hu | ⟨herr, -⟩ | ⟨-, hleft⟩ := (ih hdeep (dispatch_done hstep).1).step hstep
    · exact hu
    · rw [hok] at herr
      cases herr
    · have := hleft.callDepth
      omega

end Running

theorem Inside.steps {cfg : Config} {d : Nat} {s t : State} {ds : List DeferredCall}
    (h : Inside cfg d s ds t) : Steps cfg s t := by
  induction h with
  | refl => exact .refl s
  | tail _ _ hstep ih => exact .tail ih hstep

theorem Steps.head {cfg : Config} {s t u : State} (hstep : dispatch cfg s = .done () t)
    (h : Steps cfg t u) : Steps cfg s u :=
  (Steps.tail (.refl s) hstep).trans h

theorem Steps.cases_head {cfg : Config} {s u : State} (h : Steps cfg s u) :
    s = u ∨ ∃ t, dispatch cfg s = .done () t ∧ Steps cfg t u := by
  induction h with
  | refl => exact .inl rfl
  | tail _ hstep ih =>
    obtain rfl | ⟨v, hv, hrest⟩ := ih
    · exact .inr ⟨_, hstep, .refl _⟩
    · exact .inr ⟨v, hv, hrest.tail hstep⟩

/-- A run that has stopped has been through every state of the way. -/
theorem Steps.through {cfg : Config} {s t u v : State} {w : Stop} (ht : Steps cfg s t)
    (hu : Steps cfg s u) (hstop : dispatch cfg u = .stop w v) : Steps cfg t u := by
  induction ht with
  | refl => exact hu
  | tail _ hstep ih =>
    obtain rfl | ⟨x, hx, hrest⟩ := ih.cases_head
    · rw [hstep] at hstop
      cases hstop
    · rw [hstep] at hx
      cases hx
      exact hrest

end Aer.Machine
