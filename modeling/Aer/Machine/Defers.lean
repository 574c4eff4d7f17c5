import Aer.Machine.FrameSteps
import Aer.Program.Source

set_option linter.all false

/-! Deferred calls: what an activation registers, and what its return runs. -/
namespace Aer.Machine

open Aer.Data Aer.Memory Aer.Lib.Interaction

namespace State

/-- The machine with a change to the frame of the running call. -/
def setTop (s : State) (f : CallFrame → CallFrame) : State :=
  { s with vm :=
    s.vm.setFrame (s.vm.callDepth - 1) (f (s.vm.callStack (s.vm.callDepth - 1))) }

/-- The frame of the running call. -/
def top (s : State) : CallFrame := s.vm.callStack (s.vm.callDepth - 1)

theorem topFrame_eq_some {s : State} {g : CallFrame} :
    s.topFrame = some g ↔ 0 < s.vm.callDepth ∧ s.top = g := by
  unfold topFrame top
  split
  · simp only [reduceCtorEq, false_iff, not_and]
    omega
  · next hpos =>
    rw [Option.some.injEq]
    exact ⟨fun h => ⟨Nat.pos_of_ne_zero hpos, h⟩, And.right⟩

theorem updateFrame_eq_done {s t : State} {f : CallFrame → CallFrame}
    (h : s.updateFrame f = .done () t) : 0 < s.vm.callDepth ∧ t = s.setTop f := by
  unfold updateFrame at h
  split at h
  · next g hg =>
    cases h
    obtain ⟨hpos, rfl⟩ := topFrame_eq_some.mp hg
    exact ⟨hpos, rfl⟩
  · cases h

@[simp] theorem top_setTop (s : State) (f : CallFrame → CallFrame) : (s.setTop f).top = f s.top :=
  Function.update_self ..

theorem setTop_congr {s : State} {f f' : CallFrame → CallFrame} (h : f s.top = f' s.top) :
    s.setTop f = s.setTop f' := by
  unfold setTop
  rw [show f (s.vm.callStack (s.vm.callDepth - 1)) = _ from h]
  rfl

theorem setTop_callStack (s : State) (f : CallFrame → CallFrame) {i : Nat}
    (hi : i ≠ s.vm.callDepth - 1) : (s.setTop f).vm.callStack i = s.vm.callStack i :=
  Function.update_of_ne hi _ _

theorem Calm.top {s t : State} (h : s.Calm t) : t.top = s.top := by
  unfold State.top
  rw [h.callDepth, h.callStack]

theorem topArgs_succ (s : State) {n : Nat} (hn : n < s.vm.stackTop) :
    s.topArgs (n + 1) = (s.dropped 1).topArgs n ++ [s.vm.stack (s.vm.stackTop - 1)] := by
  unfold topArgs dropped
  rw [List.range_succ, List.map_append, List.map_singleton]
  have hlast : s.vm.stackTop - (n + 1) + n = s.vm.stackTop - 1 := by omega
  have hbase : s.vm.stackTop - (n + 1) = s.vm.stackTop - 1 - n := by omega
  rw [hlast, hbase]

end State

/-- Without an error, the values popped are the top operands. -/
theorem popArgs_done {cfg : Config} {n : Nat} {s t : State} {vs : List AerVal}
    (h : (popArgs n).run (exec cfg) s = .done vs t) (hok : t.runtimeHadError = false) :
    n ≤ s.vm.stackTop ∧ vs = s.topArgs n ∧ t = s.dropped n := by
  induction n generalizing s vs with
  | zero =>
    cases h
    exact ⟨Nat.zero_le _, rfl, rfl⟩
  | succ n ih =>
    unfold popArgs pop perform at h
    rw [run_bind, run_perform] at h
    obtain ⟨v, u, hpop, h⟩ := Outcome.andThen_eq_done.mp h
    rw [run_bind] at h
    obtain ⟨ws, w, hargs, h⟩ := Outcome.andThen_eq_done.mp h
    cases h
    have hcalm := (frameFree_popArgs n).run_calm hargs
    simp only [exec, State.pop] at hpop
    split at hpop
    · cases hpop
      have := hcalm.hadError rfl
      rw [this] at hok
      cases hok
    · next hpos =>
      cases hpop
      obtain ⟨hn, rfl, rfl⟩ := ih hargs
      have hn : n ≤ s.vm.stackTop - 1 := hn
      refine ⟨by omega, (s.topArgs_succ (by omega)).symm, ?_⟩
      unfold State.dropped
      simp only [Nat.sub_sub, Nat.add_comm 1 n]

theorem readIdx_done {cfg : Config} {s t : State} {n : Nat} (h : exec cfg .readIdx s = .done n t) :
    s.chunk.code[s.vm.ip]? = some (.ofNat n) ∧ t = s.atIp (s.vm.ip + 1) := by
  simp only [exec] at h
  split at h
  · next hcode =>
    cases h
    exact ⟨hcode, rfl⟩
  · cases h

theorem frameDefers_done {cfg : Config} {s t : State} {ds : List DeferredCall}
    (h : (perform .frameDefers).run (exec cfg) s = .done ds t) :
    0 < s.vm.callDepth ∧ ds = s.top.defers ∧ s = t := by
  unfold perform at h
  rw [run_perform] at h
  simp only [exec] at h
  cases hg : s.topFrame with
  | none =>
    rw [hg] at h
    cases h
  | some g =>
    rw [hg] at h
    cases h
    obtain ⟨hpos, rfl⟩ := State.topFrame_eq_some.mp hg
    exact ⟨hpos, rfl, rfl⟩

theorem frameDraining_done {cfg : Config} {s t : State} {draining : Bool}
    (h : (perform .frameDraining).run (exec cfg) s = .done draining t) :
    0 < s.vm.callDepth ∧ draining = s.top.defersDraining ∧ s = t := by
  unfold perform at h
  rw [run_perform] at h
  simp only [exec] at h
  cases hg : s.topFrame with
  | none =>
    rw [hg] at h
    cases h
  | some g =>
    rw [hg] at h
    cases h
    obtain ⟨hpos, rfl⟩ := State.topFrame_eq_some.mp hg
    exact ⟨hpos, rfl, rfl⟩

/-- A part of a handler that begins with an error. -/
theorem reported {cfg : Config} {α : Type} {msg : Bytes} {p : Handler α} (hp : FrameFree p)
    {s t : State} {a : α}
    (h : (perform (.error msg) >>= fun _ => p).run (exec cfg) s = .done a t) :
    t.runtimeHadError = true := by
  unfold perform at h
  rw [run_bind, run_perform] at h
  exact (hp.run_calm h).hadError rfl

/-- A deferral registers the call with its arguments on the running frame. -/
theorem lblDeferPush_done {cfg : Config} {s t : State}
    (h : lblDeferPush.run (exec cfg) s = .done () t) (hok : t.runtimeHadError = false) :
    ∃ nameIdx n, s.chunk.code[s.vm.ip]? = some (.ofNat nameIdx) ∧
      s.chunk.code[s.vm.ip + 1]? = some (.ofNat n) ∧ n ≤ s.vm.stackTop ∧ 0 < s.vm.callDepth ∧
      t = ((s.atIp (s.vm.ip + 2)).dropped n).setTop fun f =>
        { f with defers := ⟨nameIdx, s.topArgs n⟩ :: f.defers } := by
  unfold lblDeferPush perform at h
  rw [run_bind, run_perform] at h
  obtain ⟨nameIdx, u, hname, h⟩ := Outcome.andThen_eq_done.mp h
  obtain ⟨hcode, rfl⟩ := readIdx_done hname
  rw [run_bind, run_perform] at h
  obtain ⟨n, u, hcount, h⟩ := Outcome.andThen_eq_done.mp h
  obtain ⟨hcode', rfl⟩ := readIdx_done hcount
  rw [run_bind] at h
  obtain ⟨ds, u, hdefers, h⟩ := Outcome.andThen_eq_done.mp h
  obtain ⟨hpos, rfl, rfl⟩ := frameDefers_done hdefers
  split at h
  · rw [reported (frameFree_popN n) h] at hok
    cases hok
  split at h
  · rw [reported (frameFree_popN n) h] at hok
    cases hok
  rw [run_bind] at h
  obtain ⟨vs, u, hargs, h⟩ := Outcome.andThen_eq_done.mp h
  rw [run_perform] at h
  obtain ⟨hpos', rfl⟩ := State.updateFrame_eq_done h
  obtain ⟨hn, rfl, rfl⟩ := popArgs_done hargs hok
  exact ⟨nameIdx, n, hcode, hcode', hn, hpos, rfl⟩

theorem pushAll_done {cfg : Config} {vs : List AerVal} {s t : State}
    (h : (pushAll vs).run (exec cfg) s = .done () t) : t = s.withOperands vs := by
  induction vs generalizing s with
  | nil =>
    cases h
    exact (State.withOperands_nil _).symm
  | cons v vs ih =>
    unfold pushAll push perform at h
    rw [run_bind, run_perform] at h
    obtain ⟨_, u, hpush, h⟩ := Outcome.andThen_eq_done.mp h
    have hroom : s.vm.stackTop < vmStackMax := by
      by_contra hfull
      simp only [exec, State.push, if_neg hfull] at hpush
      cases hpush
    have hfirst := s.push_withOperands [] v hroom
    rw [s.withOperands_nil] at hfirst
    change s.push v = _ at hpush
    rw [hfirst] at hpush
    cases hpush
    rw [ih h, State.withOperands_withOperands]
    rfl

theorem function_done {cfg : Config} {s t : State} {cell : Nat} {f : AerFunction}
    (h : exec cfg (.function cell) s = .done f t) : s.functionData cell = some f ∧ s = t := by
  simp only [exec] at h
  cases hd : s.functionData cell with
  | none =>
    rw [hd] at h
    cases h
  | some g =>
    rw [hd] at h
    cases h
    exact ⟨rfl, rfl⟩

/-- A part of the set-up of a call that ends it with an error. -/
theorem refused {cfg : Config} {msg : Bytes} {s t : State} {b : Bool}
    (h : (do perform (.error msg); return false : Handler Bool).run (exec cfg) s = .done b t) :
    b = false ∧ ∃ msg, t = s.addError msg := by
  cases h
  exact ⟨rfl, msg, rfl⟩

/-- The end of the set-up of a call, once the receiver has passed. -/
theorem enterFrame_done {cfg : Config} {s t : State} {cell n returnIp : Nat} {f : AerFunction}
    {b : Bool} (hf : s.functionData cell = some f)
    (h : (do
      if vmCallMax ≤ (← perform .callDepth) then
        perform (.error (bytes "Call stack overflow"))
        return false
      unless ← perform (.hasRoom (f.arity - n)) do
        perform (.error (bytes "Stack overflow"))
        return false
      pushAll (omittedDefaults f n)
      perform (.pushFrame cell returnIp)
      perform (.setIp f.codeOffset)
      return true : Handler Bool).run (exec cfg) s = .done b t) :
    (b = true ∧ ∃ f, s.functionData cell = some f ∧
      t = (s.withOperands (omittedDefaults f n)).enter cell returnIp f.codeOffset) ∨
    (b = false ∧ ∃ msg, t = s.addError msg) := by
  rw [run_bind] at h
  obtain ⟨depth, u, hdepth, h1⟩ := Outcome.andThen_eq_done.mp h
  cases hdepth
  split at h1
  · exact .inr (refused h1)
  rw [run_bind] at h1
  obtain ⟨room, u, hroom, h2⟩ := Outcome.andThen_eq_done.mp h1
  cases hroom
  split at h2
  · rw [run_bind] at h2
    obtain ⟨_, u, hpush, h3⟩ := Outcome.andThen_eq_done.mp h2
    rw [pushAll_done hpush] at h3
    rw [run_bind] at h3
    obtain ⟨_, v, hframe, h4⟩ := Outcome.andThen_eq_done.mp h3
    unfold perform at hframe
    rw [run_perform] at hframe
    simp only [exec, State.pushFrame] at hframe
    split at hframe
    · cases hframe
      cases h4
      exact .inl ⟨rfl, f, hf, rfl⟩
    · cases hframe
  · exact .inr (refused h2)

/-- A call through a value is entered, with its arguments and the defaults of those
omitted on top of the operands, or an error is reported. -/
theorem vmSetupCall_done {cfg : Config} {s t : State} {cell n returnIp : Nat} {b : Bool}
    (h : (vmSetupCall (.function cell) n returnIp).run (exec cfg) s = .done b t) :
    (b = true ∧ ∃ f, s.functionData cell = some f ∧
      t = (s.withOperands (omittedDefaults f n)).enter cell returnIp f.codeOffset) ∨
    (b = false ∧ ∃ msg, t = s.addError msg) := by
  unfold vmSetupCall at h
  rw [run_bind] at h
  obtain ⟨f, u, hfun, h1⟩ := Outcome.andThen_eq_done.mp h
  unfold perform at hfun
  rw [run_perform] at hfun
  obtain ⟨hf, rfl⟩ := function_done hfun
  split at h1
  · exact .inr (refused h1)
  dsimp only at h1
  split at h1
  · rw [run_bind] at h1
    obtain ⟨v, w, harg, h2⟩ := Outcome.andThen_eq_done.mp h1
    unfold perform at harg
    rw [run_perform] at harg
    simp only [exec] at harg
    split at harg
    · cases harg
      rw [run_bind, run_isInstance] at h2
      obtain ⟨ok, w, hinst, h3⟩ := Outcome.andThen_eq_done.mp h2
      cases ho : s.instance? (s.vm.stack (s.vm.stackTop - n)) f.receiverType with
      | none =>
        rw [ho] at hinst
        cases hinst
      | some passed =>
        rw [ho] at hinst
        cases hinst
        split at h3
        · exact enterFrame_done hf h3
        · rw [run_bind] at h3
          obtain ⟨text, w, hname, h4⟩ := Outcome.andThen_eq_done.mp h3
          unfold perform at hname
          rw [run_perform] at hname
          obtain rfl := exec_nameText_state hname
          exact .inr (refused h4)
    · cases harg
  · exact enterFrame_done hf h1

/-! The loop of a return over the deferred calls of its frame. -/

namespace State

/-- The machine once the next deferred call has been taken off the frame. -/
def takeDefer (s : State) : State := s.setTop fun f => { f with defers := f.defers.tail }

theorem takeDefer_eq {s : State} {dc : DeferredCall} {rest : List DeferredCall}
    (h : s.top.defers = dc :: rest) :
    s.takeDefer = s.setTop fun f => { f with defers := rest } :=
  setTop_congr (by rw [h, List.tail_cons])

theorem top_takeDefer (s : State) : s.takeDefer.top = { s.top with defers := s.top.defers.tail } :=
  s.top_setTop _

end State

/-- The loop runs a built-in or a constructor by itself. -/
structure RunsInline (cfg : Config) (dc : DeferredCall) (s t : State) : Prop where
  unbound : s.takeDefer.vmScopeGet dc.nameIdx = none
  run : ∃ name v, exec cfg (.nameText dc.nameIdx) s.takeDefer = .done name s.takeDefer ∧
    (vmCallBuiltin name dc.args).run (exec cfg) s.takeDefer = .done (some v) t
  ok : t.runtimeHadError = false

/-- The loop enters a function, with the values the call was registered with as its
arguments; it is to come back to the return. -/
structure EntersDeferred (returnAddr : Nat) (dc : DeferredCall) (s e : State) : Prop where
  bound : ∃ a cell f, s.takeDefer.vmScopeGet dc.nameIdx = some a ∧
    s.takeDefer.readAddr a = some (.function cell) ∧ s.functionData cell = some f ∧
    e = (s.takeDefer.withOperands (dc.args ++ omittedDefaults f dc.args.length)).enter cell
      returnAddr f.codeOffset

/-- The loop runs calls by itself, one after the other. -/
inductive RunsAllInline (cfg : Config) : List DeferredCall → State → State → Prop
  | nil (s : State) : RunsAllInline cfg [] s s
  | cons {dc : DeferredCall} {dcs : List DeferredCall} {s t u : State} :
      RunsInline cfg dc s t → RunsAllInline cfg dcs t u → RunsAllInline cfg (dc :: dcs) s u

theorem load_done {cfg : Config} {s t : State} {a : Addr} {v : AerVal}
    (h : (perform (.load a)).run (exec cfg) s = .done v t) : s.readAddr a = some v ∧ s = t := by
  unfold perform at h
  rw [run_perform] at h
  simp only [exec] at h
  cases ha : s.readAddr a with
  | none =>
    rw [ha] at h
    cases h
  | some w =>
    rw [ha] at h
    cases h
    exact ⟨rfl, rfl⟩

/-- What the loop comes to once it has taken a deferred call off the frame. -/
inductive DrainTurn (cfg : Config) (returnAddr fuel : Nat) (dc : DeferredCall) (s : State) :
    Result Bool → Prop
  | enters {t : State} : EntersDeferred returnAddr dc s t →
      DrainTurn cfg returnAddr fuel dc s (.done true t)
  | aborted {t : State} : t.runtimeHadError = true →
      DrainTurn cfg returnAddr fuel dc s (.done true t)
  | inline {u : State} : RunsInline cfg dc s u →
      DrainTurn cfg returnAddr fuel dc s ((drainDefers returnAddr fuel).run (exec cfg) u)
  | stop (w : Stop) (t : State) : DrainTurn cfg returnAddr fuel dc s (.stop w t)

/-- After an error the loop is left. -/
theorem drain_aborted {cfg : Config} {returnAddr fuel : Nat} {dc : DeferredCall} {p : Handler Unit}
    {s u t : State} {b : Bool}
    (hp : ∀ v, p.run (exec cfg) u = .done () v → v.runtimeHadError = true)
    (h : (do
      p
      if ← perform .hadError then return true
      drainDefers returnAddr fuel : Handler Bool).run (exec cfg) u = .done b t) :
    DrainTurn cfg returnAddr fuel dc s (.done b t) := by
  rw [run_bind] at h
  obtain ⟨_, v, hv, h⟩ := Outcome.andThen_eq_done.mp h
  rw [run_bind] at h
  obtain ⟨_, w, hw, h⟩ := Outcome.andThen_eq_done.mp h
  cases hw
  rw [hp v hv] at h
  cases h
  exact .aborted (hp t hv)

theorem drainDefers_turn {cfg : Config} {returnAddr fuel : Nat} {s : State} {dc : DeferredCall}
    {rest : List DeferredCall} (hdefers : s.top.defers = dc :: rest) {r : Result Bool}
    (h : (drainDefers returnAddr (fuel + 1)).run (exec cfg) s = r) :
    DrainTurn cfg returnAddr fuel dc s r := by
  cases r with
  | stop w t => exact .stop w t
  | done b t =>
    rw [drainDefers, run_bind] at h
    obtain ⟨ds, u, hds, h1⟩ := Outcome.andThen_eq_done.mp h
    obtain ⟨hpos, rfl, rfl⟩ := frameDefers_done hds
    rw [hdefers, run_bind] at h1
    obtain ⟨_, u, hset, h2⟩ := Outcome.andThen_eq_done.mp h1
    unfold perform at hset
    rw [run_perform] at hset
    obtain ⟨-, hu⟩ := State.updateFrame_eq_done hset
    rw [← State.takeDefer_eq hdefers] at hu
    subst hu
    rw [run_bind] at h2
    obtain ⟨name, u, hname, h3⟩ := Outcome.andThen_eq_done.mp h2
    unfold perform at hname
    rw [run_perform] at hname
    obtain rfl := exec_nameText_state hname
    rw [run_bind] at h3
    obtain ⟨found, u, hfound, h4⟩ := Outcome.andThen_eq_done.mp h3
    cases hfound
    have herror : ∀ {msg : Bytes} {u v : State},
        (perform (.error msg)).run (exec cfg) u = .done () v → v.runtimeHadError = true := by
      intro msg u v hv
      cases hv
      rfl
    dsimp only at h4
    split at h4
    · next addr hbound =>
      rw [run_bind] at h4
      obtain ⟨v, u, hload, h5⟩ := Outcome.andThen_eq_done.mp h4
      obtain ⟨hread, rfl⟩ := load_done hload
      split at h5
      · next cell =>
        rw [run_bind] at h5
        obtain ⟨_, u, hpush, h6⟩ := Outcome.andThen_eq_done.mp h5
        obtain rfl := pushAll_done hpush
        rw [run_bind] at h6
        obtain ⟨ok, u, hsetup, h7⟩ := Outcome.andThen_eq_done.mp h6
        obtain ⟨rfl, f, hf, rfl⟩ | ⟨rfl, msg, rfl⟩ := vmSetupCall_done hsetup
        · cases h7
          refine .enters ⟨addr, cell, f, hbound, hread, hf, ?_⟩
          rw [State.withOperands_withOperands]
        · exact drain_aborted (fun v hv => ((frameFree_popN _).run_calm hv).hadError rfl) h7
      · exact drain_aborted (fun v hv => herror hv) h5
    · next hbound =>
      rw [run_bind] at h4
      obtain ⟨result, u, hrun, h5⟩ := Outcome.andThen_eq_done.mp h4
      split at h5
      · exact drain_aborted (fun v hv => herror hv) h5
      · next hsome =>
        obtain ⟨v, rfl⟩ : ∃ v, result = some v := by
          cases result with
          | none => exact absurd rfl hsome
          | some v => exact ⟨v, rfl⟩
        rw [run_bind] at h5
        obtain ⟨had, w, hhad, h6⟩ := Outcome.andThen_eq_done.mp h5
        cases hhad
        cases herr : u.runtimeHadError with
        | true =>
          rw [herr] at h6
          cases h6
          exact .aborted herr
        | false =>
          rw [herr] at h6
          rw [← h6]
          exact .inline ⟨hbound, ⟨name, v, hname, hrun⟩, herr⟩

theorem RunsInline.defers {cfg : Config} {dc : DeferredCall} {s t : State}
    (h : RunsInline cfg dc s t) : t.top.defers = s.top.defers.tail := by
  obtain ⟨name, v, -, hrun⟩ := h.run
  rw [((frameFree_vmCallBuiltin _ _).run_calm hrun).top, s.top_takeDefer]

theorem drainDefers_nil {cfg : Config} {returnAddr fuel : Nat} {s t : State} {b : Bool}
    (hdefers : s.top.defers = [])
    (h : (drainDefers returnAddr fuel).run (exec cfg) s = .done b t) : b = false ∧ t = s := by
  cases fuel with
  | zero =>
    cases h
    exact ⟨rfl, rfl⟩
  | succ fuel =>
    rw [drainDefers, run_bind] at h
    obtain ⟨ds, u, hds, h1⟩ := Outcome.andThen_eq_done.mp h
    obtain ⟨-, rfl, rfl⟩ := frameDefers_done hds
    rw [hdefers] at h1
    cases h1
    exact ⟨rfl, rfl⟩

theorem drainDefers_done {cfg : Config} {returnAddr fuel : Nat} {s t : State} {b : Bool}
    (h : (drainDefers returnAddr fuel).run (exec cfg) s = .done b t)
    (hfuel : s.top.defers.length < fuel) (hok : t.runtimeHadError = false) :
    (b = false ∧ RunsAllInline cfg s.top.defers s t) ∨
    (b = true ∧ ∃ pre dc rest c, s.top.defers = pre ++ dc :: rest ∧ RunsAllInline cfg pre s c ∧
      EntersDeferred returnAddr dc c t) := by
  induction fuel generalizing s with
  | zero => exact absurd hfuel (Nat.not_lt_zero _)
  | succ fuel ih =>
    cases hdefers : s.top.defers with
    | nil =>
      obtain ⟨rfl, rfl⟩ := drainDefers_nil hdefers h
      exact .inl ⟨rfl, .nil _⟩
    | cons dc rest =>
      rw [hdefers] at hfuel
      generalize hr : Outcome.done b t = r at h
      cases drainDefers_turn hdefers h with
      | enters henters =>
        cases hr
        exact .inr ⟨rfl, [], dc, rest, s, rfl, .nil s, henters⟩
      | aborted herr =>
        cases hr
        rw [herr] at hok
        cases hok
      | stop => cases hr
      | @inline u hinline =>
        have hu : u.top.defers = rest := by rw [hinline.defers, hdefers, List.tail_cons]
        have hlength : u.top.defers.length < fuel := by
          rw [hu]
          exact Nat.lt_of_succ_lt_succ hfuel
        obtain ⟨hb, hall⟩ | ⟨hb, pre, dc', rest', c, hsplit, hall, henters⟩ := ih hr.symm hlength
        · rw [hu] at hall
          exact .inl ⟨hb, .cons hinline hall⟩
        · rw [hu] at hsplit
          exact .inr ⟨hb, dc :: pre, dc', rest', c, by rw [hsplit]; rfl, .cons hinline hall,
            henters⟩

/-- A loop that has come to the end with an error reported has found no deferred call. -/
theorem drainDefers_false {cfg : Config} {returnAddr fuel : Nat} {s t : State}
    (h : (drainDefers returnAddr fuel).run (exec cfg) s = .done false t)
    (hfuel : s.top.defers.length < fuel) (herr : t.runtimeHadError = true) : t = s := by
  induction fuel generalizing s with
  | zero => exact absurd hfuel (Nat.not_lt_zero _)
  | succ fuel ih =>
    cases hdefers : s.top.defers with
    | nil => exact (drainDefers_nil hdefers h).2
    | cons dc rest =>
      rw [hdefers] at hfuel
      generalize hr : Outcome.done false t = r at h
      cases drainDefers_turn hdefers h with
      | enters | aborted | stop => cases hr
      | @inline u hinline =>
        have hlength : u.top.defers.length < fuel := by
          rw [hinline.defers, hdefers, List.tail_cons]
          exact Nat.lt_of_succ_lt_succ hfuel
        have hu := ih hr.symm hlength
        rw [hu, hinline.ok] at herr
        cases herr

/-- Only the frame of the running call may have changed. -/
structure State.OnlyTop (s t : State) : Prop where
  code : t.chunk.code = s.chunk.code
  hadError : s.runtimeHadError = true → t.runtimeHadError = true
  callDepth : t.vm.callDepth = s.vm.callDepth
  callStack : ∀ i, i ≠ s.vm.callDepth - 1 → t.vm.callStack i = s.vm.callStack i

namespace State

theorem Calm.onlyTop {s t : State} (h : s.Calm t) : s.OnlyTop t :=
  ⟨h.code, h.hadError, h.callDepth, fun i _ => congrFun h.callStack i⟩

theorem onlyTop_setTop (s : State) (f : CallFrame → CallFrame) : s.OnlyTop (s.setTop f) :=
  ⟨rfl, id, rfl, fun _ hi => s.setTop_callStack f hi⟩

theorem OnlyTop.trans {s t u : State} (h : s.OnlyTop t) (h' : t.OnlyTop u) : s.OnlyTop u where
  code := h'.code.trans h.code
  hadError := h'.hadError ∘ h.hadError
  callDepth := h'.callDepth.trans h.callDepth
  callStack i hi := (h'.callStack i (h.callDepth ▸ hi)).trans (h.callStack i hi)

end State

theorem RunsInline.onlyTop {cfg : Config} {dc : DeferredCall} {s t : State}
    (h : RunsInline cfg dc s t) :
    s.OnlyTop t ∧ t.top = { s.top with defers := s.top.defers.tail } := by
  obtain ⟨name, v, -, hrun⟩ := h.run
  have hcalm := (frameFree_vmCallBuiltin _ _).run_calm hrun
  exact ⟨(s.onlyTop_setTop _).trans hcalm.onlyTop, hcalm.top.trans s.top_takeDefer⟩

theorem RunsAllInline.onlyTop {cfg : Config} {dcs : List DeferredCall} {s t : State}
    (h : RunsAllInline cfg dcs s t) :
    s.OnlyTop t ∧ t.top = { s.top with defers := s.top.defers.drop dcs.length } := by
  induction h with
  | nil s => exact ⟨(State.Calm.refl s).onlyTop, rfl⟩
  | cons hone _ ih =>
    obtain ⟨h1, htop1⟩ := hone.onlyTop
    obtain ⟨h2, htop2⟩ := ih
    refine ⟨h1.trans h2, ?_⟩
    rw [htop2, htop1, List.drop_tail, List.length_cons]

/-- What entering a deferred call does to the frames. -/
structure EntersAbove (returnAddr : Nat) (s e : State) : Prop where
  code : e.chunk.code = s.chunk.code
  hadError : e.runtimeHadError = s.runtimeHadError
  callDepth : e.vm.callDepth = s.vm.callDepth + 1
  callStack : ∀ i < s.vm.callDepth, e.vm.callStack i = s.takeDefer.vm.callStack i
  fresh : (e.vm.callStack s.vm.callDepth).returnIp = returnAddr

theorem EntersDeferred.above {returnAddr : Nat} {dc : DeferredCall} {s e : State}
    (h : EntersDeferred returnAddr dc s e) : EntersAbove returnAddr s e := by
  obtain ⟨a, cell, f, -, -, -, rfl⟩ := h.bound
  refine ⟨rfl, rfl, rfl, fun i hi => Function.update_of_ne hi.ne _ _, ?_⟩
  have hframe : ∀ (stack : Nat → CallFrame) (frame : CallFrame),
      Function.update stack s.vm.callDepth frame s.vm.callDepth = frame :=
    fun _ _ => Function.update_self ..
  exact congrArg CallFrame.returnIp (hframe _ _)

/-- What leaving a call does: the caller goes on with the pending value on its operands. -/
structure LeavesCall (s t : State) : Prop where
  code : t.chunk.code = s.chunk.code
  hadError : s.runtimeHadError = true → t.runtimeHadError = true
  callDepth : t.vm.callDepth + 1 = s.vm.callDepth
  callStack : ∀ i, i + 1 < s.vm.callDepth → t.vm.callStack i = s.vm.callStack i
  ip : t.vm.ip = s.top.returnIp
  received : 0 < t.vm.stackTop ∧ t.vm.stack (t.vm.stackTop - 1) = s.top.pendingReturnValue

theorem takeReturn_done {cfg : Config} {s t : State} {v : AerVal}
    (h : (perform .takeReturn).run (exec cfg) s = .done v t) :
    0 < s.vm.callDepth ∧ v = s.top.pendingReturnValue ∧
      t = s.setTop fun f => { f with defersDraining := false } := by
  unfold perform at h
  rw [run_perform] at h
  simp only [exec, State.takeReturn] at h
  cases hg : s.topFrame with
  | none =>
    rw [hg] at h
    cases h
  | some g =>
    rw [hg] at h
    obtain ⟨hpos, rfl⟩ := State.topFrame_eq_some.mp hg
    dsimp only at h
    split at h
    · cases h
      exact ⟨hpos, rfl, rfl⟩
    · cases h

theorem popFrame_done {cfg : Config} {s t : State} {ip : Nat}
    (h : (perform .popFrame).run (exec cfg) s = .done ip t) :
    ip = s.top.returnIp ∧ t = { s with vm := { s.vm with callDepth := s.vm.callDepth - 1 } } := by
  unfold perform at h
  rw [run_perform] at h
  simp only [exec, State.popFrame] at h
  cases hg : s.topFrame with
  | none =>
    rw [hg] at h
    cases h
  | some g =>
    rw [hg] at h
    cases h
    exact ⟨congrArg CallFrame.returnIp (State.topFrame_eq_some.mp hg).2.symm, rfl⟩

/-- The end of a return. -/
def finishReturn : Handler Unit := do
  perform .unwindScopes
  let ret ← perform .takeReturn
  perform (.setIp (← perform .popFrame))
  push ret

theorem leave_done {cfg : Config} {s t : State} (h : finishReturn.run (exec cfg) s = .done () t) :
    LeavesCall s t := by
  unfold finishReturn at h
  rw [run_bind] at h
  obtain ⟨_, u, hunwind, h1⟩ := Outcome.andThen_eq_done.mp h
  have hcalm := (FrameFree.perform (o := .unwindScopes) rfl).run_calm hunwind
  rw [run_bind] at h1
  obtain ⟨ret, v, htake, h2⟩ := Outcome.andThen_eq_done.mp h1
  obtain ⟨hpos, rfl, hv⟩ := takeReturn_done htake
  rw [run_bind] at h2
  obtain ⟨ip, w, hpop, h3⟩ := Outcome.andThen_eq_done.mp h2
  obtain ⟨rfl, rfl⟩ := popFrame_done hpop
  rw [run_bind] at h3
  obtain ⟨_, w, hset, h4⟩ := Outcome.andThen_eq_done.mp h3
  cases hset
  have hdepth : v.vm.callDepth = s.vm.callDepth := by rw [hv]; exact hcalm.callDepth
  have hcode : v.chunk.code = s.chunk.code := by rw [hv]; exact hcalm.code
  have herr : s.runtimeHadError = true → v.runtimeHadError = true := by rw [hv]; exact hcalm.hadError
  have htop : v.top.returnIp = s.top.returnIp := by rw [hv, State.top_setTop, hcalm.top]
  have hbelow : ∀ i, i + 1 < s.vm.callDepth → v.vm.callStack i = s.vm.callStack i := by
    intro i hi
    rw [hv, State.setTop_callStack _ _ (by rw [hcalm.callDepth]; omega), hcalm.callStack]
  rw [hcalm.top] at h4
  rw [hcalm.callDepth] at hpos
  clear hv htake hpop h h1 h2 h3
  unfold push perform at h4
  rw [run_perform] at h4
  simp only [exec, State.push] at h4
  split at h4
  · cases h4
    refine ⟨hcode, herr, ?_, hbelow, htop, Nat.succ_pos _, Function.update_self ..⟩
    change v.vm.callDepth - 1 + 1 = _
    omega
  · cases h4

/-- The first visit of a return keeps its value on the frame. -/
def State.stash (s : State) (v : AerVal) : State :=
  if s.top.defersDraining then s
  else s.setTop fun f => { f with pendingReturnValue := v, defersDraining := true }

theorem State.onlyTop_stash (s : State) (v : AerVal) : s.OnlyTop (s.stash v) := by
  unfold stash
  split
  · exact (Calm.refl s).onlyTop
  · exact s.onlyTop_setTop _

theorem State.top_stash_defers (s : State) (v : AerVal) : (s.stash v).top.defers = s.top.defers := by
  unfold stash
  split
  · rfl
  · rw [top_setTop]

theorem run_stash {cfg : Config} {u : State} (hpos : 0 < u.vm.callDepth) (v : AerVal)
    {α : Type} (rest : Handler α) :
    (do
      unless u.top.defersDraining do perform (.stashReturn v)
      rest : Handler α).run (exec cfg) u = rest.run (exec cfg) (u.stash v) := by
  unfold State.stash
  cases hd : u.top.defersDraining with
  | true => rfl
  | false =>
    have hstash : (perform (.stashReturn v)).run (exec cfg) u = .done () (u.setTop fun f =>
        { f with pendingReturnValue := v, defersDraining := true }) := by
      have hframe : u.topFrame = some u.top := State.topFrame_eq_some.mpr ⟨hpos, rfl⟩
      unfold perform
      rw [run_perform]
      simp only [exec, State.updateFrame, hframe]
      rfl
    rw [if_neg Bool.false_ne_true]
    dsimp only
    rw [if_neg Bool.false_ne_true, run_bind, hstash]
    rfl

/-- A return from where its value is on the frame. -/
def drainAndFinish (returnAddr : Nat) : Handler Unit := do
  if ← drainDefers returnAddr ((← perform .frameDefers).length + 1) then return
  finishReturn

/-- A return pops its value, keeps it on the frame, and goes on from there. -/
theorem run_lblReturn {cfg : Config} {s u : State} {v : AerVal} (hpos : 0 < s.vm.callDepth)
    (hpop : s.pop = .done v u) :
    lblReturn.run (exec cfg) s = (drainAndFinish (s.vm.ip - 1)).run (exec cfg) (u.stash v) := by
  have hip : (perform .getIp).run (exec cfg) s = .done s.vm.ip s := rfl
  have hcalm := calm_pop s v u hpop
  have hdraining : (perform .frameDraining).run (exec cfg) s = .done s.top.defersDraining s := by
    unfold perform
    rw [run_perform]
    simp only [exec, State.topFrame_eq_some.mpr ⟨hpos, rfl⟩, Option.map_some, orFault]
  have hpop' : pop.run (exec cfg) s = .done v u := by
    unfold pop perform
    rw [run_perform]
    exact hpop
  unfold lblReturn
  rw [run_bind, hip, Outcome.done_andThen, run_bind, hdraining, Outcome.done_andThen, run_bind,
    hpop', Outcome.done_andThen, ← hcalm.top]
  exact run_stash (hcalm.callDepth ▸ hpos) v (drainAndFinish (s.vm.ip - 1))

/-- What a return comes to: it runs the deferred calls of its frame from the last one on and
leaves the call, or goes on in the first of them that is a function. -/
theorem lblReturn_done {cfg : Config} {s t : State}
    (h : lblReturn.run (exec cfg) s = .done () t) (hok : t.runtimeHadError = false) :
    0 < s.vm.callDepth ∧ ∃ v u, s.pop = .done v u ∧
      ((∃ c, RunsAllInline cfg (u.stash v).top.defers (u.stash v) c ∧ LeavesCall c t) ∨
      ∃ pre dc rest c, (u.stash v).top.defers = pre ++ dc :: rest ∧
        RunsAllInline cfg pre (u.stash v) c ∧ EntersDeferred (s.vm.ip - 1) dc c t) := by
  have hstart : ∃ v u, 0 < s.vm.callDepth ∧ s.pop = .done v u := by
    unfold lblReturn at h
    rw [run_bind] at h
    obtain ⟨ip, u, hip, h1⟩ := Outcome.andThen_eq_done.mp h
    cases hip
    rw [run_bind] at h1
    obtain ⟨draining, u, hdraining, h2⟩ := Outcome.andThen_eq_done.mp h1
    obtain ⟨hpos, rfl, rfl⟩ := frameDraining_done hdraining
    rw [run_bind] at h2
    obtain ⟨v, u, hpop, -⟩ := Outcome.andThen_eq_done.mp h2
    unfold pop perform at hpop
    rw [run_perform] at hpop
    exact ⟨v, u, hpos, hpop⟩
  obtain ⟨v, u, hpos, hpop⟩ := hstart
  refine ⟨hpos, v, u, hpop, ?_⟩
  rw [run_lblReturn hpos hpop] at h
  unfold drainAndFinish at h
  rw [run_bind] at h
  obtain ⟨ds, w, hds, h5⟩ := Outcome.andThen_eq_done.mp h
  obtain ⟨-, rfl, rfl⟩ := frameDefers_done hds
  rw [run_bind] at h5
  obtain ⟨left, c, hdrain, h6⟩ := Outcome.andThen_eq_done.mp h5
  cases left with
  | true =>
    cases h6
    obtain ⟨hb, -⟩ | ⟨-, hcalls⟩ := drainDefers_done hdrain (Nat.lt_succ_self _) hok
    · cases hb
    · exact .inr hcalls
  | false =>
    have hleave := leave_done h6
    have hokc : c.runtimeHadError = false :=
      Bool.eq_false_iff.mpr fun hc => by
        rw [hleave.hadError hc] at hok
        cases hok
    obtain ⟨-, hall⟩ | ⟨hb, -⟩ := drainDefers_done hdrain (Nat.lt_succ_self _) hokc
    · exact .inl ⟨c, hall, hleave⟩
    · cases hb

end Aer.Machine
