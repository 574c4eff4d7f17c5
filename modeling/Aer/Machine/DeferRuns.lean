import Aer.Machine.Defers

set_option linter.all false

/-! The run of an activation: the deferrals it registers, its return, and the deferred
calls that the return runs before it leaves. -/
namespace Aer.Machine

open Aer.Data Aer.Memory Aer.Lib.Interaction

/-- Both frames go back to one place. -/
def CallFrame.SameReturn (f g : CallFrame) : Prop :=
  f.returnIp = g.returnIp ∧ f.returnScopeDepth = g.returnScopeDepth

namespace State

/-- No call is left: the frames below the running call are the same up to their function,
and all go back to where they did. -/
structure Stays (s t : State) : Prop where
  code : t.chunk.code = s.chunk.code
  callDepth : s.vm.callDepth ≤ t.vm.callDepth
  below : ∀ i, i + 1 < s.vm.callDepth →
    ∃ cell, t.vm.callStack i = { s.vm.callStack i with function := cell }
  returns : ∀ i < s.vm.callDepth, (t.vm.callStack i).SameReturn (s.vm.callStack i)

/-- The running call is left, for where its frame says. -/
structure Leaves (s t : State) : Prop where
  code : t.chunk.code = s.chunk.code
  callDepth : t.vm.callDepth + 1 = s.vm.callDepth
  below : ∀ i, i + 1 < s.vm.callDepth →
    ∃ cell, t.vm.callStack i = { s.vm.callStack i with function := cell }
  ip : t.vm.ip = s.top.returnIp

theorem Deepens.stays {s t : State} (h : s.Deepens t) : s.Stays t where
  code := h.code
  callDepth := h.callDepth
  below i hi := h.callStack i (by omega)
  returns i hi := by
    obtain ⟨cell, hcell⟩ := h.callStack i hi
    rw [hcell]
    exact ⟨rfl, rfl⟩

theorem OnlyTop.stays {s t : State} (h : s.OnlyTop t)
    (htop : t.top.SameReturn s.top) : s.Stays t where
  code := h.code
  callDepth := h.callDepth.ge
  below i hi := ⟨_, h.callStack i (by omega)⟩
  returns i hi := by
    by_cases hlast : i = s.vm.callDepth - 1
    · have := h.callDepth
      unfold State.top at htop
      rwa [this, ← hlast] at htop
    · rw [h.callStack i hlast]
      exact ⟨rfl, rfl⟩

theorem Stays.trans {s t u : State} (h : s.Stays t) (h' : t.Stays u) : s.Stays u where
  code := h'.code.trans h.code
  callDepth := h.callDepth.trans h'.callDepth
  below i hi := by
    obtain ⟨cell, hcell⟩ := h.below i hi
    obtain ⟨cell', hcell'⟩ := h'.below i (lt_of_lt_of_le hi h.callDepth)
    exact ⟨cell', by rw [hcell', hcell]⟩
  returns i hi :=
    ⟨(h'.returns i (lt_of_lt_of_le hi h.callDepth)).1.trans (h.returns i hi).1,
      (h'.returns i (lt_of_lt_of_le hi h.callDepth)).2.trans (h.returns i hi).2⟩

end State

theorem EntersAbove.stays {returnAddr : Nat} {s e : State} (h : EntersAbove returnAddr s e)
    (hpos : 0 < s.vm.callDepth) : s.Stays e where
  code := h.code
  callDepth := h.callDepth.ge.trans' (Nat.le_succ _)
  below i hi := by
    rw [h.callStack i (by omega)]
    exact ⟨_, s.setTop_callStack _ (by omega)⟩
  returns i hi := by
    rw [h.callStack i hi]
    by_cases hlast : i = s.vm.callDepth - 1
    · subst hlast
      have htop : s.takeDefer.top.SameReturn s.top := by
        rw [s.top_takeDefer]
        exact ⟨rfl, rfl⟩
      exact htop
    · rw [State.takeDefer, s.setTop_callStack _ hlast]
      exact ⟨rfl, rfl⟩

theorem RunsAllInline.stays {cfg : Config} {dcs : List DeferredCall} {s t : State}
    (h : RunsAllInline cfg dcs s t) : s.Stays t := by
  obtain ⟨honly, htop⟩ := h.onlyTop
  refine honly.stays ?_
  rw [htop]
  exact ⟨rfl, rfl⟩

theorem State.stays_stash (s : State) (v : AerVal) : s.Stays (s.stash v) := by
  refine (s.onlyTop_stash v).stays ?_
  unfold stash
  split
  · exact ⟨rfl, rfl⟩
  · rw [top_setTop]
    exact ⟨rfl, rfl⟩

theorem LeavesCall.leaves {s t : State} (h : LeavesCall s t) : s.Leaves t :=
  ⟨h.code, h.callDepth, fun i hi => ⟨_, h.callStack i hi⟩, h.ip⟩

theorem State.stays_pop {s t : State} {v : AerVal} (h : s.pop = .done v t) : s.Stays t :=
  (calm_pop s v t h).deepens.stays

theorem State.Stays.leaves {s t u : State} (h : s.Stays t) (hdepth : t.vm.callDepth = s.vm.callDepth)
    (h' : t.Leaves u) : s.Leaves u where
  code := h'.code.trans h.code
  callDepth := h'.callDepth.trans hdepth
  below i hi := by
    obtain ⟨cell, hcell⟩ := h.below i hi
    obtain ⟨cell', hcell'⟩ := h'.below i (hdepth ▸ hi)
    exact ⟨cell', by rw [hcell', hcell]⟩
  ip := by
    have hpos : 0 < s.vm.callDepth := by
      have := h'.callDepth
      omega
    rw [h'.ip]
    unfold State.top
    rw [hdepth]
    exact (h.returns _ (by omega)).1

/-- What a return comes to, in the order of its parts. -/
theorem lblReturn_frames {cfg : Config} {s t : State}
    (h : lblReturn.run (exec cfg) s = .done () t) (hok : t.runtimeHadError = false) :
    s.Stays t ∨ s.Leaves t := by
  obtain ⟨hpos, v, u, hpop, ⟨c, hall, hleave⟩ | ⟨pre, dc, rest, c, -, hall, henters⟩⟩ :=
    lblReturn_done h hok
  · have hc := ((State.stays_pop hpop).trans (u.stays_stash v)).trans hall.stays
    refine .inr (hc.leaves ?_ hleave.leaves)
    rw [hall.onlyTop.1.callDepth, (u.onlyTop_stash v).callDepth, (calm_pop s v u hpop).callDepth]
  · have hc := ((State.stays_pop hpop).trans (u.stays_stash v)).trans hall.stays
    exact .inl (hc.trans (henters.above.stays (lt_of_lt_of_le hpos hc.callDepth)))

/-- What a turn of the dispatch loop does to the frames. -/
theorem dispatch_frames {cfg : Config} {s t : State} (h : dispatch cfg s = .done () t)
    (hok : t.runtimeHadError = false) : s.Stays t ∨ s.Leaves t := by
  obtain ⟨-, op, -, hrun⟩ := dispatch_done h
  have hfetch := s.calm_fetched
  have hstay := hfetch.deepens.stays
  by_cases hret : op = .ret
  · subst hret
    obtain hs | hl := lblReturn_frames hrun hok
    · exact .inl (hstay.trans hs)
    · exact .inr (hstay.leaves hfetch.callDepth hl)
  by_cases hdefer : op = .deferPush
  · subst hdefer
    obtain ⟨_, n, -, -, -, -, rfl⟩ := lblDeferPush_done hrun hok
    have hdrop : s.fetched.Calm ((s.fetched.atIp (s.fetched.vm.ip + 2)).dropped n) :=
      ⟨rfl, id, rfl, rfl⟩
    refine .inl ((hstay.trans hdrop.deepens.stays).trans ((State.onlyTop_setTop _ _).stays ?_))
    rw [State.top_setTop]
    exact ⟨rfl, rfl⟩
  · exact .inl (hstay.trans ((keepsDefers_handler hret hdefer).run_deepens hrun).stays)

/-- The call that the next instruction defers, if it is one of the activation in frame `d`:
the arguments are the operands as they are now. -/
def State.deferral (d : Nat) (s : State) : Option DeferredCall :=
  if s.vm.callDepth = d + 1 ∧ s.nextOpcode = some .deferPush then
    match s.chunk.code[s.vm.ip + 1]?, s.chunk.code[s.vm.ip + 2]? with
    | some name, some n => some ⟨name.toNat, s.topArgs n.toNat⟩
    | _, _ => none
  else none

/-- Turns of the dispatch loop, none of them behind the end of the activation in frame `d`,
with the calls that the activation defers, oldest first. -/
inductive Inside (cfg : Config) (d : Nat) : State → List DeferredCall → State → Prop
  | refl (s : State) : Inside cfg d s [] s
  | tail {s t u : State} {ds : List DeferredCall} : Inside cfg d s ds t → d < t.vm.callDepth →
      dispatch cfg t = .done () u → Inside cfg d s (ds ++ (t.deferral d).toList) u

/-- The activation in frame `d` is about to return `v`; `t` is the machine once the return
has popped it. -/
structure AtReturn (d : Nat) (s : State) (v : AerVal) (t : State) : Prop where
  callDepth : s.vm.callDepth = d + 1
  opcode : s.nextOpcode = some .ret
  popped : s.fetched.pop = .done v t

/-- A return at `returnAddr` runs deferred calls one after the other. A function runs from
its entry to its own return, and its result is popped by the return it comes back to. -/
inductive Drains (cfg : Config) (d returnAddr : Nat) : List DeferredCall → State → State → Prop
  | nil (s : State) : Drains cfg d returnAddr [] s s
  | inline {dc : DeferredCall} {dcs : List DeferredCall} {s t u : State} :
      RunsInline cfg dc s t → Drains cfg d returnAddr dcs t u →
        Drains cfg d returnAddr (dc :: dcs) s u
  | function {dc : DeferredCall} {dcs ds : List DeferredCall} {s e w t u : State} {v : AerVal} :
      EntersDeferred returnAddr dc s e → Inside cfg (d + 1) e ds w → w.vm.ip = returnAddr →
        AtReturn d w v t → Drains cfg d returnAddr dcs t u →
        Drains cfg d returnAddr (dc :: dcs) s u

theorem Drains.trans {cfg : Config} {d returnAddr : Nat} {a b : List DeferredCall} {s t u : State}
    (h : Drains cfg d returnAddr a s t) (h' : Drains cfg d returnAddr b t u) :
    Drains cfg d returnAddr (a ++ b) s u := by
  induction h with
  | nil s => exact h'
  | inline hone _ ih => exact .inline hone (ih h')
  | function henters hin hip hret _ ih => exact .function henters hin hip hret (ih h')

theorem RunsAllInline.drains {cfg : Config} {d returnAddr : Nat} {dcs : List DeferredCall}
    {s t : State} (h : RunsAllInline cfg dcs s t) : Drains cfg d returnAddr dcs s t := by
  induction h with
  | nil s => exact .nil s
  | cons hone _ ih => exact .inline hone ih

/-- The activation in frame `d` registers `ds`, returns `r`, runs what it has registered,
the last one first, and leaves for its caller with `r` on the operands. -/
structure RunsDefers (cfg : Config) (d : Nat) (s t : State) (ds : List DeferredCall)
    (r : AerVal) : Prop where
  run : ∃ b h c, Inside cfg d s ds b ∧ AtReturn d b r h ∧
    Drains cfg d b.vm.ip ds.reverse (h.stash r) c ∧ LeavesCall c t
  received : 0 < t.vm.stackTop ∧ t.vm.stack (t.vm.stackTop - 1) = r

/-- The frame of the activation while its return waits for a deferred function. -/
structure Waiting (d returnAddr : Nat) (rest : List DeferredCall) (r : AerVal) (t : State) :
    Prop where
  depth : d < t.vm.callDepth
  defers : (t.vm.callStack d).defers = rest
  draining : (t.vm.callStack d).defersDraining = true
  pending : (t.vm.callStack d).pendingReturnValue = r
  returnIp : d + 1 < t.vm.callDepth → (t.vm.callStack (d + 1)).returnIp = returnAddr
  ip : t.vm.callDepth = d + 1 → t.vm.ip = returnAddr

/-- How far the activation that began at `s` and has deferred `ds` has come at `t`. -/
inductive Phase (cfg : Config) (d : Nat) (s : State) (ds : List DeferredCall) : State → Prop
  | body {t : State} (hrun : Inside cfg d s ds t) (hdepth : d < t.vm.callDepth)
      (hdefers : (t.vm.callStack d).defers = ds.reverse)
      (hdraining : (t.vm.callStack d).defersDraining = false) : Phase cfg d s ds t
  | drain {b h c e t : State} {r : AerVal} {pre rest ws : List DeferredCall}
      {dc : DeferredCall} (hrun : Inside cfg d s ds b) (hret : AtReturn d b r h)
      (hpre : Drains cfg d b.vm.ip pre (h.stash r) c) (henters : EntersDeferred b.vm.ip dc c e)
      (hin : Inside cfg (d + 1) e ws t) (hsplit : ds.reverse = pre ++ dc :: rest)
      (hcode : t.chunk.code = b.chunk.code) (hwait : Waiting d b.vm.ip rest r t) :
      Phase cfg d s ds t
  | left {t : State} {r : AerVal} (hdepth : t.vm.callDepth = d) (h : RunsDefers cfg d s t ds r) :
      Phase cfg d s ds t

section Steps
variable {cfg : Config} {d : Nat} {t u : State}

/-- A turn that is a return of the activation. -/
theorem dispatch_return (h : dispatch cfg t = .done () u) (hok : u.runtimeHadError = false)
    (hop : t.nextOpcode = some .ret) (hdepth : t.vm.callDepth = d + 1) :
    ∃ v g, AtReturn d t v g ∧ g.vm.callDepth = d + 1 ∧ g.top = t.top ∧
      ((∃ c, RunsAllInline cfg (g.stash v).top.defers (g.stash v) c ∧ LeavesCall c u) ∨
      ∃ pre dc rest c, (g.stash v).top.defers = pre ++ dc :: rest ∧
        RunsAllInline cfg pre (g.stash v) c ∧ EntersDeferred t.vm.ip dc c u) := by
  obtain ⟨-, op, hop', hrun⟩ := dispatch_done h
  obtain rfl : .ret = op := Option.some.inj (hop.symm.trans hop')
  obtain ⟨-, v, g, hpop, hcalls⟩ := lblReturn_done hrun hok
  have hcalm := t.calm_fetched.trans (calm_pop _ _ _ hpop)
  exact ⟨v, g, ⟨hdepth, hop, hpop⟩, hcalm.callDepth.trans hdepth, hcalm.top, hcalls⟩

theorem EntersDeferred.waiting {returnAddr : Nat} {dc : DeferredCall} {rest : List DeferredCall}
    {r : AerVal} {c e : State} (h : EntersDeferred returnAddr dc c e)
    (hdepth : c.vm.callDepth = d + 1) (hdefers : c.top.defers = dc :: rest)
    (hdraining : c.top.defersDraining = true) (hpending : c.top.pendingReturnValue = r) :
    Waiting d returnAddr rest r e := by
  have habove := h.above
  have hlast : c.vm.callDepth - 1 = d := by omega
  have hframe : e.vm.callStack d = { c.top with defers := rest } := by
    rw [habove.callStack d (by omega)]
    have htop := c.top_takeDefer
    unfold State.top at htop ⊢
    rw [show c.takeDefer.vm.callDepth = c.vm.callDepth from rfl, hlast] at htop
    unfold State.top at hdefers
    rw [hlast] at hdefers ⊢
    rw [htop, hdefers, List.tail_cons]
  have hdeep := habove.callDepth
  have hfresh := habove.fresh
  rw [hdepth] at hfresh
  exact ⟨by omega, by rw [hframe], by rw [hframe]; exact hdraining, by rw [hframe]; exact hpending,
    fun _ => hfresh, fun he => by omega⟩

/-- Above a waiting activation the deferred function runs, until it comes back to the return. -/
theorem Waiting.step {returnAddr : Nat} {rest : List DeferredCall} {r : AerVal}
    (h : Waiting d returnAddr rest r t) (habove : d + 1 < t.vm.callDepth)
    (hstep : t.Stays u ∨ t.Leaves u) : Waiting d returnAddr rest r u := by
  obtain hs | hl := hstep
  · obtain ⟨cell, hframe⟩ := hs.below d habove
    refine ⟨h.depth.trans_le hs.callDepth, ?_, ?_, ?_, fun _ => ?_, fun he => ?_⟩
    · rw [hframe]
      exact h.defers
    · rw [hframe]
      exact h.draining
    · rw [hframe]
      exact h.pending
    · rw [(hs.returns _ habove).1]
      exact h.returnIp habove
    · have := hs.callDepth
      omega
  · obtain ⟨cell, hframe⟩ := hl.below d habove
    have hdepth := hl.callDepth
    refine ⟨by omega, ?_, ?_, ?_, fun hin => ?_, fun he => ?_⟩
    · rw [hframe]
      exact h.defers
    · rw [hframe]
      exact h.draining
    · rw [hframe]
      exact h.pending
    · obtain ⟨cell', hframe'⟩ := hl.below (d + 1) (by omega)
      rw [hframe']
      exact h.returnIp habove
    · have hlast : t.vm.callDepth - 1 = d + 1 := by omega
      rw [hl.ip, State.top, hlast]
      exact h.returnIp habove

theorem deferral_of_ne (h : t.nextOpcode ≠ some .deferPush ∨ t.vm.callDepth ≠ d + 1) :
    t.deferral d = none := by
  unfold State.deferral
  rw [if_neg]
  rintro ⟨hdepth, hop⟩
  exact h.elim (· hop) (· hdepth)

theorem top_eq_of_depth (h : t.vm.callDepth = d + 1) : t.top = t.vm.callStack d := by
  unfold State.top
  rw [h, Nat.add_sub_cancel]

theorem State.setTop_callStack_last (s : State) (f : CallFrame → CallFrame)
    (h : s.vm.callDepth = d + 1) : (s.setTop f).vm.callStack d = f (s.vm.callStack d) := by
  have htop := s.top_setTop f
  unfold top at htop
  rwa [show (s.setTop f).vm.callDepth = s.vm.callDepth from rfl, h, Nat.add_sub_cancel] at htop

/-- A turn that is a deferral of the activation. -/
theorem dispatch_deferral (h : dispatch cfg t = .done () u) (hok : u.runtimeHadError = false)
    (hop : t.nextOpcode = some .deferPush) (hdepth : t.vm.callDepth = d + 1) :
    ∃ dc, t.deferral d = some dc ∧ u.vm.callDepth = d + 1 ∧
      u.vm.callStack d = { t.vm.callStack d with defers := dc :: (t.vm.callStack d).defers } := by
  obtain ⟨-, op, hop', hrun⟩ := dispatch_done h
  obtain rfl : .deferPush = op := Option.some.inj (hop.symm.trans hop')
  obtain ⟨nameIdx, n, hname, hcount, -, -, rfl⟩ := lblDeferPush_done hrun hok
  have hcalm := t.calm_fetched
  have hip : t.fetched.vm.ip = t.vm.ip + 1 := rfl
  rw [hcalm.code, hip] at hname hcount
  refine ⟨⟨nameIdx, t.fetched.topArgs n⟩, ?_, hcalm.callDepth.trans hdepth, ?_⟩
  · have hargs : t.fetched.topArgs n = t.topArgs n := by
      unfold State.topArgs State.fetched State.atIp
      simp only [State.gcMaybeCollect_vm]
    unfold State.deferral
    rw [if_pos ⟨hdepth, hop⟩, hname, show t.vm.ip + 2 = t.vm.ip + 1 + 1 from rfl, hcount, hargs]
    rfl
  · have hframe : t.fetched.vm.callStack d = t.vm.callStack d := congrFun hcalm.callStack d
    rw [← hframe]
    exact State.setTop_callStack_last (State.dropped _ n) _ (hcalm.callDepth.trans hdepth)

/-- A turn in the body of the activation that neither defers nor returns. -/
theorem dispatch_body (h : dispatch cfg t = .done () u) (hok : u.runtimeHadError = false)
    (hdepth : d < t.vm.callDepth)
    (hop : t.vm.callDepth = d + 1 → t.nextOpcode ≠ some .ret ∧ t.nextOpcode ≠ some .deferPush) :
    t.deferral d = none ∧ d < u.vm.callDepth ∧
      ∃ cell, u.vm.callStack d = { t.vm.callStack d with function := cell } := by
  by_cases hlast : t.vm.callDepth = d + 1
  · obtain ⟨hret, hdefer⟩ := hop hlast
    obtain ⟨-, op, hop', hrun⟩ := dispatch_done h
    rw [hop'] at hret hdefer
    have hdeep := t.calm_fetched.deepens.trans
      ((keepsDefers_handler (fun e => hret (congrArg some e))
        (fun e => hdefer (congrArg some e))).run_deepens hrun)
    exact ⟨deferral_of_ne (.inl (hop' ▸ hdefer)), hdepth.trans_le hdeep.callDepth,
      hdeep.callStack d hdepth⟩
  · refine ⟨deferral_of_ne (.inr hlast), ?_⟩
    obtain hs | hl := dispatch_frames h hok
    · exact ⟨hdepth.trans_le hs.callDepth, hs.below d (by omega)⟩
    · have := hl.callDepth
      exact ⟨by omega, hl.below d (by omega)⟩

end Steps

section Phases
variable {cfg : Config} {d : Nat} {s t u : State}

/-- The end of a return: what is left to run are built-ins and constructors. -/
theorem Phase.leave {b h g c : State} {r : AerVal} {ds pre rest : List DeferredCall}
    (hrun : Inside cfg d s ds b) (hret : AtReturn d b r h)
    (hpre : Drains cfg d b.vm.ip pre (h.stash r) g) (hsplit : ds.reverse = pre ++ rest)
    (hdepth : g.vm.callDepth = d + 1) (hpending : g.top.pendingReturnValue = r)
    (hall : RunsAllInline cfg rest g c) (hleave : LeavesCall c u) : Phase cfg d s ds u := by
  have hc := hall.onlyTop
  have hdepth' := hleave.callDepth
  rw [hc.1.callDepth, hdepth] at hdepth'
  refine .left (by omega) ⟨⟨b, h, c, hrun, hret, ?_, hleave⟩, hleave.received.1, ?_⟩
  · rw [hsplit]
    exact hpre.trans hall.drains
  · rw [hleave.received.2, hc.2]
    exact hpending

/-- A return that comes to a deferred function. -/
theorem Phase.enter {b h g c : State} {r : AerVal} {ds pre pre' rest : List DeferredCall}
    {dc : DeferredCall} (hrun : Inside cfg d s ds b) (hret : AtReturn d b r h)
    (hpre : Drains cfg d b.vm.ip pre (h.stash r) g) (hsplit : ds.reverse = pre ++ (pre' ++ dc :: rest))
    (hdepth : g.vm.callDepth = d + 1) (hdefers : g.top.defers = pre' ++ dc :: rest)
    (hdraining : g.top.defersDraining = true) (hpending : g.top.pendingReturnValue = r)
    (hcode : g.chunk.code = b.chunk.code) (hall : RunsAllInline cfg pre' g c)
    (henters : EntersDeferred b.vm.ip dc c u) : Phase cfg d s ds u := by
  obtain ⟨honly, htop⟩ := hall.onlyTop
  have hwait : Waiting d b.vm.ip rest r u := by
    refine henters.waiting (honly.callDepth.trans hdepth) ?_ ?_ ?_
    · rw [htop]
      change g.top.defers.drop pre'.length = _
      rw [hdefers, List.drop_left]
    · rw [htop]
      exact hdraining
    · rw [htop]
      exact hpending
  refine .drain hrun hret (hpre.trans hall.drains) henters (.refl u) ?_ ?_ hwait
  · rw [hsplit, List.append_assoc]
  · rw [henters.above.code, honly.code, hcode]

theorem Phase.step {ds : List DeferredCall} (h : Phase cfg d s ds t) (hdeep : d < t.vm.callDepth)
    (hstep : dispatch cfg t = .done () u) (hok : u.runtimeHadError = false) :
    Phase cfg d s (ds ++ (t.deferral d).toList) u := by
  have hquiet : ∀ {us : List DeferredCall}, t.deferral d = none → Phase cfg d s us u →
      Phase cfg d s (us ++ (t.deferral d).toList) u := by
    intro us hnone hus
    rwa [hnone, Option.toList_none, List.append_nil]
  cases h with
  | left hdepth => omega
  | body hrun hdepth hdefers hdraining =>
    by_cases hlast : t.vm.callDepth = d + 1
    · have htop := top_eq_of_depth hlast
      by_cases hret : t.nextOpcode = some .ret
      · -- the return of the activation itself: it keeps its value on the frame
        obtain ⟨v, g, hat, hg, hgtop, hcalls⟩ := dispatch_return hstep hok hret hlast
        have hnot : g.top.defersDraining = false := by rw [hgtop, htop, hdraining]
        have hstash : (g.stash v).top = { g.top with pendingReturnValue := v, defersDraining := true } := by
          unfold State.stash
          rw [hnot, if_neg Bool.false_ne_true, State.top_setTop]
        have hds : (g.stash v).top.defers = ds.reverse := by
          rw [g.top_stash_defers, hgtop, htop, hdefers]
        have hsdepth := (g.onlyTop_stash v).callDepth.trans hg
        refine hquiet (deferral_of_ne (.inl ?_)) ?_
        · rw [hret]
          exact nofun
        obtain ⟨c, hall, hleave⟩ | ⟨pre, dc, rest, c, hsplit, hall, henters⟩ := hcalls
        · exact .leave hrun hat (.nil _) hds.symm hsdepth (by rw [hstash]) hall hleave
        · have hgcode : (g.stash v).chunk.code = t.chunk.code :=
            (g.onlyTop_stash v).code.trans
              (t.calm_fetched.trans (calm_pop _ _ _ hat.popped)).code
          exact .enter hrun hat (.nil _) (hds.symm.trans hsplit) hsdepth hsplit (by rw [hstash])
            (by rw [hstash]) hgcode hall henters
      by_cases hdefer : t.nextOpcode = some .deferPush
      · obtain ⟨dc, hdc, hdepth', hframe⟩ := dispatch_deferral hstep hok hdefer hlast
        have hrun' := hrun.tail hdepth hstep
        rw [hdc] at hrun'
        rw [hdc]
        refine .body hrun' (by omega) ?_ ?_
        · rw [hframe, hdefers, Option.toList_some, List.reverse_append, List.reverse_singleton,
            List.singleton_append]
        · rw [hframe]
          exact hdraining
      · obtain ⟨hnone, hdepth', cell, hframe⟩ :=
          dispatch_body hstep hok hdepth fun _ => ⟨hret, hdefer⟩
        have hrun' := hrun.tail hdepth hstep
        rw [hnone, Option.toList_none, List.append_nil] at hrun'
        exact hquiet hnone
          (.body hrun' hdepth' (by rw [hframe]; exact hdefers) (by rw [hframe]; exact hdraining))
    · obtain ⟨hnone, hdepth', cell, hframe⟩ := dispatch_body hstep hok hdepth fun he => absurd he hlast
      have hrun' := hrun.tail hdepth hstep
      rw [hnone, Option.toList_none, List.append_nil] at hrun'
      exact hquiet hnone
        (.body hrun' hdepth' (by rw [hframe]; exact hdefers) (by rw [hframe]; exact hdraining))
  | @drain b h c e _ r pre rest ws dc hrun hret hpre henters hin hsplit hcode hwait =>
    by_cases hlast : t.vm.callDepth = d + 1
    · -- the deferred function is back: the same return instruction pops its result
      have hip := hwait.ip hlast
      have hop : t.nextOpcode = some .ret := by
        have := hret.opcode
        unfold State.nextOpcode at this ⊢
        rwa [hcode, hip]
      have htop := top_eq_of_depth hlast
      refine hquiet (deferral_of_ne (.inl ?_)) ?_
      · rw [hop]
        exact nofun
      obtain ⟨v, g, hat, hg, hgtop, hcalls⟩ := dispatch_return hstep hok hop hlast
      have hdraining : g.top.defersDraining = true := by rw [hgtop, htop, hwait.draining]
      have hstash : g.stash v = g := by
        unfold State.stash
        rw [if_pos hdraining]
      rw [hstash, hip] at hcalls
      have hdefers : g.top.defers = rest := by rw [hgtop, htop, hwait.defers]
      have hpending : g.top.pendingReturnValue = r := by rw [hgtop, htop, hwait.pending]
      have hpre' : Drains cfg d b.vm.ip (pre ++ [dc]) (h.stash r) g :=
        hpre.trans (.function henters hin hip hat (.nil g))
      have hsplit' : ds.reverse = (pre ++ [dc]) ++ rest := by rw [hsplit, List.append_assoc]; rfl
      obtain ⟨c', hall, hleave⟩ | ⟨pre', dc', rest', c', hrest, hall, henters'⟩ := hcalls
      · rw [hdefers] at hall
        exact .leave hrun hret hpre' hsplit' hg hpending hall hleave
      · have hgcode : g.chunk.code = b.chunk.code :=
          (t.calm_fetched.trans (calm_pop _ _ _ hat.popped)).code.trans hcode
        refine .enter hrun hret hpre' ?_ hg hrest hdraining hpending hgcode hall henters'
        rw [hsplit', ← hdefers, hrest]
    · have habove : d + 1 < t.vm.callDepth := by
        have := hwait.depth
        omega
      have hframes := dispatch_frames hstep hok
      have hcode' : u.chunk.code = t.chunk.code := hframes.elim (·.code) (·.code)
      exact hquiet (deferral_of_ne (.inr hlast)) (.drain hrun hret hpre henters
        (hin.tail habove hstep) hsplit (hcode'.trans hcode) (hwait.step habove hframes))

/-- An activation that has been left without an error has run what it registered. -/
theorem Inside.phase {ds : List DeferredCall} (h : Inside cfg d s ds t)
    (hdepth : d < s.vm.callDepth) (hdefers : (s.vm.callStack d).defers = [])
    (hdraining : (s.vm.callStack d).defersDraining = false) (hok : t.runtimeHadError = false) :
    Phase cfg d s ds t := by
  induction h with
  | refl => exact .body (.refl s) hdepth hdefers hdraining
  | tail hrun hdeep hstep ih => exact (ih (dispatch_done hstep).1).step hdeep hstep hok

end Phases

/-- A call in frame `d` has been entered. -/
structure Activation (d : Nat) (s : State) : Prop where
  callDepth : s.vm.callDepth = d + 1
  defers : s.top.defers = []
  draining : s.top.defersDraining = false

theorem activation_enter (s : State) (cell returnIp codeOffset : Nat) :
    Activation s.vm.callDepth (s.enter cell returnIp codeOffset) := by
  have htop (f : CallFrame) : Function.update s.vm.callStack s.vm.callDepth f s.vm.callDepth = f :=
    Function.update_self ..
  exact ⟨rfl, congrArg CallFrame.defers (htop _), congrArg CallFrame.defersDraining (htop _)⟩

section Sample

/-- At most `n` turns of an activation, with the calls it defers. -/
def insideRun (cfg : Config) (d : Nat) : Nat → State → Option (List DeferredCall × State)
  | 0, s => some ([], s)
  | n + 1, s =>
      if d < s.vm.callDepth then
        match dispatch cfg s with
        | .done () u => (insideRun cfg d n u).map fun r => ((s.deferral d).toList ++ r.1, r.2)
        | .stop _ _ => none
      else none

theorem Inside.head {cfg : Config} {d : Nat} {s t u : State} {ds : List DeferredCall}
    (h : Inside cfg d t ds u) (hdepth : d < s.vm.callDepth) (hstep : dispatch cfg s = .done () t) :
    Inside cfg d s ((s.deferral d).toList ++ ds) u := by
  induction h with
  | refl =>
    have hone := (Inside.refl s).tail hdepth hstep
    rwa [List.nil_append, ← List.append_nil (s.deferral d).toList] at hone
  | tail _ hdeep hnext ih =>
    rw [← List.append_assoc]
    exact ih.tail hdeep hnext

theorem inside_insideRun {cfg : Config} {d n : Nat} {s t : State} {ds : List DeferredCall}
    (h : insideRun cfg d n s = some (ds, t)) : Inside cfg d s ds t := by
  induction n generalizing s ds with
  | zero =>
    cases h
    exact .refl _
  | succ n ih =>
    unfold insideRun at h
    split at h
    · next hdepth =>
      split at h
      · next u hstep =>
        obtain ⟨⟨ds', t'⟩, hrun, heq⟩ := Option.map_eq_some_iff.mp h
        cases heq
        exact (ih hrun).head hdepth hstep
      · cases h
    · cases h

def deferProgram : String :=
  "function g(a):\n    x = a\nfunction f(n):\n    defer g(n)\n    defer print(n)\n    return 3\ny = f(2)\n"

/-- The machine as `f` is entered. -/
abbrev deferEntered : State := Program.after 8 20 deferProgram

/-- `f` is entered with nothing deferred, and left after 15 turns with two calls deferred. -/
theorem deferEntered_spec :
    (deferEntered.vm.callDepth = 1 ∧ deferEntered.top.defers = [] ∧
      deferEntered.top.defersDraining = false) ∧
    (insideRun {} 0 15 deferEntered).map
        (fun x => (x.1.length, x.2.vm.callDepth, x.2.runtimeHadError, x.2.vm.stackTop)) =
      some (2, 0, false, 1) := by
  decide +kernel

end Sample

end Aer.Machine
