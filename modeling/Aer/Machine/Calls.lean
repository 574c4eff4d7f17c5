import Aer.Machine.Step

set_option linter.all false

/-! What the set-up of a call does: when it enters the function, and with which values
on top of the operand stack. -/
namespace Aer.Machine

open Aer.Data Aer.Memory Aer.Lib.Interaction

namespace State

def atIp (s : State) (ip : Nat) : State := { s with vm := { s.vm with ip } }

/-- The machine without its top operands. -/
def dropped (s : State) (n : Nat) : State :=
  { s with vm := { s.vm with stackTop := s.vm.stackTop - n } }

/-- The machine with values on top of its operand stack. -/
def withOperands (s : State) (vs : List AerVal) : State :=
  { s with vm :=
    { s.vm with
      stack := fun i =>
        if i < s.vm.stackTop then s.vm.stack i
        else (vs[i - s.vm.stackTop]?).getD (s.vm.stack i)
      stackTop := s.vm.stackTop + vs.length } }

theorem withOperands_nil (s : State) : s.withOperands [] = s := by
  unfold withOperands
  simp only [List.getElem?_nil, Option.getD_none, ite_self, List.length_nil, Nat.add_zero]

@[simp] theorem withOperands_stackTop (s : State) (vs : List AerVal) :
    (s.withOperands vs).vm.stackTop = s.vm.stackTop + vs.length := rfl

theorem withOperands_stack (s : State) (vs : List AerVal) {i : Nat} (hi : i < vs.length) :
    (s.withOperands vs).vm.stack (s.vm.stackTop + i) = vs[i] := by
  simp only [withOperands, Nat.not_lt.mpr (Nat.le_add_right _ i), ↓reduceIte,
    Nat.add_sub_cancel_left, List.getElem?_eq_getElem hi, Option.getD_some]

/-- The slot above the operands holds what it held. -/
theorem withOperands_dead (s : State) (vs : List AerVal) :
    (s.withOperands vs).vm.stack (s.vm.stackTop + vs.length) =
      s.vm.stack (s.vm.stackTop + vs.length) := by
  simp only [withOperands, Nat.not_lt.mpr (Nat.le_add_right _ _), ↓reduceIte,
    Nat.add_sub_cancel_left, List.getElem?_eq_none (le_refl _), Option.getD_none]

theorem withOperands_first (s : State) (vs : List AerVal) :
    (s.withOperands vs).vm.stack s.vm.stackTop = vs.head?.getD (s.vm.stack s.vm.stackTop) := by
  cases vs with
  | nil => rw [withOperands_nil]; rfl
  | cons v vs => exact s.withOperands_stack (v :: vs) (i := 0) (Nat.zero_lt_succ _)

theorem withOperands_below (s : State) (vs : List AerVal) {i : Nat} (hi : i < s.vm.stackTop) :
    (s.withOperands vs).vm.stack i = s.vm.stack i := by
  simp only [withOperands, hi, ↓reduceIte]

theorem withOperands_withOperands (s : State) (vs ws : List AerVal) :
    (s.withOperands vs).withOperands ws = s.withOperands (vs ++ ws) := by
  have hstack : ((s.withOperands vs).withOperands ws).vm.stack =
      (s.withOperands (vs ++ ws)).vm.stack := by
    funext i
    by_cases hi : i < s.vm.stackTop
    · have : i < s.vm.stackTop + vs.length := by omega
      simp only [withOperands, hi, this, ↓reduceIte]
    · by_cases hv : i < s.vm.stackTop + vs.length
      · have : i - s.vm.stackTop < vs.length := by omega
        simp only [withOperands, hi, hv, ↓reduceIte, List.getElem?_append_left this]
      · have : vs.length ≤ i - s.vm.stackTop := by omega
        have hnone := List.getElem?_eq_none this
        simp only [withOperands, hi, hv, ↓reduceIte, List.getElem?_append_right this, hnone,
          Option.getD_none, Nat.sub_sub]
  have hvm : ((s.withOperands vs).withOperands ws).vm = (s.withOperands (vs ++ ws)).vm := by
    change { s.vm with
      stack := ((s.withOperands vs).withOperands ws).vm.stack
      stackTop := s.vm.stackTop + vs.length + ws.length } = _
    rw [hstack, Nat.add_assoc, ← List.length_append]
    rfl
  change { s with vm := ((s.withOperands vs).withOperands ws).vm } = _
  rw [hvm]
  rfl

/-- The operands pushed last are the top ones. -/
theorem topArgs_withOperands (s : State) (vs : List AerVal) :
    (s.withOperands vs).topArgs vs.length = vs := by
  refine List.ext_getElem ?_ fun i hi hi' => ?_
  · rw [topArgs, List.length_map, List.length_range]
  · rw [← s.withOperands_stack vs hi']
    simp only [topArgs, List.getElem_map, List.getElem_range, withOperands_stackTop,
      Nat.add_sub_cancel]

theorem push_withOperands (s : State) (vs : List AerVal) (v : AerVal)
    (hroom : s.vm.stackTop + vs.length < vmStackMax) :
    (s.withOperands vs).push v = .done () (s.withOperands (vs ++ [v])) := by
  have hstack : Function.update (s.withOperands vs).vm.stack (s.vm.stackTop + vs.length) v =
      (s.withOperands (vs ++ [v])).vm.stack := by
    funext i
    rcases Nat.lt_trichotomy i (s.vm.stackTop + vs.length) with hlt | rfl | hlt
    · rw [Function.update_of_ne hlt.ne]
      by_cases hi : i < s.vm.stackTop
      · simp only [withOperands, hi, ↓reduceIte]
      · have : i - s.vm.stackTop < vs.length := by omega
        simp only [withOperands, hi, ↓reduceIte, List.getElem?_append_left this]
    · have := withOperands_stack s (vs ++ [v]) (i := vs.length) (by simp)
      rw [Function.update_self, this]
      simp
    · have hi : ¬ i < s.vm.stackTop := by omega
      have h1 : vs.length ≤ i - s.vm.stackTop := by omega
      have h2 : (vs ++ [v]).length ≤ i - s.vm.stackTop := by
        rw [List.length_append, List.length_singleton]
        omega
      rw [Function.update_of_ne hlt.ne']
      simp only [withOperands, hi, ↓reduceIte, List.getElem?_eq_none h1, List.getElem?_eq_none h2]
  unfold State.push
  rw [if_pos (show (s.withOperands vs).vm.stackTop < vmStackMax from hroom)]
  change Outcome.done () { s.withOperands vs with vm := { (s.withOperands vs).vm with
    stack := Function.update (s.withOperands vs).vm.stack (s.vm.stackTop + vs.length) v
    stackTop := s.vm.stackTop + vs.length + 1 } } = _
  rw [hstack]
  simp only [withOperands, List.length_append, List.length_singleton, Nat.add_assoc]

end State

theorem exec_readIdx (cfg : Config) {s : State} {n : Nat}
    (h : s.chunk.code[s.vm.ip]? = some (.ofNat n)) :
    exec cfg .readIdx s = .done n (s.atIp (s.vm.ip + 1)) := by
  rw [exec, h]
  rfl

theorem run_pop (cfg : Config) {t : State} {n : Nat} {v : AerVal} (htop : t.vm.stackTop = n + 1)
    (hv : t.vm.stack n = v) : pop.run (exec cfg) t = .done v (t.dropped 1) := by
  have hpop : exec cfg .pop t = .done v (t.dropped 1) := by
    rw [exec, State.pop, if_neg (htop ▸ Nat.succ_ne_zero n), htop, Nat.add_sub_cancel, hv,
      State.dropped, htop]
    rfl
  exact (run_perform _ _ _).trans hpop

section Stack
variable (cfg : Config)

theorem run_pushAll (s : State) (vs ws : List AerVal)
    (hroom : s.vm.stackTop + vs.length + ws.length ≤ vmStackMax) :
    (pushAll ws).run (exec cfg) (s.withOperands vs) = .done () (s.withOperands (vs ++ ws)) := by
  induction ws generalizing vs with
  | nil => rw [List.append_nil]; rfl
  | cons w ws ih =>
    rw [List.length_cons] at hroom
    unfold pushAll push perform
    rw [run_bind, run_perform]
    change ((s.withOperands vs).push w).andThen _ = _
    rw [s.push_withOperands vs w (by omega)]
    change (pushAll ws).run (exec cfg) (s.withOperands (vs ++ [w])) = _
    rw [ih (vs ++ [w]) (by rw [List.length_append, List.length_singleton]; omega),
      List.append_assoc, List.singleton_append]

/-- Without room the pushes stop the machine. -/
theorem run_pushAll_full (s : State) (vs ws : List AerVal)
    (hle : s.vm.stackTop + vs.length ≤ vmStackMax)
    (hroom : vmStackMax < s.vm.stackTop + vs.length + ws.length) :
    ∃ t, (pushAll ws).run (exec cfg) (s.withOperands vs) = .stop .failed t := by
  induction ws generalizing vs with
  | nil =>
    rw [List.length_nil] at hroom
    omega
  | cons w ws ih =>
    unfold pushAll push perform
    rw [run_bind, run_perform]
    change ∃ t, ((s.withOperands vs).push w).andThen _ = _
    by_cases hlt : s.vm.stackTop + vs.length < vmStackMax
    · rw [s.push_withOperands vs w hlt]
      refine ih (vs ++ [w]) ?_ ?_
      · rw [List.length_append, List.length_singleton]
        omega
      · rw [List.length_append, List.length_singleton]
        rw [List.length_cons] at hroom
        omega
    · unfold State.push
      rw [if_neg (show ¬ (s.withOperands vs).vm.stackTop < vmStackMax from hlt)]
      exact ⟨_, rfl⟩

/-- Values are popped without a change of the calls, and no error is taken back. -/
theorem run_popArgs (n : Nat) (s : State) :
    ∃ vs t, (popArgs n).run (exec cfg) s = .done vs t ∧ t.vm.callDepth = s.vm.callDepth ∧
      (s.runtimeHadError = true → t.runtimeHadError = true) := by
  induction n generalizing s with
  | zero => exact ⟨[], s, rfl, rfl, id⟩
  | succ n ih =>
    have hpop : ∃ v u, s.pop = .done v u ∧ u.vm.callDepth = s.vm.callDepth ∧
        (s.runtimeHadError = true → u.runtimeHadError = true) := by
      unfold State.pop
      split
      · exact ⟨_, _, rfl, rfl, fun _ => rfl⟩
      · exact ⟨_, _, rfl, rfl, id⟩
    obtain ⟨v, u, hv, hdepth, herr⟩ := hpop
    obtain ⟨vs, t, hvs, hdepth', herr'⟩ := ih u
    refine ⟨vs ++ [v], t, ?_, hdepth'.trans hdepth, herr' ∘ herr⟩
    unfold popArgs pop perform
    rw [run_bind, run_perform]
    change (s.pop).andThen _ = _
    rw [hv]
    change (popArgs n >>= fun vs => pure (vs ++ [v])).run (exec cfg) u = _
    rw [run_bind, hvs]
    rfl

theorem run_popN (n : Nat) (s : State) :
    ∃ t, (popN n).run (exec cfg) s = .done () t ∧ t.vm.callDepth = s.vm.callDepth ∧
      (s.runtimeHadError = true → t.runtimeHadError = true) := by
  obtain ⟨vs, t, hvs, hdepth, herr⟩ := run_popArgs cfg n s
  refine ⟨t, ?_, hdepth, herr⟩
  unfold popN
  rw [run_bind, hvs]
  rfl

end Stack

/-- Whether a value is an instance of a struct type; `none` where C would read freed memory. -/
def State.instance? (s : State) (v : AerVal) (typeIdx : Nat) : Option Bool :=
  match v with
  | .array c =>
      match s.arrayData c with
      | none => none
      | some a =>
          match a.shape with
          | none => some false
          | some id => (s.heap.shapes[id]?).map fun shape => shape.name == typeIdx
  | _ => some false

theorem run_isInstance (cfg : Config) (v : AerVal) (typeIdx : Nat) (s : State) :
    (isInstance v typeIdx).run (exec cfg) s = orFault (s.instance? v typeIdx) s := by
  cases v with
  | array c =>
    have harray : exec cfg (.array c) s = orFault (s.arrayData c) s := rfl
    have hshape : ∀ id, exec cfg (.shape id) s = orFault s.heap.shapes[id]? s := fun _ => rfl
    unfold isInstance perform
    rw [run_bind, run_perform, harray]
    simp only [State.instance?]
    cases hdata : s.arrayData c with
    | none => rfl
    | some a =>
      simp only [orFault, Outcome.done_andThen]
      cases a.shape with
      | none => rfl
      | some id =>
        simp only [run_bind, run_perform, hshape]
        cases s.heap.shapes[id]? <;> rfl
  | null | boolean _ | integer _ | long _ | real _ | string _ | function _ | dict _ => rfl

/-- The machine with the frame of a further call. -/
def State.framed (s : State) (cell returnIp : Nat) : State :=
  let frame :=
    { s.vm.callStack s.vm.callDepth with
      returnIp, returnScopeDepth := s.vm.scopeDepth, function := cell, defers := []
      defersDraining := false }
  { s with vm := { s.vm.setFrame s.vm.callDepth frame with callDepth := s.vm.callDepth + 1 } }

/-- The machine inside a function it has just entered. -/
def State.enter (s : State) (cell returnIp codeOffset : Nat) : State :=
  { s.framed cell returnIp with vm := { (s.framed cell returnIp).vm with ip := codeOffset } }

theorem exec_pushFrame (cfg : Config) {s : State} (hdepth : s.vm.callDepth < vmCallMax)
    (cell returnIp : Nat) :
    exec cfg (.pushFrame cell returnIp) s = .done () (s.framed cell returnIp) :=
  if_pos hdepth

theorem exec_setIp_framed (cfg : Config) (s : State) (cell returnIp codeOffset : Nat) :
    exec cfg (.setIp codeOffset) (s.framed cell returnIp) =
      .done () (s.enter cell returnIp codeOffset) := rfl

/-- One default for each parameter that may be omitted, and a receiver among the parameters. -/
structure AerFunction.Regular (f : AerFunction) : Prop where
  defaults : f.defaults.length = f.arity - f.minArity
  receiver : f.hasReceiver = true → 0 < f.arity

theorem AerFunction.Regular.omitted {f : AerFunction} (h : AerFunction.Regular f) {n : Nat}
    (hn : f.minArity ≤ n) : (omittedDefaults f n).length = f.arity - n := by
  unfold omittedDefaults
  rw [List.length_drop, h.defaults]
  omega

/-- All the checks that a call through a value makes. -/
structure Setup (s : State) (f : AerFunction) (n : Nat) : Prop where
  least : f.minArity ≤ n
  most : n ≤ f.arity
  receiver : f.hasReceiver = true →
    s.instance? (s.vm.stack (s.vm.stackTop - n)) f.receiverType = some true
  depth : s.vm.callDepth < vmCallMax
  room : s.vm.stackTop + (f.arity - n) ≤ vmStackMax

/-- The call is not entered: an error is reported, or the machine has stopped. -/
inductive Declined (depth : Nat) : Result Bool → Prop
  | error {t : State} : t.vm.callDepth = depth → t.runtimeHadError = true →
      Declined depth (.done false t)
  | stop (w : Stop) (t : State) : Declined depth (.stop w t)

theorem exec_nameText_state {cfg : Config} {i : Nat} {s t : State} {b : Bytes}
    (h : exec cfg (.nameText i) s = .done b t) : t = s := by
  rw [exec] at h
  split at h
  · rename_i c _
    cases hd : (s.stringData c).map cString with
    | none =>
      rw [hd] at h
      cases h
    | some text =>
      rw [hd] at h
      cases h
      rfl
  · cases h

section Setup
variable (cfg : Config) {s : State} {cell n : Nat} {f : AerFunction}
  (hf : s.functionData cell = some f) (hreg : AerFunction.Regular f) (hn : n ≤ s.vm.stackTop)
include hf hreg hn

omit hreg hn in
theorem exec_function : exec cfg (.function cell) s = .done f s := by
  change orFault (s.functionData cell) s = _
  rw [hf]
  rfl

theorem run_vmSetupCall (h : Setup s f n) (returnIp : Nat) :
    (vmSetupCall (.function cell) n returnIp).run (exec cfg) s =
      .done true ((s.withOperands (omittedDefaults f n)).enter cell returnIp f.codeOffset) := by
  have hroom : exec cfg (.hasRoom (f.arity - n)) s = .done true s := by
    change Outcome.done _ s = _
    rw [decide_eq_true h.room]
  have hdepth : exec cfg .callDepth s = .done s.vm.callDepth s := rfl
  have hcount : ¬ (n < f.minArity ∨ f.arity < n) := by
    have := h.least
    have := h.most
    omega
  have hpush := run_pushAll cfg s [] (omittedDefaults f n) (by
    rw [hreg.omitted h.least]
    exact h.room)
  rw [State.withOperands_nil, List.nil_append] at hpush
  have hframe := exec_pushFrame cfg (s := s.withOperands (omittedDefaults f n)) h.depth cell returnIp
  unfold vmSetupCall perform
  simp only [run_bind, run_perform, exec_function cfg hf, Outcome.done_andThen, if_neg hcount]
  cases hr : f.hasReceiver with
  | false =>
    simp only [Bool.false_eq_true, ↓reduceIte, run_bind, run_perform, hdepth, Outcome.done_andThen,
      if_neg (Nat.not_le.mpr h.depth), hroom, hpush, hframe, exec_setIp_framed, run_pure]
  | true =>
    have harg : exec cfg (.argAt n) s = .done (s.vm.stack (s.vm.stackTop - n)) s := by
      have := hreg.receiver hr
      have := h.room
      exact if_pos ⟨hn, by omega⟩
    simp only [↓reduceIte, run_bind, run_perform, harg, Outcome.done_andThen, run_isInstance,
      h.receiver hr, orFault, hdepth, if_neg (Nat.not_le.mpr h.depth), hroom, hpush, hframe,
      exec_setIp_framed, run_pure]

omit hreg in
/-- A call that fails one of the checks is not entered. -/
theorem vmSetupCall_declined (h : ¬ Setup s f n) (returnIp : Nat) :
    Declined s.vm.callDepth ((vmSetupCall (.function cell) n returnIp).run (exec cfg) s) := by
  have herror : ∀ msg, exec cfg (.error msg) s = .done () (s.addError msg) := fun _ => rfl
  have hdepth : exec cfg .callDepth s = .done s.vm.callDepth s := rfl
  have hroom : exec cfg (.hasRoom (f.arity - n)) s =
      .done (decide (s.vm.stackTop + (f.arity - n) ≤ vmStackMax)) s := rfl
  have hdeclined : ∀ msg, Declined s.vm.callDepth (.done false (s.addError msg)) :=
    fun _ => .error rfl rfl
  unfold vmSetupCall perform
  simp only [run_bind, run_perform, exec_function cfg hf, Outcome.done_andThen]
  by_cases hcount : n < f.minArity ∨ f.arity < n
  · simp only [if_pos hcount, run_bind, run_perform, herror, Outcome.done_andThen, run_pure, hdeclined]
  -- what is left once the receiver has passed
  have hlast : (f.hasReceiver = true →
      s.instance? (s.vm.stack (s.vm.stackTop - n)) f.receiverType = some true) →
      ¬ (s.vm.callDepth < vmCallMax ∧ s.vm.stackTop + (f.arity - n) ≤ vmStackMax) :=
    fun hrec hrest => h ⟨by omega, by omega, hrec, hrest.1, hrest.2⟩
  simp only [if_neg hcount]
  cases hr : f.hasReceiver with
  | false =>
    simp only [Bool.false_eq_true, ↓reduceIte, run_bind, run_perform, hdepth, Outcome.done_andThen]
    by_cases hc : vmCallMax ≤ s.vm.callDepth
    · simp only [if_pos hc, run_bind, run_perform, herror, Outcome.done_andThen, run_pure, hdeclined]
    · have hnot : ¬ s.vm.stackTop + (f.arity - n) ≤ vmStackMax :=
        fun hle => hlast (by simp [hr]) ⟨not_le.mp hc, hle⟩
      simp only [if_neg hc, run_bind, run_perform, hroom, decide_eq_false hnot, Outcome.done_andThen,
        Bool.false_eq_true, ↓reduceIte, herror, run_pure, hdeclined]
  | true =>
    simp only [↓reduceIte, run_bind, run_perform]
    cases harg : exec cfg (.argAt n) s with
    | stop w t => exact .stop w t
    | done v t =>
      obtain ⟨rfl, rfl⟩ : v = s.vm.stack (s.vm.stackTop - n) ∧ t = s := by
        change (if _ then _ else _) = _ at harg
        split at harg
        · cases harg
          exact ⟨rfl, rfl⟩
        · cases harg
      simp only [Outcome.done_andThen, run_isInstance]
      cases hinst : t.instance? (t.vm.stack (t.vm.stackTop - n)) f.receiverType with
      | none => exact .stop _ _
      | some b =>
        cases b with
        | false =>
          simp only [orFault, Outcome.done_andThen, Bool.false_eq_true, ↓reduceIte, run_bind,
            run_perform]
          cases htext : exec cfg (.nameText f.receiverType) t with
          | stop w u => exact .stop w u
          | done name u =>
            obtain rfl := exec_nameText_state htext
            simp only [Outcome.done_andThen, herror, run_pure, hdeclined]
        | true =>
          simp only [orFault, ↓reduceIte, run_bind, run_perform, hdepth, Outcome.done_andThen]
          by_cases hc : vmCallMax ≤ t.vm.callDepth
          · simp only [if_pos hc, run_bind, run_perform, herror, Outcome.done_andThen, run_pure, hdeclined]
          · have hnot : ¬ t.vm.stackTop + (f.arity - n) ≤ vmStackMax :=
              fun hle => hlast (fun _ => hinst) ⟨not_le.mp hc, hle⟩
            simp only [if_neg hc, run_bind, run_perform, hroom, decide_eq_false hnot,
              Outcome.done_andThen, Bool.false_eq_true, ↓reduceIte, herror, run_pure, hdeclined]

end Setup

/-- All the checks that a call by name makes; the receiver is looked at behind the
defaults. -/
structure SetupByName (s : State) (f : AerFunction) (n : Nat) : Prop where
  least : f.minArity ≤ n
  most : n ≤ f.arity
  room : s.vm.stackTop + (f.arity - n) ≤ vmStackMax
  receiver : f.hasReceiver = true →
    s.instance? ((s.withOperands (omittedDefaults f n)).vm.stack (s.vm.stackTop - n))
      f.receiverType = some true
  depth : s.vm.callDepth < vmCallMax

/-- The instruction leaves the calls as they are, or the machine has stopped. -/
inductive NotEntered (depth : Nat) : Result Unit → Prop
  | done {t : State} : t.vm.callDepth = depth → NotEntered depth (.done () t)
  | stop (w : Stop) (t : State) : NotEntered depth (.stop w t)

/-- After an error: drop the operands, and leave null in their place. -/
theorem notEntered_popN (cfg : Config) {depth : Nat} {s : State} (h : s.vm.callDepth = depth)
    (n : Nat) : NotEntered depth
      (((popN n).run (exec cfg) s).andThen fun _ t => (push .null).run (exec cfg) t) := by
  obtain ⟨t, ht, hdepth, -⟩ := run_popN cfg n s
  have hpush : (push .null).run (exec cfg) t = t.push .null := run_perform _ _ _
  rw [ht, Outcome.done_andThen, hpush]
  unfold State.push
  split
  · exact .done (hdepth.trans h)
  · exact .stop _ _

section ByName
variable (cfg : Config) {s : State} {cell n : Nat} {f : AerFunction}
  (hf : s.functionData cell = some f) (hreg : AerFunction.Regular f) (hn : n ≤ s.vm.stackTop)
include hf hreg hn

omit hf in
/-- Behind the defaults the first argument lies `arity` slots down. -/
theorem exec_argAt_arity (hleast : f.minArity ≤ n) (hmost : n ≤ f.arity)
    (hroom : s.vm.stackTop + (f.arity - n) ≤ vmStackMax) (hpos : 0 < f.arity) :
    exec cfg (.argAt f.arity) (s.withOperands (omittedDefaults f n)) =
      .done ((s.withOperands (omittedDefaults f n)).vm.stack (s.vm.stackTop - n))
        (s.withOperands (omittedDefaults f n)) := by
  have htop : (s.withOperands (omittedDefaults f n)).vm.stackTop - f.arity = s.vm.stackTop - n := by
    rw [State.withOperands_stackTop, hreg.omitted hleast]
    omega
  rw [← htop]
  refine if_pos ⟨?_, ?_⟩
  · rw [State.withOperands_stackTop, hreg.omitted hleast]
    omega
  · rw [htop]
    omega

theorem run_callFunction (h : SetupByName s f n) (name : Bytes) :
    (callFunction false name cell n).run (exec cfg) s =
      .done () ((s.withOperands (omittedDefaults f n)).enter cell s.vm.ip f.codeOffset) := by
  have hcount : ¬ (n < f.minArity ∨ f.arity < n) := by
    have := h.least
    have := h.most
    omega
  have hpush := run_pushAll cfg s [] (omittedDefaults f n) (by
    rw [hreg.omitted h.least]
    exact h.room)
  rw [State.withOperands_nil, List.nil_append] at hpush
  have hframe := exec_pushFrame cfg (s := s.withOperands (omittedDefaults f n)) h.depth cell s.vm.ip
  have hdepth : exec cfg .callDepth (s.withOperands (omittedDefaults f n)) =
      .done s.vm.callDepth (s.withOperands (omittedDefaults f n)) := rfl
  have hip : exec cfg .getIp (s.withOperands (omittedDefaults f n)) =
      .done s.vm.ip (s.withOperands (omittedDefaults f n)) := rfl
  unfold callFunction enterFunction perform
  simp only [run_bind, run_perform, exec_function cfg hf, Outcome.done_andThen, if_neg hcount, hpush]
  cases hr : f.hasReceiver with
  | false =>
    simp only [Bool.false_eq_true, ↓reduceIte, run_bind, run_perform, hdepth, Outcome.done_andThen,
      if_neg (Nat.not_le.mpr h.depth), hip, hframe, exec_setIp_framed]
  | true =>
    have harg := exec_argAt_arity cfg hreg hn h.least h.most h.room (hreg.receiver hr)
    have hinst : (s.withOperands (omittedDefaults f n)).instance? _ f.receiverType = some true :=
      h.receiver hr
    simp only [Bool.false_eq_true, ↓reduceIte, run_bind, run_perform, harg, Outcome.done_andThen,
      run_isInstance, hinst, orFault, hdepth, if_neg (Nat.not_le.mpr h.depth), hip, hframe,
      exec_setIp_framed]

theorem callFunction_notEntered (h : ¬ SetupByName s f n) (htop : s.vm.stackTop ≤ vmStackMax)
    (name : Bytes) :
    NotEntered s.vm.callDepth ((callFunction false name cell n).run (exec cfg) s) := by
  have herror : ∀ msg (u : State), exec cfg (.error msg) u = .done () (u.addError msg) :=
    fun _ _ => rfl
  unfold callFunction enterFunction perform
  simp only [run_bind, run_perform, exec_function cfg hf, Outcome.done_andThen]
  by_cases hcount : n < f.minArity ∨ f.arity < n
  · simp only [if_pos hcount, run_bind, run_perform, herror, Outcome.done_andThen]
    exact notEntered_popN cfg (s := s.addError _) rfl n
  simp only [if_neg hcount]
  by_cases hroom : s.vm.stackTop + (f.arity - n) ≤ vmStackMax
  · have hpush := run_pushAll cfg s [] (omittedDefaults f n) (by
      rw [hreg.omitted (by omega)]
      exact hroom)
    rw [State.withOperands_nil, List.nil_append] at hpush
    let u := s.withOperands (omittedDefaults f n)
    have hdepth : exec cfg .callDepth u = .done s.vm.callDepth u := rfl
    -- what is left once the receiver has passed
    have hlast : (f.hasReceiver = true → u.instance? (u.vm.stack (s.vm.stackTop - n))
        f.receiverType = some true) → vmCallMax ≤ s.vm.callDepth :=
      fun hrec => not_lt.mp fun hlt => h ⟨by omega, by omega, hroom, hrec, hlt⟩
    have hfail : exec cfg .fail (u.addError (bytes "Call stack overflow")) =
        .stop .failed (u.addError (bytes "Call stack overflow")) := rfl
    simp only [run_bind, hpush, Outcome.done_andThen]
    cases hr : f.hasReceiver with
    | false =>
      have hc := hlast (by simp [hr])
      simp only [Bool.false_eq_true, ↓reduceIte, run_bind, run_perform, hdepth, u,
        Outcome.done_andThen, if_pos hc, herror]
      exact .stop _ _
    | true =>
      have harg := exec_argAt_arity cfg hreg hn (by omega) (by omega) hroom (hreg.receiver hr)
      simp only [Bool.false_eq_true, ↓reduceIte, run_bind, run_perform, harg,
        Outcome.done_andThen, run_isInstance]
      cases hinst : u.instance? (u.vm.stack (s.vm.stackTop - n)) f.receiverType with
      | none => exact .stop _ _
      | some b =>
        cases b with
        | true =>
          have hc := hlast fun _ => hinst
          simp only [orFault, ↓reduceIte, Outcome.done_andThen, run_bind, run_perform, hdepth, u,
            if_pos hc, herror]
          exact .stop _ _
        | false =>
          simp only [orFault, Bool.false_eq_true, ↓reduceIte, Outcome.done_andThen, run_bind,
            run_perform]
          cases htext : exec cfg (.nameText f.receiverType) u with
          | stop w t => exact .stop w t
          | done text t =>
            obtain rfl := exec_nameText_state htext
            have hrest : ∀ v : State, (((push .null).run (exec cfg) v).andThen fun _ w =>
                (pure () : Handler Unit).run (exec cfg) w) = (push .null).run (exec cfg) v :=
              fun v => by cases (push .null).run (exec cfg) v <;> rfl
            simp only [Outcome.done_andThen, herror, hrest]
            exact notEntered_popN cfg (s := u.addError _) rfl f.arity
  · obtain ⟨t, ht⟩ := run_pushAll_full cfg s [] (omittedDefaults f n) htop (by
      rw [hreg.omitted (by omega)]
      exact not_le.mp hroom)
    rw [State.withOperands_nil] at ht
    simp only [run_bind, ht]
    exact .stop _ _

end ByName

end Aer.Machine
