import Aer.Lib.Walk
import Aer.Machine.Collections
import Mathlib.Algebra.Ring.Divisibility.Basic
import Mathlib.Algebra.Ring.Int.Defs

set_option linter.all false

/-! Range loops: `for i in start..stop..step` against what the iteration instruction
makes of its three slots, whatever the loop body does. -/
namespace Aer.Machine

open Aer.Data Aer.Memory Aer.Lib Aer.Lib.Interaction

/-- What the loop is to bind: upwards while strictly below the end, or downwards while
strictly above it. -/
def rangeValues (start stop step : Int) : List Int :=
  if start < stop then Walk.walk (· + step) (· < stop) (stop - start).toNat start
  else Walk.walk (· - step) (stop < ·) (start - stop).toNat start

example : rangeValues 0 10 3 = [0, 3, 6, 9] := by decide

example : rangeValues 5 0 2 = [5, 3, 1] := by decide

theorem rangeValues_self (start step : Int) : rangeValues start start step = [] := by
  rw [rangeValues, if_neg (lt_irrefl _)]
  exact Walk.walk_stop (by simp) _

section Values
variable {cur stop step : Int} (hstep : 0 < step)
include hstep

theorem rangeValues_up (h : cur < stop) :
    rangeValues cur stop step =
      cur :: Walk.walk (· + step) (· < stop) (stop - (cur + step)).toNat (cur + step) := by
  rw [rangeValues, if_pos h]
  refine Walk.walk_cons (m := fun a => (stop - a).toNat) (fun a ha => ?_) (by simpa using h)
  have := of_decide_eq_true ha
  omega

theorem rangeValues_down (h : stop < cur) :
    rangeValues cur stop step =
      cur :: Walk.walk (· - step) (stop < ·) ((cur - step) - stop).toNat (cur - step) := by
  rw [rangeValues, if_neg (by omega)]
  refine Walk.walk_cons (m := fun a => (a - stop).toNat) (fun a ha => ?_) (by simpa using h)
  have := of_decide_eq_true ha
  omega

/-- The next cursor, but for overflow. -/
def toward (cur stop step : Int) : Int := cur + if cur < stop then step else -step

omit hstep in
theorem dvd_toward : step ∣ stop - toward cur stop step ↔ step ∣ stop - cur := by
  unfold toward
  split
  · rw [← Int.sub_sub, dvd_sub_self_right]
  · rw [show stop - (cur + -step) = stop - cur + step by omega, dvd_add_self_right]

theorem toward_dist (hc : cur ≠ stop) (hle : step ≤ (stop - cur).natAbs) :
    (stop - toward cur stop step).natAbs < (stop - cur).natAbs := by
  unfold toward
  rcases lt_or_gt_of_ne hc with h | h
  · rw [if_pos h]
    omega
  · rw [if_neg (by omega)]
    omega

/-- Short of the end by a step or more, the loop binds the cursor and goes on. -/
theorem rangeValues_cons (hc : cur ≠ stop) (hle : step ≤ (stop - cur).natAbs) :
    rangeValues cur stop step = cur :: rangeValues (toward cur stop step) stop step := by
  unfold toward
  rcases lt_or_gt_of_ne hc with h | h
  · rw [rangeValues_up hstep h, if_pos h]
    rcases (show cur + step < stop ∨ cur + step = stop by omega) with hlt | heq
    · rw [rangeValues, if_pos hlt]
    · rw [heq, rangeValues_self, Walk.walk_stop (by simp)]
  · rw [rangeValues_down hstep h, if_neg (by omega), ← Int.sub_eq_add_neg]
    rcases (show stop < cur - step ∨ cur - step = stop by omega) with hlt | heq
    · rw [rangeValues, if_neg (by omega)]
    · rw [heq, rangeValues_self, Walk.walk_stop (by simp)]

/-- Within a step of the end, the cursor is the last value to bind. -/
theorem rangeValues_last (hc : cur ≠ stop) (hlt : (stop - cur).natAbs < step) :
    rangeValues cur stop step = [cur] := by
  rcases lt_or_gt_of_ne hc with h | h
  · rw [rangeValues_up hstep h, Walk.walk_stop]
    simp only [decide_eq_false_iff_not]
    omega
  · rw [rangeValues_down hstep h, Walk.walk_stop]
    simp only [decide_eq_false_iff_not]
    omega

end Values

/-- Values that hold integers still do after an integer is made. -/
theorem asInt_aerInt {s : State} (hw : s.heap.longs.Wf) {n : Int} :
    let s' := { s with heap := (s.heap.aerInt n).2 }
    s'.asInt (s.heap.aerInt n).1 = some n ∧ s'.heap.longs.Wf ∧
      ∀ v m, s.asInt v = some m → s'.asInt v = some m := by
  unfold Heap.aerInt
  by_cases hn : IsInt47 n
  · simp only [hn, ↓reduceDIte]
    exact ⟨rfl, hw, fun v m hv => hv⟩
  · simp only [hn, ↓reduceDIte, Heap.newLong]
    have hf := hw.alloc_fresh n
    refine ⟨?_, hf.wf, fun v m hv => ?_⟩
    · simp only [State.asInt, (hf.live _).mpr (.inl rfl), ↓reduceIte, hf.data_self]
    · cases v with
      | integer i => exact hv
      | long c =>
        simp only [State.asInt] at hv ⊢
        split at hv
        · next hc =>
          have hne : c ≠ (s.heap.longs.alloc n).1 := fun h => hf.fresh (h ▸ hc)
          rw [if_pos ((hf.live c).mpr (.inr hc)), hf.data_ne hne]
          exact hv
        · cases hv
      | null | boolean _ | real _ | string _ | function _ | array _ | dict _ => cases hv

/-- The integer a value holds is a matter of the heap only. -/
theorem asInt_congr {s t : State} (h : t.heap = s.heap) (v : AerVal) : t.asInt v = s.asInt v := by
  cases v <;> simp only [State.asInt, h]

theorem type_of_asInt {s : State} {v : AerVal} {n : Int} (h : s.asInt v = some n) :
    v.type = .integer := by
  cases v <;> first | rfl | cases h

/-- A range loop between `top` and `endAddr`, its three slots on the stack from `base`. -/
structure RangeState (top endAddr base : Nat) (s : State) (cur stop step : Int) : Prop where
  opcode : s.chunk.code[top]? = some Opcode.iterRange.word
  operand : s.chunk.code[top + 1]? = some (.ofNat endAddr)
  room : base + 3 < vmStackMax
  cur : s.asInt (s.vm.stack base) = some cur
  stop : s.asInt (s.vm.stack (base + 1)) = some stop
  step : s.asInt (s.vm.stack (base + 2)) = some step
  longs : s.heap.longs.Wf

/-- The loop is about to fetch its iteration instruction. -/
structure AtHead (top endAddr base : Nat) (s : State) (cur stop step : Int) : Prop
    extends RangeState top endAddr base s cur stop step where
  ip : s.vm.ip = top
  stackTop : s.vm.stackTop = base + 3

/-- The loop has entered its body with `v` on top of the slots. -/
structure InBody (top endAddr base : Nat) (s : State) (v cur stop step : Int) : Prop
    extends RangeState top endAddr base s cur stop step where
  ip : s.vm.ip = top + 2
  stackTop : s.vm.stackTop = base + 4
  bound : s.asInt (s.vm.stack (base + 3)) = some v

/-- A collection keeps the integers on the value stack. -/
theorem asInt_gcCollect {s : State} {i : Nat} (hi : i < s.vm.stackTop) {n : Int}
    (hn : s.asInt (s.vm.stack i) = some n) (minor : Bool) :
    (s.gcCollect minor).asInt (s.vm.stack i) = some n := by
  cases hv : s.vm.stack i with
  | integer k =>
    rw [hv] at hn
    exact hn
  | long c =>
    rw [hv] at hn
    simp only [State.asInt] at hn ⊢
    split at hn
    · next hc =>
      have hroot : Ref.val (.long c) ∈ s.rootRefs := by
        have hstack : Ref.val (s.vm.stack i) ∈
            (List.range s.vm.stackTop).map fun i => Ref.val (s.vm.stack i) :=
          List.mem_map.mpr ⟨i, List.mem_range.mpr hi, rfl⟩
        rw [hv] at hstack
        simp only [State.rootRefs, List.mem_append]
        tauto
      have hlive : (s.gcCollect minor).heap.longs.Live c :=
        Heap.live_gcCollect_of_reached (n := .long c) s.covers_roots minor ⟨_, .root hroot, rfl⟩ hc
      have hdata : (s.gcCollect minor).heap.longs.data = s.heap.longs.data :=
        (Pool.sweep_data _).trans (s.heap.marksOnly_markPhase s.roots minor).longs.data
      rw [if_pos hlive, hdata]
      exact hn
    · cases hn
  | null | boolean _ | real _ | string _ | function _ | array _ | dict _ =>
    rw [hv] at hn
    cases hn

/-- So a collection before an iteration does not disturb the loop. -/
theorem AtHead.gcCollect {top endAddr base : Nat} {s : State} {cur stop step : Int}
    (h : AtHead top endAddr base s cur stop step) (minor : Bool) :
    AtHead top endAddr base (s.gcCollect minor) cur stop step := by
  have htop := h.stackTop
  refine ⟨⟨h.opcode, h.operand, h.room, ?_, ?_, ?_, ?_⟩, h.ip, h.stackTop⟩
  · exact asInt_gcCollect (by omega) h.cur minor
  · exact asInt_gcCollect (by omega) h.stop minor
  · exact asInt_gcCollect (by omega) h.step minor
  · exact ((s.heap.marksOnly_markPhase s.roots minor).longs.wf h.longs).sweep

section Step
variable (cfg : Config) {top endAddr base : Nat} {s : State} {cur stop step : Int}

/-- The iteration instruction, up to its test. -/
theorem AtHead.fetch (h : AtHead top endAddr base s cur stop step) (hstep : 0 < step) :
    instruction.run (exec cfg) s =
      if cur = stop then
        .done () { s with vm := { s.vm with ip := endAddr, stackTop := base } }
      else
        let r := s.heap.aerInt (wrap64 (cur + if cur < stop then step else -step))
        .done () { s with
          heap := r.2
          vm := { s.vm with
            ip := top + 2
            stackTop := base + 4
            stack := Function.update (Function.update s.vm.stack (base + 3) (s.vm.stack base)) base r.1 } } := by
  have hvm (w : Vm) (v : AerVal) : State.asInt { s with vm := w } v = s.asInt v :=
    asInt_congr rfl v
  have hpos : ¬ step ≤ 0 := by omega
  have htest : (if cur < stop then stop ≤ cur else cur ≤ stop) ↔ cur = stop := by
    split <;> omega
  have hcode := h.opcode
  rw [← h.ip] at hcode
  rw [run_fetched hcode]
  change lblIterRange.run (exec cfg) _ = _
  simp [lblIterRange, run_bind, perform, Outcome.andThen, exec, h.ip, h.operand, h.stackTop, hvm,
    h.cur, h.stop, h.step, orFault, hpos, htest,
    type_of_asInt h.cur, type_of_asInt h.stop, type_of_asInt h.step]
  have hroom := h.room
  by_cases hc : cur = stop
  · simp [hc, leaveLoop, run_bind, perform, Outcome.andThen, exec]
  · simp [hc, run_bind, perform, Outcome.andThen, exec, push, State.push, hroom, State.gain,
      Vm.setStack]

/-- The cursor after an iteration. -/
def nextCursor (cur stop step : Int) : Int := wrap64 (toward cur stop step)

theorem AtHead.leave (h : AtHead top endAddr base s cur stop step) (hstep : 0 < step)
    (hc : cur = stop) :
    ∃ t, instruction.run (exec cfg) s = .done () t ∧ t.vm.stackTop = base ∧ t.vm.ip = endAddr :=
  ⟨_, by rw [h.fetch cfg hstep, if_pos hc], rfl, rfl⟩

theorem AtHead.next (h : AtHead top endAddr base s cur stop step) (hstep : 0 < step)
    (hc : cur ≠ stop) :
    ∃ u, instruction.run (exec cfg) s = .done () u ∧
      InBody top endAddr base u cur (nextCursor cur stop step) stop step := by
  have hfetch := h.fetch cfg hstep
  rw [if_neg hc] at hfetch
  obtain ⟨hnew, hwf, hold⟩ := asInt_aerInt h.longs (n := nextCursor cur stop step)
  have hint {t : State} (ht : t.heap = (s.heap.aerInt (nextCursor cur stop step)).2) {v : AerVal}
      {m : Int} (hv : s.asInt v = some m) : t.asInt v = some m :=
    (asInt_congr (s := { s with heap := (s.heap.aerInt (nextCursor cur stop step)).2 }) ht v).trans
      (hold v m hv)
  have h1 : base + 1 ≠ base + 3 ∧ base + 1 ≠ base := by omega
  have h2 : base + 2 ≠ base + 3 ∧ base + 2 ≠ base := by omega
  have h3 : base + 3 ≠ base := by omega
  refine ⟨_, hfetch, ⟨⟨h.opcode, h.operand, h.room, ?_, ?_, ?_, hwf⟩, rfl, rfl, ?_⟩⟩
  · simp only [Function.update_self]
    exact (asInt_congr (s := { s with heap := _ }) rfl _).trans hnew
  · simp only [Function.update_of_ne h1.1, Function.update_of_ne h1.2]
    exact hint rfl h.stop
  · simp only [Function.update_of_ne h2.1, Function.update_of_ne h2.2]
    exact hint rfl h.step
  · simp only [Function.update_of_ne h3, Function.update_self]
    exact hint rfl h.cur

theorem nextCursor_eq (h : IsLong (toward cur stop step)) :
    nextCursor cur stop step = toward cur stop step :=
  wrap64_of_isLong h

theorem isLong_toward (hcur : IsLong cur) (hstop : IsLong stop)
    (hle : step ≤ (stop - cur).natAbs) (hstep : 0 < step) : IsLong (toward cur stop step) := by
  unfold IsLong at hcur hstop ⊢
  unfold toward
  split <;> omega

/-- A step over the end does not come back to it by overflow either. -/
theorem nextCursor_ne (hlong : IsLong step) (hc : cur ≠ stop)
    (hlt : (stop - cur).natAbs < step) : nextCursor cur stop step ≠ stop := by
  unfold IsLong at hlong
  unfold nextCursor toward wrap64
  rcases lt_or_gt_of_ne hc with h | h
  · rw [if_pos h]
    omega
  · rw [if_neg (by omega)]
    omega

end Step

/-- The runs of a loop: it leaves with its slots popped, or binds a value and comes
round again after its body. -/
inductive RangeRun (cfg : Config) (body : State → State) (base : Nat) :
    State → List Int → State → Prop
  | leave {s t : State} : instruction.run (exec cfg) s = .done () t → t.vm.stackTop = base →
      RangeRun cfg body base s [] t
  | next {s u t : State} {v : Int} {vs : List Int} : instruction.run (exec cfg) s = .done () u →
      u.vm.stackTop = base + 4 → u.asInt (u.vm.stack (base + 3)) = some v →
      RangeRun cfg body base (body u) vs t → RangeRun cfg body base s (v :: vs) t

section Loop
variable {cfg : Config} {body : State → State} {top endAddr base : Nat} {stop step : Int}

/-- A loop body that leaves the iterator slots as they are and comes back to the head. -/
def KeepsSlots (body : State → State) (top endAddr base : Nat) : Prop :=
  ∀ u v cur stop step, InBody top endAddr base u v cur stop step →
    AtHead top endAddr base (body u) cur stop step

theorem RangeRun.of_next {s : State} {cur : Int} {vs : List Int} {t : State}
    (h : AtHead top endAddr base s cur stop step) (hstep : 0 < step) (hc : cur ≠ stop)
    (hr : RangeRun cfg body base s vs t) :
    ∃ u ws, InBody top endAddr base u cur (nextCursor cur stop step) stop step ∧
      vs = cur :: ws ∧ RangeRun cfg body base (body u) ws t := by
  obtain ⟨u, hu, hin⟩ := h.next cfg hstep hc
  cases hr with
  | leave hrun htop =>
    rw [hu] at hrun
    cases hrun
    exact absurd (htop.symm.trans hin.stackTop) (by omega)
  | next hrun _ hv hrest =>
    rw [hu] at hrun
    cases hrun
    rw [hin.bound] at hv
    cases hv
    exact ⟨u, _, hin, rfl, hrest⟩

/-- At a cursor that is the end, the loop can only leave. -/
theorem RangeRun.of_leave {s : State} {cur : Int} {vs : List Int} {t : State}
    (h : AtHead top endAddr base s cur stop step) (hstep : 0 < step) (hc : cur = stop)
    (hr : RangeRun cfg body base s vs t) :
    vs = [] ∧ t.vm.stackTop = base ∧ t.vm.ip = endAddr := by
  obtain ⟨u, hu, htop, hip⟩ := h.leave cfg hstep hc
  cases hr with
  | leave hrun _ =>
    rw [hu] at hrun
    cases hrun
    exact ⟨rfl, htop, hip⟩
  | next hrun htop' =>
    rw [hu] at hrun
    cases hrun
    omega

/-- A loop whose step divides the distance binds what it is to bind, and leaves. -/
theorem RangeRun.complete (hbody : KeepsSlots body top endAddr base) (hstep : 0 < step)
    (hstop : IsLong stop) {s : State} {cur : Int} (h : AtHead top endAddr base s cur stop step)
    (hcur : IsLong cur) (hdvd : step ∣ stop - cur) :
    ∃ t, RangeRun cfg body base s (rangeValues cur stop step) t ∧
      t.vm.stackTop = base ∧ t.vm.ip = endAddr := by
  induction hn : (stop - cur).natAbs using Nat.strong_induction_on generalizing s cur with
  | _ n ih =>
    by_cases hc : cur = stop
    · obtain ⟨t, ht, htop, hip⟩ := h.leave cfg hstep hc
      rw [hc, rangeValues_self]
      exact ⟨t, .leave ht htop, htop, hip⟩
    · have hle : step ≤ (stop - cur).natAbs :=
        Int.le_of_dvd (by omega) (Int.dvd_natAbs.mpr hdvd)
      obtain ⟨u, hu, hin⟩ := h.next cfg hstep hc
      have hlong := isLong_toward hcur hstop hle hstep
      have hhead := hbody u _ _ _ _ hin
      rw [nextCursor_eq hlong] at hhead
      obtain ⟨t, ht, htop, hip⟩ :=
        ih _ (hn ▸ toward_dist hstep hc hle) hhead hlong (dvd_toward.mpr hdvd) rfl
      rw [rangeValues_cons hstep hc hle]
      exact ⟨t, .next hu hin.stackTop hin.bound ht, htop, hip⟩

/-- A loop that binds what it is to bind, and no more, has a step that divides the
distance: otherwise it turns round behind the end. -/
theorem RangeRun.dvd (hbody : KeepsSlots body top endAddr base) (hstep : 0 < step)
    (hstop : IsLong stop) (hlong : IsLong step) {s t : State} {cur : Int}
    (h : AtHead top endAddr base s cur stop step) (hcur : IsLong cur)
    (hr : RangeRun cfg body base s (rangeValues cur stop step) t) : step ∣ stop - cur := by
  induction hn : (stop - cur).natAbs using Nat.strong_induction_on generalizing s cur with
  | _ n ih =>
    by_cases hc : cur = stop
    · rw [hc, Int.sub_self]
      exact Int.dvd_zero step
    · obtain ⟨u, ws, hin, hws, hrest⟩ := hr.of_next h hstep hc
      have hhead := hbody u _ _ _ _ hin
      by_cases hle : step ≤ (stop - cur).natAbs
      · have hlong' := isLong_toward hcur hstop hle hstep
        rw [nextCursor_eq hlong'] at hhead
        rw [rangeValues_cons hstep hc hle] at hws
        obtain rfl := (List.cons.inj hws).2
        exact dvd_toward.mp (ih _ (hn ▸ toward_dist hstep hc hle) hhead hlong' hrest rfl)
      · rw [rangeValues_last hstep hc (by omega)] at hws
        obtain rfl := (List.cons.inj hws).2
        obtain ⟨_, _, _, hnil, _⟩ :=
          hrest.of_next hhead hstep (nextCursor_ne hlong hc (by omega))
        cases hnil

/-- Away from the 64-bit limits a loop whose step does not divide the distance never ends:
its cursor goes back and forth over the end. -/
theorem RangeRun.dvd_of_ends (hbody : KeepsSlots body top endAddr base) (hstep : 0 < step)
    (hlow : IsLong (stop - step)) (hhigh : IsLong (stop + step)) {s t : State} {vs : List Int}
    (hr : RangeRun cfg body base s vs t) {cur : Int} (h : AtHead top endAddr base s cur stop step)
    (hcur : IsLong cur) : step ∣ stop - cur := by
  induction hr generalizing cur with
  | leave hrun htop =>
    by_cases hc : cur = stop
    · rw [hc, Int.sub_self]
      exact Int.dvd_zero step
    · obtain ⟨_, _, _, hnil, _⟩ := (.leave hrun htop : RangeRun cfg body base _ [] _).of_next h hstep hc
      cases hnil
  | @next s u t v vs hrun htop hv hrest ih =>
    by_cases hc : cur = stop
    · rw [hc, Int.sub_self]
      exact Int.dvd_zero step
    · obtain ⟨u', hu, hin⟩ := h.next cfg hstep hc
      rw [hu] at hrun
      cases hrun
      have hlong : IsLong (toward cur stop step) := by
        unfold IsLong at hcur hlow hhigh ⊢
        unfold toward
        split <;> omega
      have hhead := hbody u _ _ _ _ hin
      rw [nextCursor_eq hlong] at hhead
      exact dvd_toward.mp (ih hhead hlong)

/-- A range loop binds exactly the values from its start towards its end and then leaves
with its three slots popped if and only if its step divides the distance. -/
theorem RangeRun.exact_iff (hbody : KeepsSlots body top endAddr base) {s : State} {start : Int}
    (h : AtHead top endAddr base s start stop step) (hstart : IsLong start) (hstop : IsLong stop)
    (hlong : IsLong step) (hstep : 0 < step) :
    (∃ t, RangeRun cfg body base s (rangeValues start stop step) t ∧
        t.vm.stackTop = base ∧ t.vm.ip = endAddr) ↔ step ∣ stop - start :=
  ⟨fun ⟨_, hr, _⟩ => hr.dvd hbody hstep hstop hlong h hstart,
    RangeRun.complete hbody hstep hstop h hstart⟩

end Loop

section Sample

/-- The code of a range loop whose body drops the value it binds. -/
def sampleCode : List Int :=
  [Opcode.iterRange.word, 5, Opcode.pop.word, Opcode.jump.word, 0, Opcode.halt.word]

/-- The loop `for i in 0..10..step:` before its first iteration. -/
def sampleLoop (step : Int) (h : IsInt47 step) : State :=
  let stack : Nat → AerVal
    | 0 => .integer ⟨0, isInt47_zero⟩
    | 1 => .integer ⟨10, by decide⟩
    | _ => .integer ⟨step, h⟩
  { State.init with
    chunk := { Chunk.init with code := sampleCode }
    vm := { Vm.init with stack, stackTop := 3 } }

/-- What the body of the sample does. -/
def sampleBody (u : State) : State :=
  { u with vm := { u.vm with ip := 0, stackTop := u.vm.stackTop - 1 } }

theorem keepsSlots_sampleBody : KeepsSlots sampleBody 0 5 0 := by
  intro u v cur stop step h
  have hint (w : AerVal) : (sampleBody u).asInt w = u.asInt w := asInt_congr rfl w
  refine ⟨⟨h.opcode, h.operand, h.room, ?_, ?_, ?_, h.longs⟩, rfl, ?_⟩
  · exact (hint _).trans h.cur
  · exact (hint _).trans h.stop
  · exact (hint _).trans h.step
  · change u.vm.stackTop - 1 = 0 + 3
    rw [h.stackTop]

theorem atHead_sampleLoop (step : Int) (h : IsInt47 step) :
    AtHead 0 5 0 (sampleLoop step h) 0 10 step :=
  ⟨⟨rfl, rfl, by decide, rfl, rfl, rfl, Pool.wf_init (by decide)⟩, rfl, rfl⟩

/-- `for i in 0..10..2:` binds 0, 2, 4, 6 and 8. -/
theorem RangeRun.exact_two : (∃ t, RangeRun {} sampleBody 0 (sampleLoop 2 (by decide))
    (rangeValues 0 10 2) t ∧ t.vm.stackTop = 0 ∧ t.vm.ip = 5) ↔ (2 : Int) ∣ 10 - 0 :=
  RangeRun.exact_iff keepsSlots_sampleBody (atHead_sampleLoop 2 (by decide)) (by decide)
    (by decide) (by decide) (by decide)

/-- `for i in 0..10..3:` never ends. -/
theorem RangeRun.endless_three :
    ¬ ∃ vs t, RangeRun {} sampleBody 0 (sampleLoop 3 (by decide)) vs t := by
  rintro ⟨vs, t, hr⟩
  have hdvd := hr.dvd_of_ends keepsSlots_sampleBody (by decide) (by decide) (by decide)
    (atHead_sampleLoop 3 (by decide)) (by decide)
  exact absurd hdvd (by decide)

end Sample

end Aer.Machine
