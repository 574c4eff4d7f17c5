import Aer.Machine.Step
import Mathlib.Data.List.Basic
import Mathlib.Data.List.Find

set_option linter.all false

/-! What the machine keeps above its counters is never looked at: two machines that
differ in it only run alike. -/
namespace Aer.Machine

open Aer.Data Aer.Memory Aer.Lib.Interaction

/-- Scopes that agree on the slots in use. -/
structure AerScope.Same (a b : AerScope) : Prop where
  slots : ∀ j < a.count, b.slots j = a.slots j
  count : b.count = a.count
  overflow : b.overflow = a.overflow
  map : b.map = a.map
  overflowHasCaptures : b.overflowHasCaptures = a.overflowHasCaptures

/-- Frames that agree, but for the return value of a frame that has none yet. -/
structure CallFrame.Same (f g : CallFrame) : Prop where
  returnIp : g.returnIp = f.returnIp
  returnScopeDepth : g.returnScopeDepth = f.returnScopeDepth
  function : g.function = f.function
  defers : g.defers = f.defers
  defersDraining : g.defersDraining = f.defersDraining
  pendingReturnValue : f.defersDraining = true → g.pendingReturnValue = f.pendingReturnValue

/-- Machines that agree below their counters. The global scope is always in use. -/
structure Vm.Same (v w : Vm) : Prop where
  ip : w.ip = v.ip
  stackTop : w.stackTop = v.stackTop
  stack : ∀ i < v.stackTop, w.stack i = v.stack i
  scopeDepth : w.scopeDepth = v.scopeDepth
  scopes : ∀ i, i < v.scopeDepth ∨ i = 0 → (v.scopes i).Same (w.scopes i)
  callDepth : w.callDepth = v.callDepth
  callStack : ∀ i < v.callDepth, (v.callStack i).Same (w.callStack i)
  pendingUpvalueCount : w.pendingUpvalueCount = v.pendingUpvalueCount
  pendingUpvalues : ∀ i < v.pendingUpvalueCount, w.pendingUpvalues i = v.pendingUpvalues i

/-- States that differ in dead data of the machine only. -/
def State.Same (s t : State) : Prop :=
  ∃ w, s.vm.Same w ∧ t = { s with vm := w }

namespace AerScope.Same

variable {a b : AerScope}

theorem refl (a : AerScope) : a.Same a := ⟨fun _ _ => rfl, rfl, rfl, rfl, rfl⟩

theorem findSlot (h : a.Same b) (name : Nat) : b.findSlot name = a.findSlot name := by
  unfold AerScope.findSlot
  rw [h.count]
  refine List.find?_congr fun j hj => ?_
  rw [h.slots j (List.mem_range.mp hj)]

theorem slotAddr (h : a.Same b) (i : Nat) {j : Nat} (hj : j < a.count) :
    b.slotAddr i j = a.slotAddr i j := by
  unfold AerScope.slotAddr
  rw [h.slots j hj]

theorem setSlot (h : a.Same b) (j : Nat) {slot slot' : ScopeSlot}
    (hslot : j < a.count → slot' = slot) : (a.setSlot j slot).Same (b.setSlot j slot') where
  slots k hk := by
    by_cases hkj : k = j
    · subst hkj
      simpa [AerScope.setSlot] using hslot hk
    · simp [AerScope.setSlot, hkj, h.slots k hk]
  count := h.count
  overflow := h.overflow
  map := h.map
  overflowHasCaptures := h.overflowHasCaptures

/-- The slots in use may come to be one more, if that is the slot written. -/
theorem extend (h : a.Same b) {j n m : Nat} (hn : ∀ k < n, k < a.count ∨ k = j) (hm : m = n)
    (slot : ScopeSlot) :
    AerScope.Same { a.setSlot j slot with count := n } { b.setSlot j slot with count := m } where
  slots k hk := by
    by_cases hkj : k = j
    · subst hkj
      simp [AerScope.setSlot]
    · simp [AerScope.setSlot, hkj, h.slots k ((hn k hk).resolve_right hkj)]
  count := hm
  overflow := h.overflow
  map := h.map
  overflowHasCaptures := h.overflowHasCaptures

end AerScope.Same

theorem findSlot_lt {a : AerScope} {name j : Nat} (h : a.findSlot name = some j) : j < a.count :=
  List.mem_range.mp (List.mem_of_find?_eq_some h)

namespace Vm.Same

variable {v w : Vm}

theorem refl (v : Vm) : v.Same v where
  ip := rfl
  stackTop := rfl
  stack _ _ := rfl
  scopeDepth := rfl
  scopes _ _ := .refl _
  callDepth := rfl
  callStack _ _ := ⟨rfl, rfl, rfl, rfl, rfl, fun _ => rfl⟩
  pendingUpvalueCount := rfl
  pendingUpvalues _ _ := rfl

theorem setIp (h : v.Same w) (n : Nat) : Vm.Same { v with ip := n } { w with ip := n } :=
  { h with ip := rfl }

/-- The stacks agree below a new top. -/
theorem setTop (h : v.Same w) {stack stack' : Nat → AerVal} {n : Nat}
    (hs : ∀ i < n, stack' i = stack i) :
    Vm.Same { v with stack, stackTop := n } { w with stack := stack', stackTop := n } :=
  { h with stackTop := rfl, stack := hs }

theorem setScope (h : v.Same w) (i : Nat) {a b : AerScope}
    (hab : i < v.scopeDepth ∨ i = 0 → a.Same b) :
    (v.setScope i a).Same (w.setScope i b) where
  ip := h.ip
  stackTop := h.stackTop
  stack := h.stack
  scopeDepth := h.scopeDepth
  scopes j hj := by
    by_cases hji : j = i
    · subst hji
      simpa [Vm.setScope] using hab hj
    · simpa [Vm.setScope, hji] using h.scopes j hj
  callDepth := h.callDepth
  callStack := h.callStack
  pendingUpvalueCount := h.pendingUpvalueCount
  pendingUpvalues := h.pendingUpvalues

theorem setFrame (h : v.Same w) (i : Nat) {f g : CallFrame} (hfg : f.Same g) :
    (v.setFrame i f).Same (w.setFrame i g) where
  ip := h.ip
  stackTop := h.stackTop
  stack := h.stack
  scopeDepth := h.scopeDepth
  scopes := h.scopes
  callDepth := h.callDepth
  callStack j hj := by
    by_cases hji : j = i
    · subst hji
      simpa [Vm.setFrame] using hfg
    · simpa [Vm.setFrame, hji] using h.callStack j hj
  pendingUpvalueCount := h.pendingUpvalueCount
  pendingUpvalues := h.pendingUpvalues

theorem scopeFloor (h : v.Same w) : w.scopeFloor = v.scopeFloor := by
  unfold Vm.scopeFloor
  rw [h.callDepth]
  split
  · rfl
  · exact (h.callStack _ (by omega)).returnScopeDepth

theorem scopeChain (h : v.Same w) : w.scopeChain = v.scopeChain := by
  simp only [Vm.scopeChain, h.scopeFloor, h.scopeDepth]

end Vm.Same

theorem mem_scopeChain {v : Vm} {i : Nat} (hi : i ∈ v.scopeChain) : i < v.scopeDepth ∨ i = 0 := by
  simp only [Vm.scopeChain, List.mem_append, List.mem_reverse, List.mem_range'] at hi
  rcases hi with ⟨k, hk, rfl⟩ | hi
  · exact .inl (by omega)
  · split at hi <;> simp_all

namespace State.Same

variable {s t : State}

theorem refl (s : State) : s.Same s := ⟨s.vm, .refl _, rfl⟩

theorem scopeFloor (h : s.Same t) : t.vm.scopeFloor = s.vm.scopeFloor := by
  obtain ⟨w, hvm, rfl⟩ := h
  exact hvm.scopeFloor

theorem placeIn (h : s.Same t) (name : Nat) {i : Nat} (hi : i < s.vm.scopeDepth ∨ i = 0) :
    t.placeIn name i = s.placeIn name i := by
  obtain ⟨w, hvm, rfl⟩ := h
  have hscope := hvm.scopes i hi
  simp only [State.placeIn, State.nameText, hscope.findSlot, hscope.overflow, hscope.map]

theorem locate (h : s.Same t) (name : Nat) : t.locate name = s.locate name := by
  have hchain : t.vm.scopeChain = s.vm.scopeChain := by
    obtain ⟨w, hvm, rfl⟩ := h
    exact hvm.scopeChain
  unfold State.locate
  rw [hchain, ← List.head?_filterMap, ← List.head?_filterMap]
  exact congrArg _ (List.filterMap_congr fun i hi => h.placeIn name (mem_scopeChain hi))

end State.Same

/-- A place of a variable in a scope in use. -/
def State.Bound (s : State) : Place → Prop
  | .slot i j => (i < s.vm.scopeDepth ∨ i = 0) ∧ j < (s.vm.scopes i).count
  | .entry i _ => i < s.vm.scopeDepth ∨ i = 0

theorem bound_of_placeIn {s : State} {name i : Nat} (hi : i < s.vm.scopeDepth ∨ i = 0) {p : Place}
    (hp : s.placeIn name i = some p) : s.Bound p := by
  simp only [State.placeIn] at hp
  split at hp
  · next j hj =>
    cases hp
    exact ⟨hi, findSlot_lt hj⟩
  · split at hp
    · obtain ⟨e, -, rfl⟩ := Option.map_eq_some_iff.mp hp
      exact hi
    · cases hp

theorem bound_of_locate {s : State} {name : Nat} {p : Place} (hp : s.locate name = some p) :
    s.Bound p := by
  obtain ⟨i, hi, hp⟩ := List.exists_of_findSome?_eq_some hp
  exact bound_of_placeIn (mem_scopeChain hi) hp

namespace State.Same

variable {s t : State}

theorem placeAddr (h : s.Same t) {p : Place} (hp : s.Bound p) : t.placeAddr p = s.placeAddr p := by
  obtain ⟨w, hvm, rfl⟩ := h
  cases p with
  | slot i j => exact (hvm.scopes i hp.1).slotAddr i hp.2
  | entry i e => rfl

theorem vmScopeGet (h : s.Same t) (name : Nat) : t.vmScopeGet name = s.vmScopeGet name := by
  unfold State.vmScopeGet
  rw [h.locate]
  cases hp : s.locate name with
  | none => rfl
  | some p => exact congrArg some (h.placeAddr (bound_of_locate hp))

theorem vmGlobalSlotAddress (h : s.Same t) (name : Nat) :
    t.vmGlobalSlotAddress name = s.vmGlobalSlotAddress name := by
  obtain ⟨w, hvm, rfl⟩ := h
  have hscope := hvm.scopes 0 (.inr rfl)
  simp only [State.vmGlobalSlotAddress, hscope.count]
  refine congrArg _ (List.find?_congr fun j hj => ?_)
  rw [hscope.slots j (List.mem_range.mp hj)]

theorem readAddr (h : s.Same t) (a : Addr) : t.readAddr a = s.readAddr a := by
  obtain ⟨w, hvm, rfl⟩ := h
  cases a with
  | box b => rfl
  | slot i j =>
    simp only [State.readAddr, hvm.scopeDepth]
    by_cases hi : i < s.vm.scopeDepth
    · have hscope := hvm.scopes i (.inl hi)
      simp only [hscope.count, hi, true_and]
      split
      · next hj => rw [hscope.slots j hj]
      · rfl
    · simp only [hi, false_and, ↓reduceIte]

theorem writeAddr (h : s.Same t) (a : Addr) (v : AerVal) :
    (s.writeAddr a v).Same (t.writeAddr a v) := by
  obtain ⟨w, hvm, rfl⟩ := h
  cases a with
  | box b => exact ⟨w, hvm, rfl⟩
  | slot i j =>
    refine ⟨_, hvm.setScope i fun hi => (hvm.scopes i hi).setSlot j fun hj => ?_, rfl⟩
    rw [(hvm.scopes i hi).slots j hj]

theorem localSlot (h : s.Same t) (slot : Nat) : t.localSlot slot = s.localSlot slot := by
  obtain ⟨w, hvm, rfl⟩ := h
  simp only [State.localSlot, hvm.scopeFloor, hvm.scopeDepth]
  by_cases hi : s.vm.scopeFloor < s.vm.scopeDepth
  · have hscope := hvm.scopes _ (.inl hi)
    simp only [hscope.count, hi, true_and]
    split
    · next hj => rw [hscope.slotAddr _ hj]
    · rfl
  · simp only [hi, false_and, ↓reduceIte]

theorem vmScopeDefine (h : s.Same t) (name : Nat) (v : AerVal) :
    (s.vmScopeDefine name v).Same (t.vmScopeDefine name v) := by
  obtain ⟨w, hvm, rfl⟩ := h
  have hi : s.vm.scopeDepth - 1 < s.vm.scopeDepth ∨ s.vm.scopeDepth - 1 = 0 := by omega
  have hscope := hvm.scopes _ hi
  simp only [State.vmScopeDefine, hvm.scopeDepth, hscope.findSlot, hscope.count, hscope.map,
    State.nameText]
  split
  · next j hj =>
    rw [hscope.slotAddr _ (findSlot_lt hj)]
    exact writeAddr ⟨w, hvm, rfl⟩ _ v
  · split
    · have hext := hscope.extend (fun _ hk => Nat.lt_succ_iff_lt_or_eq.mp hk)
        (congrArg (· + 1) hscope.count) { name, val := v, box := none }
      exact ⟨_, hvm.setScope _ fun _ => hext, rfl⟩
    · have hover (map : HashTable Nat) := hvm.setScope (s.vm.scopeDepth - 1) fun _ =>
        (⟨hscope.slots, rfl, rfl, rfl, hscope.overflowHasCaptures⟩ :
          AerScope.Same { s.vm.scopes _ with overflow := true, map } ⟨_, _, true, map, _⟩)
      split
      · exact writeAddr ⟨_, hover _, rfl⟩ _ v
      · exact ⟨_, hover _, rfl⟩

theorem vmBoxSlot (h : s.Same t) (name : Nat) :
    (s.vmBoxSlot name = none ∧ t.vmBoxSlot name = none) ∨
      ∃ b s' t', s.vmBoxSlot name = some (b, s') ∧ t.vmBoxSlot name = some (b, t') ∧ s'.Same t' := by
  have hlocate := h.locate name
  obtain ⟨w, hvm, rfl⟩ := h
  simp only [State.vmBoxSlot, hlocate]
  cases hp : s.locate name with
  | none => exact .inl ⟨rfl, rfl⟩
  | some p =>
    have hbound := bound_of_locate hp
    cases p with
    | entry i e =>
      refine .inr ⟨_, _, _, rfl, rfl, _, hvm.setScope i fun hi => ?_, rfl⟩
      exact { hvm.scopes i hi with overflowHasCaptures := rfl }
    | slot i j =>
      have hscope := hvm.scopes i hbound.1
      have hslot := hscope.slots j hbound.2
      simp only [hslot]
      split
      · exact .inr ⟨_, _, _, rfl, rfl, w, hvm, rfl⟩
      · exact .inr ⟨_, _, _, rfl, rfl, _, hvm.setScope i fun _ => hscope.setSlot j fun _ => rfl, rfl⟩

theorem freeScope (h : s.Same t) {i : Nat} (hscope : (s.vm.scopes i).Same (t.vm.scopes i)) :
    (s.freeScope i).Same (t.freeScope i) := by
  obtain ⟨w, hvm, rfl⟩ := h
  change (s.vm.scopes i).Same (w.scopes i) at hscope
  unfold State.freeScope
  simp only [hscope.overflow, hscope.overflowHasCaptures, hscope.map]
  by_cases hfree : ((s.vm.scopes i).overflow && !(s.vm.scopes i).overflowHasCaptures) = true
  · simp only [hfree, ↓reduceIte]
    refine ⟨_, hvm.setScope i fun _ => ?_, rfl⟩
    exact ⟨hscope.slots, hscope.count, rfl, rfl, rfl⟩
  · simp only [hfree, Bool.false_eq_true, ↓reduceIte]
    exact ⟨w, hvm, rfl⟩

theorem popOneScope (h : s.Same t) : s.popOneScope.Same t.popOneScope := by
  obtain ⟨w, hvm, rfl⟩ := h
  have hscope := hvm.scopes (s.vm.scopeDepth - 1) (by omega)
  have hpop : Vm.Same { s.vm with scopeDepth := s.vm.scopeDepth - 1 }
      { w with scopeDepth := s.vm.scopeDepth - 1 } :=
    { hvm with
      scopeDepth := rfl
      scopes := fun i hi =>
        hvm.scopes i (hi.imp (fun hi => lt_of_lt_of_le hi (Nat.sub_le _ _)) id) }
  simp only [State.popOneScope, hvm.scopeDepth]
  exact freeScope ⟨_, hpop, rfl⟩ hscope

theorem popScopes (n : Nat) (h : s.Same t) : (State.popScopes n s).Same (State.popScopes n t) := by
  induction n generalizing s t with
  | zero => exact h
  | succ n ih => exact ih h.popOneScope

theorem unwindScopes (h : s.Same t) (base : Nat) : (s.unwindScopes base).Same (t.unwindScopes base) := by
  have hdepth : t.vm.scopeDepth = s.vm.scopeDepth := by
    obtain ⟨w, hvm, rfl⟩ := h
    exact hvm.scopeDepth
  unfold State.unwindScopes
  rw [hdepth]
  exact h.popScopes _

theorem addError (h : s.Same t) (msg : Bytes) : (s.addError msg).Same (t.addError msg) := by
  obtain ⟨w, hvm, rfl⟩ := h
  simp only [State.addError, hvm.ip]
  exact ⟨w, hvm, rfl⟩

theorem addErrors (h : s.Same t) (msgs : List Bytes) :
    (msgs.foldl State.addError s).Same (msgs.foldl State.addError t) := by
  induction msgs generalizing s t with
  | nil => exact h
  | cons msg msgs ih => exact ih (h.addError msg)

theorem slotRoot (h : s.Same t) (slot : ScopeSlot) : t.slotRoot slot = s.slotRoot slot := by
  obtain ⟨w, -, rfl⟩ := h
  rfl

theorem scopeRoots (h : s.Same t) {a b : AerScope} (hab : a.Same b) :
    t.scopeRoots b = s.scopeRoots a := by
  have hslots : (List.range a.count).filterMap (fun j => t.slotRoot (b.slots j)) =
      (List.range a.count).filterMap (fun j => s.slotRoot (a.slots j)) :=
    List.filterMap_congr fun j hj => by rw [h.slotRoot, hab.slots j (List.mem_range.mp hj)]
  unfold State.scopeRoots
  rw [hab.count, hab.overflow, hab.map, hslots]
  obtain ⟨w, -, rfl⟩ := h
  rfl

theorem frameRoots {f g : CallFrame} (h : f.Same g) : State.frameRoots g = State.frameRoots f := by
  unfold State.frameRoots
  rw [h.function, h.defers, h.defersDraining]
  split
  · next hd => rw [h.pendingReturnValue hd]
  · rfl

theorem roots (h : s.Same t) : t.roots = s.roots := by
  obtain ⟨w, hvm, rfl⟩ := id h
  have hstack : (List.range s.vm.stackTop).map (fun i => Root.value (w.stack i)) =
      (List.range s.vm.stackTop).map fun i => .value (s.vm.stack i) :=
    List.map_congr_left fun i hi => by rw [hvm.stack i (List.mem_range.mp hi)]
  have hpending : (List.range s.vm.pendingUpvalueCount).filterMap
        (fun i => (s.heap.readBox (w.pendingUpvalues i)).map Root.value) =
      (List.range s.vm.pendingUpvalueCount).filterMap
        fun i => (s.heap.readBox (s.vm.pendingUpvalues i)).map Root.value :=
    List.filterMap_congr fun i hi => by rw [hvm.pendingUpvalues i (List.mem_range.mp hi)]
  have hscopes : (List.range s.vm.scopeDepth).flatMap
        (fun i => (State.scopeRoots { s with vm := w } (w.scopes i)).map Root.value) =
      (List.range s.vm.scopeDepth).flatMap fun i => (s.scopeRoots (s.vm.scopes i)).map .value :=
    List.flatMap_congr fun i hi => by
      rw [h.scopeRoots (hvm.scopes i (.inl (List.mem_range.mp hi)))]
  have hframes : (List.range s.vm.callDepth).flatMap (fun i => State.frameRoots (w.callStack i)) =
      (List.range s.vm.callDepth).flatMap fun i => State.frameRoots (s.vm.callStack i) :=
    List.flatMap_congr fun i hi => frameRoots (hvm.callStack i (List.mem_range.mp hi))
  simp only [State.roots, State.vmRoots, hvm.stackTop, hvm.pendingUpvalueCount, hvm.scopeDepth,
    hvm.callDepth, hstack, hpending, hscopes, hframes]
  rfl

theorem gcCollect (h : s.Same t) (minor : Bool) : (s.gcCollect minor).Same (t.gcCollect minor) := by
  have hroots := h.roots
  obtain ⟨w, hvm, rfl⟩ := h
  exact ⟨w, hvm, by simp only [State.gcCollect, hroots]⟩

end State.Same

section Operations
variable {s t : State} {α : Type}

/-- The same answer or stop, in states that differ in dead data only. -/
abbrev SameResult (r q : Result α) : Prop := Outcome.Rel State.Same r q

theorem same_orFault (h : s.Same t) {o o' : Option α} (ho : o' = o) :
    SameResult (orFault o s) (orFault o' t) := by
  rw [ho]
  cases o with
  | none => exact .stop _ h
  | some a => exact .done a h

theorem same_store (h : s.Same t) (a : Addr) (v : AerVal) :
    SameResult (s.store a v) (t.store a v) := by
  unfold State.store State.isStored
  rw [h.readAddr]
  split
  · exact .done _ (h.writeAddr a v)
  · exact .stop _ h

theorem same_push (h : s.Same t) (v : AerVal) : SameResult (s.push v) (t.push v) := by
  obtain ⟨w, hvm, rfl⟩ := id h
  simp only [State.push, hvm.stackTop]
  split
  · refine .done _ ⟨_, hvm.setTop fun i hi => ?_, rfl⟩
    by_cases hit : i = s.vm.stackTop
    · subst hit
      simp [Vm.setStack]
    · simp [Vm.setStack, hit, hvm.stack i (by omega)]
  · exact .stop _ (h.addError _)

theorem same_pop (h : s.Same t) : SameResult s.pop t.pop := by
  obtain ⟨w, hvm, rfl⟩ := id h
  simp only [State.pop, hvm.stackTop]
  split
  · exact .done _ (h.addError _)
  · rw [hvm.stack _ (by omega)]
    exact .done _ ⟨_, hvm.setTop fun i hi => hvm.stack i (by omega), rfl⟩

theorem same_resolve (h : s.Same t) (caching : Bool) (name cache : Nat) :
    SameResult (s.resolve caching name cache) (t.resolve caching name cache) := by
  have hget := h.vmScopeGet name
  have hglobal := h.vmGlobalSlotAddress name
  obtain ⟨w, hvm, rfl⟩ := id h
  simp only [State.resolve, hget, hglobal]
  split
  · split
    · exact .done _ h
    · split
      · exact .done _ ⟨w, hvm, rfl⟩
      · exact .done _ h
  · exact .stop _ h

theorem same_scopeDefine (h : s.Same t) (cfg : Config) (name : Nat) (v : AerVal) :
    SameResult (exec cfg (.scopeDefine name v) s) (exec cfg (.scopeDefine name v) t) := by
  have hdepth : t.vm.scopeDepth = s.vm.scopeDepth := by
    obtain ⟨w, hvm, rfl⟩ := h
    exact hvm.scopeDepth
  have hi : s.vm.scopeDepth - 1 < s.vm.scopeDepth ∨ s.vm.scopeDepth - 1 = 0 := by omega
  have hstored : (t.placeIn name (s.vm.scopeDepth - 1)).all (fun p => t.isStored (t.placeAddr p)) =
      (s.placeIn name (s.vm.scopeDepth - 1)).all fun p => s.isStored (s.placeAddr p) := by
    rw [h.placeIn name hi]
    cases hp : s.placeIn name (s.vm.scopeDepth - 1) with
    | none => rfl
    | some p =>
      simp only [Option.all_some, State.isStored, h.placeAddr (bound_of_placeIn hi hp), h.readAddr]
  simp only [exec, hdepth, hstored]
  split
  · exact .done _ (h.vmScopeDefine name v)
  · exact .stop _ h

theorem same_defineLocal (h : s.Same t) (slot name : Nat) (v : AerVal) :
    SameResult (s.defineLocal slot name v) (t.defineLocal slot name v) := by
  obtain ⟨w, hvm, rfl⟩ := id h
  have hscope := hvm.scopes (s.vm.scopeDepth - 1) (by omega)
  simp only [State.defineLocal, hvm.scopeDepth, hscope.count]
  split
  · next hslot =>
    refine .done _ ⟨_, hvm.setScope _ fun _ => hscope.extend (fun k hk => ?_) ?_ _, rfl⟩
    · change k < max (s.vm.scopes _).count (slot + 1) at hk
      omega
    · exact congrArg (max · (slot + 1)) hscope.count
  · exact .stop _ h

theorem same_pushScope (h : s.Same t) : SameResult s.pushScope t.pushScope := by
  obtain ⟨w, hvm, rfl⟩ := id h
  simp only [State.pushScope, hvm.scopeDepth]
  split
  · refine .done _ ⟨_, ?_, rfl⟩
    refine { hvm with scopeDepth := rfl, scopes := fun i hi => ?_ }
    by_cases hid : i = s.vm.scopeDepth
    · subst hid
      simp only [Vm.setScope, Function.update_self]
      exact ⟨fun _ hj => absurd hj (Nat.not_lt_zero _), rfl, rfl, rfl, rfl⟩
    · have hold : i < s.vm.scopeDepth ∨ i = 0 := hi.imp (fun hi => by
        change i < s.vm.scopeDepth + 1 at hi
        omega) id
      simpa [Vm.setScope, hid] using hvm.scopes i hold
  · exact .stop _ (h.addError _)

theorem same_popScope (h : s.Same t) : SameResult s.popScope t.popScope := by
  have hdepth : t.vm.scopeDepth = s.vm.scopeDepth := by
    obtain ⟨w, hvm, rfl⟩ := h
    exact hvm.scopeDepth
  unfold State.popScope
  rw [hdepth]
  split
  · exact .stop _ (h.addError _)
  · exact .done _ h.popOneScope

theorem same_pushFrame (h : s.Same t) (function returnIp : Nat) :
    SameResult (s.pushFrame function returnIp) (t.pushFrame function returnIp) := by
  obtain ⟨w, hvm, rfl⟩ := id h
  simp only [State.pushFrame, hvm.callDepth, hvm.scopeDepth]
  split
  · refine .done _ ⟨_, ?_, rfl⟩
    refine { hvm with callDepth := rfl, callStack := fun i hi => ?_ }
    by_cases hid : i = s.vm.callDepth
    · subst hid
      simp only [Vm.setFrame, Function.update_self]
      exact ⟨rfl, rfl, rfl, rfl, rfl, fun hd => nomatch hd⟩
    · have hold : i < s.vm.callDepth := by
        change i < s.vm.callDepth + 1 at hi
        omega
      simpa [Vm.setFrame, hid] using hvm.callStack i hold
  · exact .stop _ h

/-- The frames of the running call agree. -/
theorem same_topFrame (h : s.Same t) :
    (s.topFrame = none ∧ t.topFrame = none) ∨
      ∃ f g, s.topFrame = some f ∧ t.topFrame = some g ∧ f.Same g := by
  obtain ⟨w, hvm, rfl⟩ := h
  simp only [State.topFrame, hvm.callDepth]
  split
  · exact .inl ⟨rfl, rfl⟩
  · exact .inr ⟨_, _, rfl, rfl, hvm.callStack _ (by omega)⟩

theorem same_frameField {β : Type} (h : s.Same t) {field : CallFrame → β}
    (hfield : ∀ f g : CallFrame, f.Same g → field g = field f) :
    SameResult (orFault (s.topFrame.map field) s) (orFault (t.topFrame.map field) t) := by
  refine same_orFault h ?_
  obtain ⟨hs, ht⟩ | ⟨f, g, hs, ht, hfg⟩ := same_topFrame h
  · rw [hs, ht]
  · rw [hs, ht, Option.map_some, Option.map_some, hfield f g hfg]

theorem same_updateFrame (h : s.Same t) {change : CallFrame → CallFrame}
    (hchange : ∀ f g : CallFrame, f.Same g → (change f).Same (change g)) :
    SameResult (s.updateFrame change) (t.updateFrame change) := by
  have htop := same_topFrame h
  obtain ⟨w, hvm, rfl⟩ := id h
  simp only [State.updateFrame, hvm.callDepth]
  obtain ⟨hs, ht⟩ | ⟨f, g, hs, ht, hfg⟩ := htop
  · rw [hs, ht]
    exact .stop _ h
  · rw [hs, ht]
    exact .done _ ⟨_, hvm.setFrame _ (hchange f g hfg), rfl⟩

theorem same_takeReturn (h : s.Same t) : SameResult s.takeReturn t.takeReturn := by
  have htop := same_topFrame h
  obtain ⟨w, hvm, rfl⟩ := id h
  simp only [State.takeReturn, hvm.callDepth]
  obtain ⟨hs, ht⟩ | ⟨f, g, hs, ht, hfg⟩ := htop
  · rw [hs, ht]
    exact .stop _ h
  · rw [hs, ht]
    simp only [hfg.defersDraining]
    split
    · next hd =>
      rw [hfg.pendingReturnValue hd]
      refine .done _ ⟨_, hvm.setFrame _ ?_, rfl⟩
      exact ⟨hfg.returnIp, hfg.returnScopeDepth, hfg.function, hfg.defers, rfl, fun hd => nomatch hd⟩
    · exact .stop _ h

theorem same_popFrame (h : s.Same t) : SameResult s.popFrame t.popFrame := by
  have htop := same_topFrame h
  obtain ⟨w, hvm, rfl⟩ := id h
  simp only [State.popFrame]
  obtain ⟨hs, ht⟩ | ⟨f, g, hs, ht, hfg⟩ := htop
  · rw [hs, ht]
    exact .stop _ h
  · rw [hs, ht]
    simp only [hfg.returnIp, hvm.callDepth]
    refine .done _ ⟨_, ?_, rfl⟩
    refine { hvm with callDepth := rfl, callStack := fun i hi => ?_ }
    exact hvm.callStack i (lt_of_lt_of_le hi (Nat.sub_le _ _))

theorem same_pendUpvalue (h : s.Same t) (b : BoxRef) :
    SameResult (s.pendUpvalue b) (t.pendUpvalue b) := by
  obtain ⟨w, hvm, rfl⟩ := id h
  simp only [State.pendUpvalue, hvm.pendingUpvalueCount]
  split
  · refine .done _ ⟨_, ?_, rfl⟩
    refine { hvm with pendingUpvalueCount := rfl, pendingUpvalues := fun i hi => ?_ }
    by_cases hid : i = s.vm.pendingUpvalueCount
    · subst hid
      simp
    · have hold : i < s.vm.pendingUpvalueCount := by
        change i < s.vm.pendingUpvalueCount + 1 at hi
        omega
      simpa [hid] using hvm.pendingUpvalues i hold
  · exact .stop _ h

theorem same_takeUpvalues (h : s.Same t) (n : Nat) :
    SameResult (s.takeUpvalues n) (t.takeUpvalues n) := by
  obtain ⟨w, hvm, rfl⟩ := id h
  simp only [State.takeUpvalues, hvm.pendingUpvalueCount]
  split
  · next hn =>
    have htaken : (List.range n).map w.pendingUpvalues = (List.range n).map s.vm.pendingUpvalues :=
      List.map_congr_left fun i hi =>
        hvm.pendingUpvalues i (lt_of_lt_of_le (List.mem_range.mp hi) hn)
    rw [htaken]
    refine .done _ ⟨_, ?_, rfl⟩
    refine { hvm with pendingUpvalueCount := rfl, pendingUpvalues := ?_ }
    exact fun i hi => absurd hi (Nat.not_lt_zero i)
  · exact .stop _ h

theorem same_upvalue (h : s.Same t) (slot : Nat) : t.upvalue slot = s.upvalue slot := by
  have htop := same_topFrame h
  obtain ⟨w, hvm, rfl⟩ := id h
  unfold State.upvalue
  obtain ⟨hs, ht⟩ | ⟨f, g, hs, ht, hfg⟩ := htop
  · rw [hs, ht]
    rfl
  · rw [hs, ht]
    simp only [Option.bind_eq_bind, Option.bind_some, hfg.function]
    rfl

theorem same_callNative (h : s.Same t) (cfg : Config) (module fn : Bytes) (argCount : Nat) :
    SameResult (s.callNative cfg.native module fn argCount)
      (t.callNative cfg.native module fn argCount) := by
  obtain ⟨w, hvm, rfl⟩ := id h
  simp only [State.callNative, hvm.stackTop]
  split
  · next hcount =>
    have hargs : State.topArgs { s with vm := w } argCount = s.topArgs argCount := by
      simp only [State.topArgs, hvm.stackTop]
      exact List.map_congr_left fun i hi => hvm.stack _ (by
        have := List.mem_range.mp hi
        omega)
    rw [hargs]
    split
    · exact .done _ h
    · next r _ =>
      refine .done _ (State.Same.addErrors ⟨_, ?_, rfl⟩ r.errors)
      refine hvm.setTop fun i hi => ?_
      by_cases hid : i = s.vm.stackTop - argCount
      · subst hid
        simp [Vm.setStack]
      · simp [Vm.setStack, hid, hvm.stack i (by omega)]
  · exact .stop _ h

theorem same_nameText (h : s.Same t) (name : Nat) : t.nameText name = s.nameText name := by
  obtain ⟨w, -, rfl⟩ := h
  rfl

theorem formatDepth_vm (s : State) (w : Vm) (depth : Nat) (inCollection : Bool) (v : AerVal) :
    State.formatDepth { s with vm := w } depth inCollection v =
      s.formatDepth depth inCollection v := by
  induction depth generalizing inCollection v with
  | zero => cases v <;> rfl
  | succ depth ih =>
    have hrec : State.formatDepth { s with vm := w } depth true = s.formatDepth depth true :=
      funext (ih true)
    cases v with
    | array c | dict c =>
      simp only [State.formatDepth, hrec]
      rfl
    | null | boolean _ | integer _ | long _ | real _ | string _ | function _ => rfl

/-- Every operation but the read of a dead slot does the same to both machines. -/
theorem same_exec (h : s.Same t) (cfg : Config) {o : Op} (ho : o ≠ .argAt 0) :
    SameResult (exec cfg o s) (exec cfg o t) := by
  cases o with
  | pop => exact same_pop h
  | push v => exact same_push h v
  | resolve name cache => exact same_resolve h _ name cache
  | scopeDefine name v => exact same_scopeDefine h cfg name v
  | defineLocal slot name v => exact same_defineLocal h slot name v
  | pushScope => exact same_pushScope h
  | popScope => exact same_popScope h
  | pushFrame function ip => exact same_pushFrame h function ip
  | stashReturn v =>
    exact same_updateFrame h fun f g hfg => { hfg with pendingReturnValue := fun _ => rfl, defersDraining := rfl }
  | setDefers ds => exact same_updateFrame h fun f g hfg => { hfg with defers := rfl }
  | setFrameFunction cell => exact same_updateFrame h fun f g hfg => { hfg with function := rfl }
  | takeReturn => exact same_takeReturn h
  | popFrame => exact same_popFrame h
  | pendUpvalue b => exact same_pendUpvalue h b
  | takeUpvalues n => exact same_takeUpvalues h n
  | callNative module fn argCount => exact same_callNative h cfg module fn argCount
  | frameDefers => exact same_frameField h fun f g hfg => hfg.defers
  | frameDraining => exact same_frameField h fun f g hfg => hfg.defersDraining
  | upvalue slot => exact same_orFault h (same_upvalue h slot)
  | load a => exact same_orFault h (h.readAddr a)
  | store a v => exact same_store h a v
  | scopeGet name =>
    simp only [exec, h.vmScopeGet]
    exact .done _ h
  | readLocal slot =>
    have hread : t.readAddr = s.readAddr := funext h.readAddr
    exact same_orFault h (by rw [h.localSlot, hread])
  | writeLocal slot v =>
    simp only [exec, h.localSlot]
    split
    · exact same_store h _ v
    · exact .stop _ h
  | boxSlot name =>
    obtain ⟨hs, ht⟩ | ⟨b, s', t', hs, ht, hst⟩ := h.vmBoxSlot name
    · simp only [exec, hs, ht, same_nameText h]
      exact .done _ (h.addError _)
    · simp only [exec, hs, ht]
      exact .done _ hst
  | unwindScopes =>
    have hfloor := h.scopeFloor
    obtain ⟨w, hvm, rfl⟩ := id h
    simp only [exec, hvm.callDepth, hfloor]
    split
    · exact .stop _ h
    · exact .done _ (h.unwindScopes _)
  | error msg => exact .done _ (h.addError msg)
  | read =>
    obtain ⟨w, hvm, rfl⟩ := id h
    simp only [exec, hvm.ip]
    split
    · exact .done _ ⟨_, hvm.setIp _, rfl⟩
    · exact .stop _ h
  | readIdx =>
    obtain ⟨w, hvm, rfl⟩ := id h
    simp only [exec, hvm.ip]
    split
    · exact .done _ ⟨_, hvm.setIp _, rfl⟩
    · exact .stop _ h
  | setIp n =>
    obtain ⟨w, hvm, rfl⟩ := h
    exact .done _ ⟨_, hvm.setIp n, rfl⟩
  | peek n =>
    obtain ⟨w, hvm, rfl⟩ := id h
    simp only [exec, hvm.stackTop]
    split
    · rw [hvm.stack _ (by omega)]
      exact .done _ h
    · exact .stop _ h
  | poke n v =>
    obtain ⟨w, hvm, rfl⟩ := id h
    simp only [exec, hvm.stackTop]
    split
    · refine .done _ ⟨_, ?_, rfl⟩
      refine { hvm with stack := fun i hi => ?_ }
      by_cases hid : i = s.vm.stackTop - 1 - n
      · subst hid
        simp [Vm.setStack]
      · simpa [Vm.setStack, hid] using hvm.stack i hi
    · exact .stop _ h
  | drop n =>
    obtain ⟨w, hvm, rfl⟩ := id h
    simp only [exec, hvm.stackTop]
    split
    · exact .done _ ⟨_, hvm.setTop fun i hi => hvm.stack i (by omega), rfl⟩
    · exact .stop _ h
  | argAt n =>
    obtain ⟨w, hvm, rfl⟩ := id h
    have hn : n ≠ 0 := fun hn => ho (by rw [hn])
    simp only [exec, hvm.stackTop]
    split
    · rw [hvm.stack _ (by omega)]
      exact .done _ h
    · exact .stop _ h
  | slide n =>
    obtain ⟨w, hvm, rfl⟩ := id h
    simp only [exec, State.slide, hvm.stackTop]
    split
    · refine .done _ ⟨_, hvm.setTop fun i hi => ?_, rfl⟩
      split
      · exact hvm.stack _ (by omega)
      · exact hvm.stack _ (by omega)
    · exact .stop _ h
  | getIp | hasRoom _ | callDepth | pendingCount =>
    obtain ⟨w, hvm, rfl⟩ := id h
    simp only [exec, hvm.ip, hvm.stackTop, hvm.callDepth, hvm.pendingUpvalueCount]
    exact .done _ h
  | nameText i =>
    obtain ⟨w, hvm, rfl⟩ := id h
    simp only [exec]
    split
    · exact same_orFault h rfl
    · exact .stop _ h
  | storeUpvalue b v =>
    obtain ⟨w, hvm, rfl⟩ := h
    exact same_store (s := { s with heap := s.heap.gcBarrierBox b v }) ⟨w, hvm, rfl⟩ (.box b) v
  | constant _ | asInt _ | string _ | array _ | dict _ | function _ | shape _ =>
    obtain ⟨w, hvm, rfl⟩ := id h
    exact same_orFault h rfl
  | format v =>
    refine same_orFault h ?_
    obtain ⟨w, hvm, rfl⟩ := h
    exact formatDepth_vm s w _ false v
  | typeName v =>
    refine same_orFault h ?_
    obtain ⟨w, hvm, rfl⟩ := h
    cases v <;> rfl
  | newInt _ | newString _ | newArray _ | newDict _ | newFunction _ | appendItem _ _
  | setItem _ _ _ | deleteItem _ _ | setEntry _ _ _ | deleteEntry _ _ | defineShape _
  | findShape _ | hadError | print _ | countAssertFailure =>
    obtain ⟨w, hvm, rfl⟩ := h
    exact .done _ ⟨w, hvm, rfl⟩
  | fail | halt | fault => exact .stop _ h

end Operations

section Runs
variable {s t : State}

/-- A change of the heap and of the counters of the collector. -/
theorem State.Same.account (h : s.Same t) (heap : Heap → Heap) (gc : GcState → GcState) :
    State.Same { s with heap := heap s.heap, gc := gc s.gc } { t with heap := heap t.heap, gc := gc t.gc } := by
  obtain ⟨w, hvm, rfl⟩ := h
  exact ⟨w, hvm, rfl⟩

theorem State.Same.minorCycle (h : s.Same t) : s.minorCycle.Same t.minorCycle :=
  (h.gcCollect true).account (fun h => { h with allocCount := 0 }) fun g =>
    { g with minorCollections := g.minorCollections + 1, minorSinceMajor := g.minorSinceMajor + 1 }

theorem State.Same.majorCycle (h : s.Same t) : s.majorCycle.Same t.majorCycle :=
  (h.gcCollect false).account id fun g =>
    { g with majorCollections := g.majorCollections + 1, minorSinceMajor := 0 }

theorem State.Same.heap_gc (h : s.Same t) : t.heap = s.heap ∧ t.gc = s.gc := by
  obtain ⟨w, -, rfl⟩ := h
  exact ⟨rfl, rfl⟩

theorem State.Same.reportCeiling (h : s.Same t) : s.reportCeiling.Same t.reportCeiling := by
  unfold State.reportCeiling
  rw [h.heap_gc.1, h.heap_gc.2]
  split
  · exact h
  · exact h.addError _

theorem State.Same.checkCeiling (h : s.Same t) (majorRan : Bool) :
    (s.checkCeiling majorRan).Same (t.checkCeiling majorRan) := by
  unfold State.checkCeiling
  rw [h.heap_gc.1, h.heap_gc.2]
  split
  · exact h
  · split
    · exact h.reportCeiling
    · exact h.majorCycle.reportCeiling

theorem State.Same.gcMaybeCollect (h : s.Same t) : s.gcMaybeCollect.Same t.gcMaybeCollect := by
  have hminor := h.minorCycle
  unfold State.gcMaybeCollect State.gcRunCollectionCycle
  rw [h.heap_gc.1, h.heap_gc.2]
  simp only [hminor.heap_gc.2]
  split
  · exact h
  · split
    · exact h
    · split
      · exact hminor.majorCycle.checkCeiling true
      · exact hminor.checkCeiling false

/-- The next instruction looks for a receiver among no arguments: the function called
has a default for its receiver. -/
def ReadsDeadSlot (cfg : Config) (s : State) : Prop :=
  ∃ s', Visits (exec cfg) instruction s.gcMaybeCollect (.argAt 0) s'

theorem same_dispatch (h : s.Same t) {cfg : Config} (hdead : ¬ ReadsDeadSlot cfg s) :
    SameResult (dispatch cfg s) (dispatch cfg t) := by
  have hstep : SameResult (instruction.run (exec cfg) s.gcMaybeCollect)
      (instruction.run (exec cfg) t.gcMaybeCollect) :=
    run_lockstep h.gcMaybeCollect fun o s' hv t' hst =>
      same_exec hst cfg fun ho => hdead ⟨s', ho ▸ hv⟩
  obtain ⟨w, hvm, rfl⟩ := id h
  unfold dispatch
  split
  · exact .stop _ h
  · exact hstep

/-- Two machines that agree below their counters run alike. -/
theorem same_vmRun {cfg : Config} (h : s.Same t) {n : Nat}
    (hdead : ∀ k < n, ∀ u, vmRun cfg k s = .done () u → ¬ ReadsDeadSlot cfg u) :
    SameResult (vmRun cfg n s) (vmRun cfg n t) := by
  induction n generalizing s t with
  | zero => exact .done _ h
  | succ n ih =>
    have hstep := same_dispatch h (hdead 0 (Nat.succ_pos n) s rfl)
    unfold vmRun
    cases hs : dispatch cfg s with
    | stop r s' =>
      rw [hs] at hstep
      cases ht : dispatch cfg t with
      | stop r' t' =>
        rw [ht] at hstep
        exact hstep
      | done a t' =>
        rw [ht] at hstep
        cases hstep
    | done a s' =>
      rw [hs] at hstep
      cases ht : dispatch cfg t with
      | stop r' t' =>
        rw [ht] at hstep
        cases hstep
      | done a' t' =>
        rw [ht] at hstep
        cases hstep with
        | done _ hst =>
          refine ih hst fun k hk u hu => hdead (k + 1) (Nat.succ_lt_succ hk) u ?_
          simp only [vmRun, hs]
          exact hu

end Runs

end Aer.Machine
