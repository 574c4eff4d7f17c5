import Aer.Data.FiniteMap
import Aer.Lib.ScopeStack
import Aer.Machine.FrameSteps
import Aer.Machine.Recovery
import Aer.Machine.Scopes

set_option linter.all false

/-! The scopes as a stack of finite maps, over whole runs of the operations on them. -/
namespace Aer.Machine

open Aer.Data Aer.Memory Aer.Lib Aer.Lib.Interaction

namespace State

variable {s t u : State}

/-- Scopes were popped, the others are as before. -/
structure Shrinks (s t : State) : Prop where
  depth : t.vm.scopeDepth ≤ s.vm.scopeDepth
  text : t.nameText = s.nameText
  scopes : ∀ i < t.vm.scopeDepth, t.vm.scopes i = s.vm.scopes i
  boxes : t.heap.boxes = s.heap.boxes
  entryCount : t.heap.entryCount = s.heap.entryCount
  keeps : ∀ q, t.InUse q → t.readAddr (s.placeAddr q) = s.readAddr (s.placeAddr q)

section Shrinks
variable (hs : Shrinks s t)
include hs

theorem Shrinks.inUse {q : Place} (hq : t.InUse q) :
    s.InUse q ∧ t.placeAddr q = s.placeAddr q := by
  cases q with
  | slot i j =>
    obtain ⟨hi, hj⟩ := hq
    have hsc := hs.scopes i hi
    rw [hsc] at hj
    refine ⟨⟨hi.trans_le hs.depth, hj⟩, ?_⟩
    simp only [placeAddr, hsc]
  | entry i e =>
    obtain ⟨hi, k, hk⟩ := hq
    rw [hs.scopes i hi] at hk
    exact ⟨⟨hi.trans_le hs.depth, k, hk⟩, rfl⟩

theorem Shrinks.wf (h : s.ScopesWf) : t.ScopesWf where
  boxes := hs.boxes ▸ h.boxes
  scope i hi := by
    rw [hs.scopes i hi]
    exact h.scope i (hi.trans_le hs.depth)
  stored q hq := by
    obtain ⟨huse, haddr⟩ := hs.inUse hq
    rw [haddr, hs.keeps q hq]
    exact h.stored q huse
  apart q r hq hr heq := by
    obtain ⟨huse, haddr⟩ := hs.inUse hq
    obtain ⟨huse', haddr'⟩ := hs.inUse hr
    exact h.apart q r huse huse' (haddr.symm.trans (heq.trans haddr'))
  spilled q e hq he := by
    obtain ⟨huse, haddr⟩ := hs.inUse hq
    rw [hs.entryCount]
    exact h.spilled q e huse (haddr.symm.trans he)

theorem Shrinks.valueIn (h : s.ScopesWf) {n i : Nat} (hi : i < t.vm.scopeDepth) :
    t.valueIn n i = s.valueIn n i := by
  have hplace : t.placeIn n i = s.placeIn n i := by
    unfold State.placeIn
    simp only [hs.scopes i hi, hs.text]
  unfold State.valueIn
  cases hp : t.placeIn n i with
  | none =>
    rw [← hplace, hp]
    rfl
  | some p =>
    have huse := (hs.wf h).inUse hi hp
    rw [← hplace, hp]
    simp only [Option.bind_some, (hs.inUse huse).2, hs.keeps p huse]

end Shrinks

theorem Shrinks.refl (s : State) : Shrinks s s :=
  ⟨le_rfl, rfl, fun _ _ => rfl, rfl, rfl, fun _ _ => rfl⟩

theorem Shrinks.trans (h : Shrinks s t) (h' : Shrinks t u) : Shrinks s u where
  depth := h'.depth.trans h.depth
  text := h'.text.trans h.text
  scopes i hi := (h'.scopes i hi).trans (h.scopes i (hi.trans_le h'.depth))
  boxes := h'.boxes.trans h.boxes
  entryCount := h'.entryCount.trans h.entryCount
  keeps q hq := by
    obtain ⟨huse, haddr⟩ := h'.inUse hq
    have haddr' := (h.inUse huse).2
    rw [← haddr', h'.keeps q hq, haddr', h.keeps q huse]

theorem shrinks_dropScope (s : State) :
    Shrinks s { s with vm := { s.vm with scopeDepth := s.vm.scopeDepth - 1 } } := by
  refine ⟨Nat.sub_le _ _, rfl, fun _ _ => rfl, rfl, rfl, fun q hq => ?_⟩
  cases hqa : s.placeAddr q with
  | box b => rfl
  | slot i j =>
    obtain rfl := eq_of_placeAddr hqa
    have huse : i < s.vm.scopeDepth ∧ j < (s.vm.scopes i).count :=
      ⟨hq.1.trans_le (Nat.sub_le _ _), hq.2⟩
    rw [readAddr, readAddr, if_pos huse]
    exact if_pos hq

theorem freeScope_scopes (s : State) {i k : Nat} (hk : k ≠ i) :
    (s.freeScope i).vm.scopes k = s.vm.scopes k := by
  unfold freeScope
  simp only []
  split
  · exact Function.update_of_ne hk _ _
  · rfl

theorem freeScope_heap (s : State) (i : Nat) :
    (s.freeScope i).heap.boxes = s.heap.boxes ∧
    (s.freeScope i).heap.entryCount = s.heap.entryCount ∧
    (s.freeScope i).nameText = s.nameText ∧
    ∀ e, e ∉ (s.vm.scopes i).map.values → (s.freeScope i).heap.entries e = s.heap.entries e := by
  unfold freeScope
  simp only []
  split
  · exact ⟨rfl, rfl, rfl, fun e he => if_neg he⟩
  · exact ⟨rfl, rfl, rfl, fun _ _ => rfl⟩

/-- Another scope's cells may be freed. -/
theorem shrinks_freeScope {i : Nat} (hi : s.vm.scopeDepth ≤ i)
    (hfree : ∀ q e, s.InUse q → s.placeAddr q = .box (.spilled e) → e ∉ (s.vm.scopes i).map.values) :
    Shrinks s (s.freeScope i) := by
  obtain ⟨hboxes, hcount, htext, hentries⟩ := freeScope_heap s i
  have hdepth := (freeScope_vm s i).1
  have hscope : ∀ k < s.vm.scopeDepth, (s.freeScope i).vm.scopes k = s.vm.scopes k :=
    fun k hk => freeScope_scopes s (by omega)
  have huse : ∀ q, (s.freeScope i).InUse q → s.InUse q := by
    intro q hq
    cases q with
    | slot k l =>
      have hk : k < s.vm.scopeDepth := hdepth ▸ hq.1
      exact ⟨hk, hscope k hk ▸ hq.2⟩
    | entry k e =>
      have hk : k < s.vm.scopeDepth := hdepth ▸ hq.1
      exact ⟨hk, hscope k hk ▸ hq.2⟩
  refine ⟨hdepth.le, htext, fun k hk => hscope k (hdepth ▸ hk), hboxes, hcount, fun q hq => ?_⟩
  cases hqa : s.placeAddr q with
  | slot k l =>
    obtain rfl := eq_of_placeAddr hqa
    simp only [readAddr, hdepth, hscope k (huse _ hq).1]
  | box b =>
    cases b with
    | pooled c => simp only [readAddr, Heap.readBox, hboxes]
    | spilled e => exact hentries e (hfree q e (huse q hq) hqa)

/-- The cells of a popped scope belong to no other scope. -/
theorem shrinks_popOneScope (h : s.ScopesWf) (hd : 1 ≤ s.vm.scopeDepth) :
    Shrinks s s.popOneScope := by
  have hdrop := shrinks_dropScope s
  refine hdrop.trans (shrinks_freeScope le_rfl fun q e hq hqe he => ?_)
  have huse : s.InUse (.entry (s.vm.scopeDepth - 1) e) := by
    obtain ⟨⟨k, x⟩, hkx, rfl⟩ := List.mem_map.mp he
    exact ⟨by omega, k, HashTable.mem_entries.mp hkx⟩
  obtain rfl := h.apart q _ (hdrop.inUse hq).1 huse hqe
  exact lt_irrefl _ hq.1

theorem shrinks_popScopes (h : s.ScopesWf) {n : Nat} (hn : n ≤ s.vm.scopeDepth) :
    Shrinks s (popScopes n s) := by
  induction n generalizing s with
  | zero => exact .refl s
  | succ n ih =>
    have hpop := shrinks_popOneScope h (by omega)
    have hdepth : s.popOneScope.vm.scopeDepth = s.vm.scopeDepth - 1 := (popScopes_vm 1 s).1
    exact hpop.trans (ih (hpop.wf h) (by omega))

/-- The constant pool and the strings it names. -/
structure SameText (s t : State) : Prop where
  chunk : t.chunk = s.chunk
  strings : t.heap.strings = s.heap.strings

section SameText
variable (hs : SameText s t)
include hs

theorem SameText.isName (n : Nat) : t.IsName n ↔ s.IsName n := by
  unfold IsName
  rw [hs.chunk, hs.strings]

theorem SameText.nameText : t.nameText = s.nameText := by
  funext n
  unfold State.nameText Chunk.nameText
  rw [hs.chunk, hs.strings]

theorem SameText.interned (hn : s.Interned) : t.Interned := by
  intro m n hm hn'
  rw [hs.nameText]
  exact hn m n ((hs.isName m).mp hm) ((hs.isName n).mp hn')

theorem SameText.trans (hs' : SameText t u) : SameText s u :=
  ⟨hs'.chunk.trans hs.chunk, hs'.strings.trans hs.strings⟩

end SameText

/-- No error is reported. -/
structure Quiet (s t : State) : Prop extends SameText s t where
  errors : t.errors = s.errors

theorem Quiet.refl (s : State) : Quiet s s := ⟨⟨rfl, rfl⟩, rfl⟩

theorem Quiet.trans (h : Quiet s t) (h' : Quiet t u) : Quiet s u :=
  ⟨h.toSameText.trans h'.toSameText, h'.errors.trans h.errors⟩

theorem quiet_writeAddr (s : State) (a : Addr) (v : AerVal) : Quiet s (s.writeAddr a v) := by
  cases a with
  | slot i j => exact ⟨⟨rfl, rfl⟩, rfl⟩
  | box b => cases b <;> exact ⟨⟨rfl, rfl⟩, rfl⟩

theorem quiet_vmScopeDefine (s : State) (n : Nat) (v : AerVal) : Quiet s (s.vmScopeDefine n v) := by
  unfold vmScopeDefine
  simp only []
  split
  · exact quiet_writeAddr _ _ _
  · split
    · exact ⟨⟨rfl, rfl⟩, rfl⟩
    · split <;> exact ⟨⟨rfl, rfl⟩, rfl⟩

theorem quiet_popScopes (n : Nat) (s : State) : Quiet s (popScopes n s) := by
  induction n generalizing s with
  | zero => exact .refl s
  | succ n ih =>
    refine Quiet.trans ?_ (ih s.popOneScope)
    unfold popOneScope freeScope
    simp only []
    split <;> exact ⟨⟨rfl, rfl⟩, rfl⟩

end State

/-- The depths at which the scopes of the calls in progress begin, the last call first. -/
def Vm.floors (vm : Vm) : List Nat :=
  (List.range vm.callDepth).reverse.map fun i => (vm.callStack i).returnScopeDepth

theorem Vm.floors_headD (vm : Vm) : vm.floors.headD 0 = vm.scopeFloor := by
  unfold Vm.floors Vm.scopeFloor
  cases hd : vm.callDepth with
  | zero => rfl
  | succ d => simp [List.range_succ]

theorem Vm.length_floors (vm : Vm) : vm.floors.length = vm.callDepth := by
  simp [Vm.floors]

theorem Vm.floors_congr {v w : Vm} (hdepth : w.callDepth = v.callDepth)
    (hstack : w.callStack = v.callStack) : w.floors = v.floors := by
  unfold Vm.floors
  rw [hdepth, hstack]

/-- The state stores the maps of the stack. -/
structure Stores (s : State) (a : ScopeStack Nat AerVal) : Prop where
  wf : s.ScopesWf
  base : s.vm.Scoped
  depth : a.scopes.length = s.vm.scopeDepth
  floors : a.floors = s.vm.floors
  value : ∀ n, s.IsName n → ∀ i < s.vm.scopeDepth, a.valueAt n i = s.valueIn n i

theorem findSome?_eq_bind {α β : Type} (f : α → Option β) (l : List α) :
    l.findSome? f = (l.find? fun x => (f x).isSome).bind f := by
  induction l with
  | nil => rfl
  | cons x l ih =>
    rw [List.findSome?_cons, List.find?_cons]
    cases hx : f x with
    | none => exact ih
    | some y => simp [hx]

section Stores
variable {s t : State} {a : ScopeStack Nat AerVal} (h : Stores s a)
include h

theorem Stores.chain : a.chain = s.vm.scopeChain := by
  unfold ScopeStack.chain ScopeStack.floor Vm.scopeChain
  rw [h.floors, Vm.floors_headD, h.depth]

theorem Stores.chain_lt {i : Nat} (hi : i ∈ a.chain) : i < s.vm.scopeDepth := by
  rw [h.chain] at hi
  have := h.base.depth
  unfold Vm.scopeChain at hi
  rcases List.mem_append.mp hi with hi | hi
  · rw [List.mem_reverse, List.mem_range'_1] at hi
    omega
  · split at hi
    · cases hi
    · rw [List.mem_singleton] at hi
      omega

/-- The search of the code ends at the innermost binding. -/
theorem Stores.locate {n : Nat} (hn : s.IsName n) :
    s.locate n = (a.nearest n).bind (s.placeIn n) := by
  have hfind : a.nearest n = a.chain.find? fun i => (s.placeIn n i).isSome := by
    rw [ScopeStack.nearest, ← List.head?_filter, ← List.head?_filter]
    refine congrArg List.head? (List.filter_congr fun i hi => ?_)
    rw [h.value n hn i (h.chain_lt hi), h.wf.isSome_valueIn (h.chain_lt hi)]
  rw [State.locate, findSome?_eq_bind, hfind, h.chain]

/-- Where a name has its innermost binding. -/
theorem Stores.nearest {n i : Nat} (hn : s.IsName n) (hi : a.nearest n = some i) :
    i < s.vm.scopeDepth ∧ ∃ p, s.placeIn n i = some p ∧ s.locate n = some p ∧
      a.lookup n = s.readAddr (s.placeAddr p) := by
  have hlt := h.chain_lt (List.mem_of_find?_eq_some hi)
  have hsome := List.find?_some hi
  rw [h.value n hn i hlt, h.wf.isSome_valueIn hlt] at hsome
  obtain ⟨p, hp⟩ := Option.isSome_iff_exists.mp hsome
  refine ⟨hlt, p, hp, ?_, ?_⟩
  · rw [h.locate hn, hi]
    exact hp
  · rw [ScopeStack.lookup, hi]
    change a.valueAt n i = _
    rw [h.value n hn i hlt, State.valueIn, hp]
    rfl

theorem Stores.bind {i n : Nat} {p : Place} {v : AerVal} (hb : State.Binds s t n i p v)
    (hi : i < s.vm.scopeDepth) (hw : t.ScopesWf) (hsc : t.vm.Scoped) (hc : s.Calm t)
    (htext : State.SameText s t) : Stores t (a.bind i n v) where
  wf := hw
  base := hsc
  depth := by
    rw [hb.depth, ← h.depth]
    exact List.length_modify _ _ _
  floors := h.floors.trans (Vm.floors_congr hc.callDepth hc.callStack).symm
  value m hm j hj := by
    have hm' := (htext.isName m).mp hm
    rw [hb.depth] at hj
    rw [ScopeStack.valueAt_bind (h.depth ▸ hi), hb.valueIn h.wf hm' hj, h.value m hm' j hj]
    simp only [eq_comm]

end Stores

/-! The operations on scopes, as the instructions perform them. -/

/-- `OP_LOAD`, up to its push. -/
def loadName (idx cacheIdx : Nat) : Handler (Seen Nat AerVal) := do
  match ← perform (.resolve idx cacheIdx) with
  | some found => return .value (← perform (.load found))
  | none =>
      perform (.error (notDefined (← perform (.nameText idx))))
      return .undefined idx

/-- `OP_STORE`, behind its pop. -/
def storeName (idx cacheIdx : Nat) (val : AerVal) : Handler Unit := do
  match ← perform (.resolve idx cacheIdx) with
  | some found => perform (.store found val)
  | none => perform (.scopeDefine idx val)

/-- `vm_box_slot`, as `OP_CAPTURE` calls it. -/
def captureName (idx : Nat) : Handler (Seen Nat AerVal) := do
  match ← perform (.boxSlot idx) with
  | some _ => return .nothing
  | none => return .undefined idx

/-- The end of `OP_RETURN`. -/
def leaveCall : Handler Unit := do
  perform .unwindScopes
  perform (.setIp (← perform .popFrame))

/-- What `OP_LOAD` pushes. -/
def pushedValue : Seen Nat AerVal → AerVal
  | .value v => v
  | .nothing | .undefined _ => .null

theorem lblLoad_eq : lblLoad = (do
    let idx ← perform .readIdx
    let cacheIdx ← perform .readIdx
    push (pushedValue (← loadName idx cacheIdx))) := by
  refine congrArg (Prog.op _) (funext fun idx => congrArg (Prog.op _) (funext fun cacheIdx =>
    congrArg (Prog.op _) (funext fun found => ?_)))
  cases found <;> rfl

theorem lblStore_eq : lblStore = (do
    let idx ← perform .readIdx
    let cacheIdx ← perform .readIdx
    storeName idx cacheIdx (← pop)) := rfl

inductive ScopeOp
  | pushScope
  | popScope
  | enter (function returnIp : Nat)
  | leave
  | define (name : Nat) (v : AerVal)
  | defineLocal (slot name : Nat) (v : AerVal)
  | store (name cache : Nat) (v : AerVal)
  | load (name cache : Nat)
  | capture (name : Nat)

namespace ScopeOp

def handler : ScopeOp → Handler (Seen Nat AerVal)
  | pushScope => do
      perform .pushScope
      return .nothing
  | popScope => do
      perform .popScope
      return .nothing
  | enter function returnIp => do
      perform (.pushFrame function returnIp)
      return .nothing
  | leave => do
      leaveCall
      return .nothing
  | define name v => do
      perform (.scopeDefine name v)
      return .nothing
  | defineLocal slot name v => do
      perform (.defineLocal slot name v)
      return .nothing
  | store name cache v => do
      storeName name cache v
      return .nothing
  | load name cache => loadName name cache
  | capture name => captureName name

/-- What the operation is to do to the maps; `none` when the scopes or the calls are
at an end. -/
def spec (a : ScopeStack Nat AerVal) : ScopeOp → Option (Seen Nat AerVal × ScopeStack Nat AerVal)
  | pushScope => if a.scopes.length < vmScopeMax then some (.nothing, a.push) else none
  | popScope => if a.scopes.length ≤ 1 then none else some (.nothing, a.pop)
  | enter _ _ => if a.floors.length < vmCallMax then some (.nothing, a.enter) else none
  | leave => if a.floors.length = 0 then none else some (.nothing, a.leave)
  | define name v => some (.nothing, a.define name v)
  | defineLocal _ name v => some (.nothing, a.define name v)
  | store name _ v => some (.nothing, a.store name v)
  | load name _ => some (a.read name, a)
  | capture name => some (a.need name, a)

def names : ScopeOp → List Nat
  | define name _ | defineLocal _ name _ | store name _ _ | load name _ | capture name => [name]
  | pushScope | popScope | enter _ _ | leave => []

/-- The operation keeps to what the compiler promises: a site has its cache slot, a
parameter is given the next slot or the one it has, and the table of a scope has room. -/
def Fits (s : State) : ScopeOp → Prop
  | define name _ => s.HasRoom name
  | defineLocal slot name _ =>
      let scope := s.vm.scopes (s.vm.scopeDepth - 1)
      scope.findSlot name = some slot ∨
        slot = scope.count ∧ slot < scopeSlotMax ∧ s.placeIn name (s.vm.scopeDepth - 1) = none
  | store name cache _ => cache < s.chunk.addrCache.length ∧ ((s.locate name).isSome ∨ s.HasRoom name)
  | load _ cache => cache < s.chunk.addrCache.length
  | pushScope | popScope | enter _ _ | leave | capture _ => True

/-- The error an observation comes with. -/
def messages (s : State) : Seen Nat AerVal → List Bytes
  | .undefined n => [notDefined (s.nameText n)]
  | .nothing | .value _ => []

/-- What an operation does to the state: the maps become `b`, and a name is reported to
be undefined exactly when that is observed. -/
structure Does (s t : State) (seen : Seen Nat AerVal) (b : ScopeStack Nat AerVal) : Prop where
  stores : Stores t b
  text : State.SameText s t
  errors : t.errors.map Prod.snd = messages s seen ++ s.errors.map Prod.snd

theorem Does.quiet {s t : State} {seen : Seen Nat AerVal} {b : ScopeStack Nat AerVal}
    (h : Stores t b) (hq : State.Quiet s t) (hseen : messages s seen = []) : Does s t seen b :=
  ⟨h, hq.toSameText, by rw [hseen, hq.errors]; rfl⟩

section Steps
variable (cfg : Config) {s : State} {a : ScopeStack Nat AerVal} (h : Stores s a)
include h

/-- A scope is pushed with nothing in it. -/
theorem stores_pushed {t : State} (hdepth : t.vm.scopeDepth = s.vm.scopeDepth + 1)
    (hcall : t.vm.callDepth = s.vm.callDepth) (hstack : t.vm.callStack = s.vm.callStack)
    (hheap : t.heap = s.heap) (htext : State.SameText s t)
    (hcount : (t.vm.scopes s.vm.scopeDepth).count = 0)
    (hmap : (t.vm.scopes s.vm.scopeDepth).map = .empty)
    (hold : ∀ i < s.vm.scopeDepth, t.vm.scopes i = s.vm.scopes i) : Stores t a.push := by
  have hread : ∀ q, s.InUse q → s.readAddr (t.placeAddr q) = t.readAddr (t.placeAddr q) := by
    intro q hq
    cases hqa : t.placeAddr q with
    | box b => simp only [State.readAddr, hheap]
    | slot i j =>
      obtain rfl := State.eq_of_placeAddr hqa
      have hin : i < t.vm.scopeDepth ∧ j < (t.vm.scopes i).count :=
        ⟨by have := hq.1; omega, by rw [hold i hq.1]; exact hq.2⟩
      rw [State.readAddr, State.readAddr, if_pos hin, hold i hq.1]
      exact if_pos hq
  have hshrinks : State.Shrinks t s :=
    ⟨by omega, htext.nameText.symm, fun i hi => (hold i hi).symm, by rw [hheap], by rw [hheap], hread⟩
  have hdown : ∀ q, t.InUse q → s.InUse q ∧ t.placeAddr q = s.placeAddr q := by
    intro q hq
    have huse : s.InUse q := by
      cases q with
      | slot i j =>
        obtain ⟨hi, hj⟩ := hq
        have hne : i ≠ s.vm.scopeDepth := by
          rintro rfl
          rw [hcount] at hj
          exact Nat.not_lt_zero j hj
        have hlt : i < s.vm.scopeDepth := by omega
        exact ⟨hlt, hold i hlt ▸ hj⟩
      | entry i e =>
        obtain ⟨hi, k, hk⟩ := hq
        have hne : i ≠ s.vm.scopeDepth := by
          rintro rfl
          rw [hmap] at hk
          simp [HashTable.empty] at hk
        have hlt : i < s.vm.scopeDepth := by omega
        exact ⟨hlt, k, hold i hlt ▸ hk⟩
    exact ⟨huse, (hshrinks.inUse huse).2.symm⟩
  have hwf : t.ScopesWf := by
    refine ⟨hheap ▸ h.wf.boxes, fun i hi => ?_, fun q hq => ?_, fun q r hq hr heq => ?_,
      fun q e hq he => ?_⟩
    · by_cases hlt : i < s.vm.scopeDepth
      · rw [hold i hlt]
        exact h.wf.scope i hlt
      · obtain rfl : i = s.vm.scopeDepth := by omega
        refine ⟨hcount.le.trans (Nat.zero_le _), hmap ▸ .empty, fun _ => hmap, ?_⟩
        intro k k' e hk
        rw [hmap] at hk
        simp [HashTable.empty] at hk
    · rw [← hread q (hdown q hq).1, (hdown q hq).2]
      exact h.wf.stored q (hdown q hq).1
    · rw [(hdown q hq).2, (hdown r hr).2] at heq
      exact h.wf.apart q r (hdown q hq).1 (hdown r hr).1 heq
    · rw [hheap]
      exact h.wf.spilled q e (hdown q hq).1 ((hdown q hq).2 ▸ he)
  refine ⟨hwf, ?_, ?_, h.floors.trans (Vm.floors_congr hcall hstack).symm, fun n hn i hi => ?_⟩
  · refine ⟨by omega, fun i hi => ?_⟩
    rw [hstack]
    exact h.base.frames i (hcall ▸ hi)
  · rw [hdepth, ← h.depth]
    simp [ScopeStack.push]
  · rw [ScopeStack.valueAt_push, h.depth]
    split
    · next hlt =>
      rw [h.value n ((htext.isName n).mp hn) i hlt]
      exact hshrinks.valueIn hwf hlt
    · obtain rfl : i = s.vm.scopeDepth := by omega
      rw [State.valueIn, State.placeIn_eq (hwf.scope _ hi), AerScope.findSlot, hcount, hmap]
      rfl

theorem does_pushScope (hroom : s.vm.scopeDepth < vmScopeMax) :
    ∃ t, exec cfg .pushScope s = .done () t ∧ Does s t .nothing a.push := by
  refine ⟨_, if_pos hroom, .quiet ?_ ⟨⟨rfl, rfl⟩, rfl⟩ rfl⟩
  refine stores_pushed h rfl rfl rfl rfl ⟨rfl, rfl⟩ ?_ ?_ ?_
  · simp [Vm.setScope]
  · simp [Vm.setScope]
  · intro i hi
    exact Function.update_of_ne (ne_of_lt hi) _ _

/-- What is left after scopes were popped. -/
theorem stores_shrunk {t : State} {b : ScopeStack Nat AerVal} (hs : State.Shrinks s t)
    (hbase : t.vm.Scoped) (htext : State.SameText s t) (hdepth : b.scopes.length = t.vm.scopeDepth)
    (hfloors : b.floors = t.vm.floors)
    (hvalue : ∀ n, ∀ i < t.vm.scopeDepth, b.valueAt n i = a.valueAt n i) : Stores t b where
  wf := hs.wf h.wf
  base := hbase
  depth := hdepth
  floors := hfloors
  value n hn i hi := by
    rw [hvalue n i hi, hs.valueIn h.wf hi]
    exact h.value n ((htext.isName n).mp hn) i (hi.trans_le hs.depth)

theorem does_popScope (hroom : ¬ s.vm.scopeDepth ≤ 1) :
    ∃ t, exec cfg .popScope s = .done () t ∧ Does s t .nothing a.pop := by
  have hdone : exec cfg .popScope s = .done () (State.popScopes 1 s) := if_neg hroom
  have hbase := h.base.exec cfg .popScope
  have hdepth := (popScopes_vm 1 s).1
  have hcalm := State.Calm.popScopes 1 s
  rw [hdone] at hbase
  refine ⟨_, hdone, .quiet ?_ (State.quiet_popScopes 1 s) rfl⟩
  refine stores_shrunk h (State.shrinks_popScopes h.wf (by omega)) hbase
    (State.quiet_popScopes 1 s).toSameText ?_ ?_ ?_
  · rw [hdepth, ← h.depth]
    exact List.length_dropLast
  · exact h.floors.trans (Vm.floors_congr hcalm.callDepth hcalm.callStack).symm
  · intro n i hi
    refine ScopeStack.valueAt_pop n ?_
    rw [h.depth, ← hdepth]
    exact hi

theorem does_enter (function returnIp : Nat) (hroom : s.vm.callDepth < vmCallMax) :
    ∃ t, exec cfg (.pushFrame function returnIp) s = .done () t ∧ Does s t .nothing a.enter := by
  have hbase := h.base.exec cfg (.pushFrame function returnIp)
  refine ⟨_, if_pos hroom, .quiet ?_ ⟨⟨rfl, rfl⟩, rfl⟩ rfl⟩
  have hdone : exec cfg (.pushFrame function returnIp) s = .done () _ := if_pos hroom
  rw [hdone] at hbase
  refine ⟨⟨h.wf.boxes, h.wf.scope, h.wf.stored, h.wf.apart, h.wf.spilled⟩, hbase, h.depth, ?_, h.value⟩
  rw [ScopeStack.enter, h.floors, h.depth]
  simp only [Vm.floors, Vm.setFrame, List.range_succ, List.reverse_append, List.reverse_singleton,
    List.map_append, List.map_cons, List.map_nil, Function.update_self, List.singleton_append]
  refine congrArg _ (List.map_congr_left fun i hi => ?_)
  have hlt : i < s.vm.callDepth := List.mem_range.mp (List.mem_reverse.mp hi)
  rw [Function.update_of_ne (ne_of_lt hlt)]

omit h in
theorem run_leaveCall (hd : s.vm.callDepth ≠ 0) :
    leaveCall.run (exec cfg) s = .done ()
      { s.unwindScopes s.vm.scopeFloor with
        vm :=
          { (s.unwindScopes s.vm.scopeFloor).vm with
            callDepth := s.vm.callDepth - 1
            ip := (s.vm.callStack (s.vm.callDepth - 1)).returnIp } } := by
  have hcalm : s.Calm (s.unwindScopes s.vm.scopeFloor) := .popScopes _ s
  have hunwind : exec cfg .unwindScopes s = .done () (s.unwindScopes s.vm.scopeFloor) := if_neg hd
  have hpop : exec cfg .popFrame (s.unwindScopes s.vm.scopeFloor) =
      .done (s.vm.callStack (s.vm.callDepth - 1)).returnIp
        { s.unwindScopes s.vm.scopeFloor with
          vm := { (s.unwindScopes s.vm.scopeFloor).vm with callDepth := s.vm.callDepth - 1 } } := by
    rw [exec, State.popFrame, State.topFrame, hcalm.callDepth, if_neg hd, hcalm.callStack]
  unfold leaveCall
  simp only [perform, run_bind, run_perform, hunwind, Outcome.done_andThen, hpop]
  rfl

theorem does_leave (hd : s.vm.callDepth ≠ 0) :
    ∃ t, leaveCall.run (exec cfg) s = .done () t ∧ Does s t .nothing a.leave := by
  have hfloor : a.floor = s.vm.scopeFloor := by
    rw [ScopeStack.floor, h.floors, Vm.floors_headD]
  have hcalm : s.Calm (s.unwindScopes s.vm.scopeFloor) := .popScopes _ s
  have hquiet := State.quiet_popScopes (s.vm.scopeDepth - s.vm.scopeFloor) s
  have hbase := h.base.unwindScopes (h.base.scopeFloor hd)
  have hdepth := unwindScopes_depth s s.vm.scopeFloor
  have hshrinks : State.Shrinks s (s.unwindScopes s.vm.scopeFloor) :=
    State.shrinks_popScopes h.wf (Nat.sub_le _ _)
  refine ⟨_, run_leaveCall cfg hd, .quiet ?_ (hquiet.trans ⟨⟨rfl, rfl⟩, rfl⟩) rfl⟩
  refine stores_shrunk h (hshrinks.trans ⟨le_rfl, rfl, fun _ _ => rfl, rfl, rfl, fun _ _ => rfl⟩)
    ⟨hbase.depth, fun i hi => hbase.frames i ?_⟩ (hquiet.toSameText.trans ⟨rfl, rfl⟩) ?_ ?_ ?_
  · rw [hcalm.callDepth]
    exact hi.trans_le (Nat.sub_le _ _)
  · change (a.scopes.take a.floor).length = (s.unwindScopes s.vm.scopeFloor).vm.scopeDepth
    rw [List.length_take, hdepth, hfloor, h.depth, min_comm]
  · change a.floors.tail = (List.range (s.vm.callDepth - 1)).reverse.map fun i =>
      ((s.unwindScopes s.vm.scopeFloor).vm.callStack i).returnScopeDepth
    rw [h.floors, hcalm.callStack, Vm.floors]
    obtain ⟨d, hd⟩ := Nat.exists_eq_succ_of_ne_zero hd
    simp [hd, List.range_succ]
  · intro n i hi
    refine ScopeStack.valueAt_leave n ?_
    have hlt : i < (s.unwindScopes s.vm.scopeFloor).vm.scopeDepth := hi
    rw [hfloor]
    omega

variable {n : Nat} (hn : s.Interned) (hname : s.IsName n)
include hn hname

theorem does_define (hroom : s.HasRoom n) (v : AerVal) :
    ∃ t, exec cfg (.scopeDefine n v) s = .done () t ∧ Does s t .nothing (a.define n v) := by
  have hi : s.vm.scopeDepth - 1 < s.vm.scopeDepth := by have := h.base.depth; omega
  have hdone : exec cfg (.scopeDefine n v) s = .done () (s.vmScopeDefine n v) := by
    refine if_pos ?_
    cases hp : s.placeIn n (s.vm.scopeDepth - 1) with
    | none => rfl
    | some p => exact h.wf.stored p (h.wf.inUse hi hp)
  have hquiet := State.quiet_vmScopeDefine s n v
  obtain ⟨hwf, p, hb⟩ := State.binds_vmScopeDefine h.wf hn hname h.base.depth hroom v
  refine ⟨_, hdone, .quiet ?_ hquiet rfl⟩
  rw [ScopeStack.define, h.depth]
  exact h.bind hb hi hwf (h.base.vmScopeDefine n v) (.vmScopeDefine s n v) hquiet.toSameText

/-- The store of the code writes the innermost binding, or makes one. -/
theorem does_store (hc : cfg.caching = false) {cache : Nat} (hcache : cache < s.chunk.addrCache.length)
    (hroom : (s.locate n).isSome ∨ s.HasRoom n) (v : AerVal) :
    ∃ t, (storeName n cache v).run (exec cfg) s = .done () t ∧ Does s t .nothing (a.store n v) := by
  have hresolve : exec cfg (.resolve n cache) s = .done (s.vmScopeGet n) s := by
    rw [exec, State.resolve, if_pos hcache, hc]
    rfl
  unfold storeName
  simp only [perform, run_bind, run_perform, hresolve, Outcome.done_andThen]
  unfold ScopeStack.store
  cases hnear : a.nearest n with
  | none =>
    have hloc : s.locate n = none := by rw [h.locate hname, hnear]; rfl
    simp only [State.vmScopeGet, hloc, Option.map_none]
    rw [run_perform]
    refine does_define cfg h hn hname (hroom.resolve_left ?_) v
    rw [hloc]
    exact Bool.false_ne_true
  | some i =>
    obtain ⟨hi, p, hp, hloc, -⟩ := h.nearest hname hnear
    have hstored : s.isStored (s.placeAddr p) = true := h.wf.stored p (h.wf.inUse hi hp)
    simp only [State.vmScopeGet, hloc, Option.map_some]
    rw [run_perform]
    have hquiet := State.quiet_writeAddr s (s.placeAddr p) v
    refine ⟨_, if_pos hstored, .quiet ?_ hquiet rfl⟩
    exact h.bind (State.binds_writeAddr h.wf hn hname hi hp v) hi
      (State.wf_writeAddr h.wf hn hname hi hp v) (h.base.writeAddr _ v) (.writeAddr s _ v)
      hquiet.toSameText

/-- A parameter is defined in the next slot, or in the one it has. -/
theorem does_defineLocal {slot : Nat} {v : AerVal} (hfit : (ScopeOp.defineLocal slot n v).Fits s) :
    ∃ t, exec cfg (.defineLocal slot n v) s = .done () t ∧ Does s t .nothing (a.define n v) := by
  have hi : s.vm.scopeDepth - 1 < s.vm.scopeDepth := by have := h.base.depth; omega
  have hw := h.wf.scope _ hi
  rw [ScopeStack.define, h.depth]
  rcases hfit with hfind | ⟨rfl, hslot, hplace⟩
  · have hlt := (State.findSlot_some hfind).1
    have hp : s.placeIn n (s.vm.scopeDepth - 1) = some (.slot (s.vm.scopeDepth - 1) slot) := by
      rw [State.placeIn_eq hw, hfind]
    have hdone : exec cfg (.defineLocal slot n v) s =
        .done () (s.withSlot (s.vm.scopeDepth - 1) slot ⟨n, v, none⟩) := by
      have hmax : max (s.vm.scopes (s.vm.scopeDepth - 1)).count (slot + 1) =
          (s.vm.scopes (s.vm.scopeDepth - 1)).count := max_eq_left hlt
      rw [exec, State.defineLocal, if_pos ⟨hlt.le, hlt.trans_le hw.room⟩]
      simp only [AerScope.setSlot, hmax]
      rfl
    refine ⟨_, hdone, .quiet ?_ ⟨⟨rfl, rfl⟩, rfl⟩ rfl⟩
    exact h.bind (State.binds_unbox h.wf hn hname hi hp v) hi
      (State.wf_unbox h.wf hn hname hi hp v) (h.base.congr rfl rfl rfl) ⟨rfl, id, rfl, rfl⟩ ⟨rfl, rfl⟩
  · have hfind : (s.vm.scopes (s.vm.scopeDepth - 1)).findSlot n = none := by
      rw [State.placeIn_eq hw] at hplace
      cases hf : (s.vm.scopes (s.vm.scopeDepth - 1)).findSlot n with
      | none => rfl
      | some j =>
        rw [hf] at hplace
        cases hplace
    have hdone : exec cfg (.defineLocal (s.vm.scopes (s.vm.scopeDepth - 1)).count n v) s =
        .done () (s.addSlot (s.vm.scopeDepth - 1) ⟨n, v, none⟩) := by
      rw [exec, State.defineLocal, if_pos ⟨le_rfl, hslot⟩]
      simp only [AerScope.setSlot, max_eq_right (Nat.le_succ _)]
      rfl
    refine ⟨_, hdone, .quiet ?_ ⟨⟨rfl, rfl⟩, rfl⟩ rfl⟩
    exact h.bind (State.binds_addSlot h.wf hi hfind v) hi (State.wf_addSlot h.wf hi hfind hslot v)
      (h.base.congr rfl rfl rfl) ⟨rfl, id, rfl, rfl⟩ ⟨rfl, rfl⟩

omit hn in
theorem does_undefined :
    Does s (s.addError (notDefined (s.nameText n))) (.undefined n) a where
  stores := ⟨⟨h.wf.boxes, h.wf.scope, h.wf.stored, h.wf.apart, h.wf.spilled⟩, h.base, h.depth,
    h.floors, h.value⟩
  text := ⟨rfl, rfl⟩
  errors := rfl

omit hn in
/-- The load of the code reads the innermost binding. -/
theorem does_load (hc : cfg.caching = false) {cache : Nat}
    (hcache : cache < s.chunk.addrCache.length) :
    ∃ t, (loadName n cache).run (exec cfg) s = .done (a.read n) t ∧ Does s t (a.read n) a := by
  have hresolve : exec cfg (.resolve n cache) s = .done (s.vmScopeGet n) s := by
    rw [exec, State.resolve, if_pos hcache, hc]
    rfl
  unfold loadName
  simp only [perform, run_bind, run_perform, hresolve, Outcome.done_andThen]
  cases hnear : a.nearest n with
  | none =>
    have hloc : s.locate n = none := by rw [h.locate hname, hnear]; rfl
    have hlook : a.lookup n = none := by rw [ScopeStack.lookup, hnear]; rfl
    obtain ⟨c, hpool, hlive⟩ := hname
    have htext : exec cfg (.nameText n) s = .done (s.nameText n) s := by
      simp only [exec, hpool, State.stringData, if_pos hlive, State.nameText, Chunk.nameText]
      rfl
    simp only [State.vmScopeGet, hloc, Option.map_none, run_bind, run_perform, htext,
      Outcome.done_andThen]
    rw [ScopeStack.read, hlook]
    exact ⟨_, rfl, does_undefined h ⟨c, hpool, hlive⟩⟩
  | some i =>
    obtain ⟨hi, p, hp, hloc, hlook⟩ := h.nearest hname hnear
    obtain ⟨v, hv⟩ := Option.isSome_iff_exists.mp (h.wf.stored p (h.wf.inUse hi hp))
    have hload : exec cfg (.load (s.placeAddr p)) s = .done v s := by
      rw [exec, hv]
      rfl
    simp only [State.vmScopeGet, hloc, Option.map_some, run_bind, run_perform, hload,
      Outcome.done_andThen]
    rw [ScopeStack.read, hlook, hv]
    exact ⟨_, rfl, .quiet h (.refl s) rfl⟩

omit hn in
/-- A binding that is moved with its value is the same binding. -/
theorem stores_moved {t : State} {i : Nat} {p : Place} {v : AerVal} (hb : State.Binds s t n i p v)
    (hv : s.valueIn n i = some v) (hw : t.ScopesWf) (hbase : t.vm.Scoped) (hc : s.Calm t)
    (htext : State.SameText s t) : Stores t a where
  wf := hw
  base := hbase
  depth := hb.depth ▸ h.depth
  floors := h.floors.trans (Vm.floors_congr hc.callDepth hc.callStack).symm
  value m hm j hj := by
    have hm' := (htext.isName m).mp hm
    rw [hb.depth] at hj
    rw [hb.valueIn h.wf hm' hj, h.value m hm' j hj]
    split
    · next heq => rw [heq.1, heq.2, hv]
    · rfl

/-- Marking the map of a scope leaves every binding as it is. -/
theorem stores_marked (i : Nat) : Stores
    { s with vm := s.vm.setScope i { s.vm.scopes i with overflowHasCaptures := true } } a := by
  generalize ht : ({ s with vm := _ } : State) = t
  have hscopes : ∀ k, (t.vm.scopes k).slots = (s.vm.scopes k).slots ∧
      (t.vm.scopes k).count = (s.vm.scopes k).count ∧
      (t.vm.scopes k).overflow = (s.vm.scopes k).overflow ∧
      (t.vm.scopes k).map = (s.vm.scopes k).map := by
    intro k
    rw [← ht]
    simp only [Vm.setScope, Function.update_apply]
    split
    · next hk =>
      subst hk
      exact ⟨rfl, rfl, rfl, rfl⟩
    · exact ⟨rfl, rfl, rfl, rfl⟩
  have hheap : t.heap = s.heap := by rw [← ht]
  have hsame : State.SamePlaces s t :=
    ⟨by rw [← ht]; rfl, by rw [← ht]; rfl, fun k => (hscopes k).2.1, fun k l => by rw [(hscopes k).1],
      fun k => (hscopes k).2.2.1, fun k => (hscopes k).2.2.2⟩
  have haddr : ∀ q, t.placeAddr q = s.placeAddr q := by
    intro q
    cases q with
    | entry k e => rfl
    | slot k l => simp only [State.placeAddr, AerScope.slotAddr, (hscopes k).1]
  have hread : ∀ b, t.readAddr b = s.readAddr b := by
    intro b
    cases b with
    | box b => simp only [State.readAddr, hheap]
    | slot k l => simp only [State.readAddr, hsame.depth, hsame.count, (hscopes k).1]
  refine ⟨⟨hheap ▸ h.wf.boxes, fun k hk => hsame.scope (h.wf.scope k (hsame.depth ▸ hk)), ?_, ?_, ?_⟩,
    h.base.congr hsame.depth (by rw [← ht]; rfl) (by rw [← ht]; rfl), hsame.depth ▸ h.depth,
    h.floors.trans (Vm.floors_congr (by rw [← ht]; rfl) (by rw [← ht]; rfl)).symm, ?_⟩
  · intro q hq
    rw [haddr, hread]
    exact h.wf.stored q ((hsame.inUse q).mp hq)
  · intro q r hq hr heq
    rw [haddr, haddr] at heq
    exact h.wf.apart q r ((hsame.inUse q).mp hq) ((hsame.inUse r).mp hr) heq
  · intro q e hq he
    rw [haddr] at he
    rw [hheap]
    exact h.wf.spilled q e ((hsame.inUse q).mp hq) he
  · intro m hm k hk
    have hm' : s.IsName m := by
      rw [← ht] at hm
      exact hm
    rw [h.value m hm' k (hsame.depth ▸ hk), State.valueIn, State.valueIn, hsame.placeIn]
    simp only [haddr, hread]

/-- A captured variable keeps its binding and its value, wherever it is stored then. -/
theorem does_capture :
    ∃ t, (captureName n).run (exec cfg) s = .done (a.need n) t ∧ Does s t (a.need n) a := by
  unfold captureName
  cases hnear : a.nearest n with
  | none =>
    have hloc : s.locate n = none := by rw [h.locate hname, hnear]; rfl
    have hlook : a.lookup n = none := by rw [ScopeStack.lookup, hnear]; rfl
    have hdone : exec cfg (.boxSlot n) s = .done none (s.addError (notDefined (s.nameText n))) := by
      simp only [exec, State.vmBoxSlot, hloc]
      rfl
    simp only [perform, run_bind, run_perform, hdone, Outcome.done_andThen]
    rw [ScopeStack.need, hlook]
    exact ⟨_, rfl, does_undefined h hname⟩
  | some i =>
    obtain ⟨hi, p, hp, hloc, hlook⟩ := h.nearest hname hnear
    obtain ⟨v, hv⟩ := Option.isSome_iff_exists.mp (h.wf.stored p (h.wf.inUse hi hp))
    have hseen : a.need n = .nothing := by rw [ScopeStack.need, hlook, hv]
    rw [hseen]
    cases p with
    | entry k e =>
      have hdone : exec cfg (.boxSlot n) s = .done (some (.spilled e))
          { s with vm := s.vm.setScope k { s.vm.scopes k with overflowHasCaptures := true } } := by
        simp only [exec, State.vmBoxSlot, hloc]
      simp only [perform, run_bind, run_perform, hdone, Outcome.done_andThen]
      exact ⟨_, rfl, .quiet (stores_marked h hn hname k) ⟨⟨rfl, rfl⟩, rfl⟩ rfl⟩
    | slot k j =>
      obtain ⟨rfl, hj⟩ := State.placeIn_slot hp
      cases hbox : ((s.vm.scopes k).slots j).box with
      | some b =>
        have hdone : exec cfg (.boxSlot n) s = .done (some b) s := by
          simp only [exec, State.vmBoxSlot, hloc, hbox]
        simp only [perform, run_bind, run_perform, hdone, Outcome.done_andThen]
        exact ⟨_, rfl, .quiet h (.refl s) rfl⟩
      | none =>
        obtain ⟨b, g, hnew⟩ : ∃ b g, s.heap.newBox ((s.vm.scopes k).slots j).val = (b, g) :=
          ⟨_, _, rfl⟩
        have hname' := (State.findSlot_some hj).2
        have hslot : { (s.vm.scopes k).slots j with box := some b } =
            (⟨n, ((s.vm.scopes k).slots j).val, some b⟩ : ScopeSlot) := by simp only [hname']
        have hdone : exec cfg (.boxSlot n) s = .done (some b) (State.withSlot { s with heap := g } k j
            ⟨n, ((s.vm.scopes k).slots j).val, some b⟩) := by
          simp only [exec, State.vmBoxSlot, hloc, hbox, hnew, hslot]
          rfl
        have hvalue : s.valueIn n k = some ((s.vm.scopes k).slots j).val := by
          rw [State.valueIn, hp]
          simp only [Option.bind_some, State.placeAddr, AerScope.slotAddr, hbox]
          exact if_pos (h.wf.inUse hi hp)
        simp only [perform, run_bind, run_perform, hdone, Outcome.done_andThen]
        refine ⟨_, rfl, .quiet ?_ ⟨⟨rfl, ?_⟩, rfl⟩ rfl⟩
        · refine stores_moved h hname (State.binds_box h.wf hn hname hi hp hnew _) hvalue
            (State.wf_box h.wf hn hname hi hp hnew _) (h.base.congr rfl rfl rfl)
            ⟨rfl, id, rfl, rfl⟩ ⟨rfl, ?_⟩
          cases hnew
          rfl
        · cases hnew
          rfl

end Steps

/-- One operation on stored maps. -/
theorem does {cfg : Config} (hc : cfg.caching = false) {s : State} {a b : ScopeStack Nat AerVal}
    {seen : Seen Nat AerVal} (h : Stores s a) (hn : s.Interned) {op : ScopeOp}
    (hnames : ∀ n ∈ op.names, s.IsName n) (hfit : op.Fits s) (hspec : op.spec a = some (seen, b)) :
    ∃ t, op.handler.run (exec cfg) s = .done seen t ∧ Does s t seen b := by
  cases op with
  | pushScope =>
    obtain ⟨hroom, hspec⟩ := Option.ite_none_right_eq_some.mp hspec
    cases hspec
    obtain ⟨t, ht, hdoes⟩ := does_pushScope cfg h (h.depth ▸ hroom)
    exact ⟨t, by simp only [handler, perform, run_bind, run_perform, ht]; rfl, hdoes⟩
  | popScope =>
    obtain ⟨hroom, hspec⟩ := Option.ite_none_left_eq_some.mp hspec
    cases hspec
    obtain ⟨t, ht, hdoes⟩ := does_popScope cfg h (h.depth ▸ hroom)
    exact ⟨t, by simp only [handler, perform, run_bind, run_perform, ht]; rfl, hdoes⟩
  | enter function returnIp =>
    obtain ⟨hroom, hspec⟩ := Option.ite_none_right_eq_some.mp hspec
    cases hspec
    rw [h.floors, Vm.length_floors] at hroom
    obtain ⟨t, ht, hdoes⟩ := does_enter cfg h function returnIp hroom
    exact ⟨t, by simp only [handler, perform, run_bind, run_perform, ht]; rfl, hdoes⟩
  | leave =>
    obtain ⟨hroom, hspec⟩ := Option.ite_none_left_eq_some.mp hspec
    cases hspec
    rw [h.floors, Vm.length_floors] at hroom
    obtain ⟨t, ht, hdoes⟩ := does_leave cfg h hroom
    exact ⟨t, by simp only [handler, run_bind, ht]; rfl, hdoes⟩
  | define name v =>
    cases hspec
    obtain ⟨t, ht, hdoes⟩ := does_define cfg h hn (hnames name (by simp [names])) hfit v
    exact ⟨t, by simp only [handler, perform, run_bind, run_perform, ht]; rfl, hdoes⟩
  | defineLocal slot name v =>
    cases hspec
    obtain ⟨t, ht, hdoes⟩ := does_defineLocal cfg h hn (hnames name (by simp [names])) hfit
    exact ⟨t, by simp only [handler, perform, run_bind, run_perform, ht]; rfl, hdoes⟩
  | store name cache v =>
    cases hspec
    obtain ⟨t, ht, hdoes⟩ := does_store cfg h hn (hnames name (by simp [names])) hc hfit.1 hfit.2 v
    exact ⟨t, by simp only [handler, run_bind, ht]; rfl, hdoes⟩
  | load name cache =>
    cases hspec
    exact does_load cfg h (hnames name (by simp [names])) hc hfit
  | capture name =>
    cases hspec
    exact does_capture cfg h hn (hnames name (by simp [names]))

/-- At the end of the scopes or of the calls the machine stops. -/
theorem stops (cfg : Config) {s : State} {a : ScopeStack Nat AerVal} (h : Stores s a) {op : ScopeOp}
    (hspec : op.spec a = none) : ∃ w t, op.handler.run (exec cfg) s = .stop w t := by
  cases op with
  | pushScope =>
    have hroom : ¬ s.vm.scopeDepth < vmScopeMax := by
      intro hroom
      rw [spec, h.depth, if_pos hroom] at hspec
      cases hspec
    have hstop : exec cfg .pushScope s = .stop _ _ := if_neg hroom
    exact ⟨_, _, by simp only [handler, perform, run_bind, run_perform, hstop]; rfl⟩
  | popScope =>
    have hroom : s.vm.scopeDepth ≤ 1 := by
      by_contra hroom
      rw [spec, h.depth, if_neg hroom] at hspec
      cases hspec
    have hstop : exec cfg .popScope s = .stop _ _ := if_pos hroom
    exact ⟨_, _, by simp only [handler, perform, run_bind, run_perform, hstop]; rfl⟩
  | enter function returnIp =>
    have hroom : ¬ s.vm.callDepth < vmCallMax := by
      intro hroom
      rw [spec, h.floors, Vm.length_floors, if_pos hroom] at hspec
      cases hspec
    have hstop : exec cfg (.pushFrame function returnIp) s = .stop _ _ := if_neg hroom
    exact ⟨_, _, by simp only [handler, perform, run_bind, run_perform, hstop]; rfl⟩
  | leave =>
    have hroom : s.vm.callDepth = 0 := by
      by_contra hroom
      rw [spec, h.floors, Vm.length_floors, if_neg hroom] at hspec
      cases hspec
    have hstop : exec cfg .unwindScopes s = .stop _ _ := if_pos hroom
    exact ⟨_, _, by simp only [handler, leaveCall, perform, run_bind, run_perform, hstop]; rfl⟩
  | define _ _ | defineLocal _ _ _ | store _ _ _ | load _ _ | capture _ => cases hspec

/-- The operations one after another, with what is observed of them. -/
def runAll (cfg : Config) : List ScopeOp → State → Result (List (Seen Nat AerVal))
  | [], s => .done [] s
  | op :: ops, s =>
      (op.handler.run (exec cfg) s).andThen fun seen t =>
        (runAll cfg ops t).andThen fun rest u => .done (seen :: rest) u

def specAll : List ScopeOp → ScopeStack Nat AerVal →
    Option (List (Seen Nat AerVal) × ScopeStack Nat AerVal)
  | [], a => some ([], a)
  | op :: ops, a => do
      let (seen, b) ← op.spec a
      let (rest, c) ← specAll ops b
      return (seen :: rest, c)

/-- Every operation keeps to the promises where it is performed. -/
def FitsAll (cfg : Config) : List ScopeOp → State → Prop
  | [], _ => True
  | op :: ops, s => op.Fits s ∧
      match op.handler.run (exec cfg) s with
      | .done _ t => FitsAll cfg ops t
      | .stop _ _ => True

/-- The same observations, and maps stored as they are to be; only names without a
binding are reported, each time one is asked for. Or both are at an end. -/
inductive Agrees (s : State) : Result (List (Seen Nat AerVal)) →
    Option (List (Seen Nat AerVal) × ScopeStack Nat AerVal) → Prop
  | done {t : State} {seen : List (Seen Nat AerVal)} {b : ScopeStack Nat AerVal} (h : Stores t b)
      (errors : t.errors.map Prod.snd =
        (seen.flatMap (messages s)).reverse ++ s.errors.map Prod.snd) :
      Agrees s (.done seen t) (some (seen, b))
  | stop {w : Stop} {t : State} : Agrees s (.stop w t) none

theorem agrees {cfg : Config} (hc : cfg.caching = false) {ops : List ScopeOp} {s : State}
    {a : ScopeStack Nat AerVal} (h : Stores s a) (hn : s.Interned)
    (hnames : ∀ op ∈ ops, ∀ n ∈ op.names, s.IsName n) (hfits : FitsAll cfg ops s) :
    Agrees s (runAll cfg ops s) (specAll ops a) := by
  induction ops generalizing s a with
  | nil => exact .done h rfl
  | cons op ops ih =>
    obtain ⟨hfit, hrest⟩ := hfits
    unfold runAll specAll
    cases hspec : op.spec a with
    | none =>
      obtain ⟨w, t, hstop⟩ := stops cfg h hspec
      rw [hstop]
      exact .stop
    | some r =>
      obtain ⟨seen, b⟩ := r
      obtain ⟨t, ht, hdoes⟩ := does hc h hn (hnames op (by simp)) hfit hspec
      rw [ht] at hrest ⊢
      have hnext := ih hdoes.stores (hdoes.text.interned hn)
        (fun o ho n hm => (hdoes.text.isName n).mpr (hnames o (by simp [ho]) n hm)) hrest
      have hmessages : messages t = messages s := by
        funext seen
        cases seen <;> simp only [messages, hdoes.text.nameText]
      rw [Outcome.done_andThen]
      change Agrees s _ ((specAll ops b).bind fun r => some (seen :: r.1, r.2))
      revert hnext
      generalize runAll cfg ops t = r, specAll ops b = q
      rintro (⟨hstores, herrors⟩ | _)
      · refine .done hstores ?_
        rw [herrors, hmessages, hdoes.errors, List.flatMap_cons, List.reverse_append, List.append_assoc]
        congr 2
        cases seen <;> rfl
      · exact .stop

instance (s : State) (op : ScopeOp) : Decidable (op.Fits s) :=
  match op with
  | define name _ => inferInstanceAs (Decidable (_ ∨ _ ∨ _))
  | defineLocal slot name _ => inferInstanceAs (Decidable (_ ∨ _ ∧ _ ∧ _))
  | store name cache _ => inferInstanceAs (Decidable (_ ∧ (_ ∨ _ ∨ _ ∨ _)))
  | load _ cache => inferInstanceAs (Decidable (cache < s.chunk.addrCache.length))
  | pushScope | popScope | enter _ _ | leave | capture _ => inferInstanceAs (Decidable True)

instance decidableFitsAll (cfg : Config) :
    (ops : List ScopeOp) → (s : State) → Decidable (FitsAll cfg ops s)
  | [], _ => inferInstanceAs (Decidable True)
  | op :: ops, s =>
      @instDecidableAnd _ _ _ <|
        match op.handler.run (exec cfg) s with
        | .done _ t => decidableFitsAll cfg ops t
        | .stop _ _ => inferInstanceAs (Decidable True)

/-- No call is in progress and nothing is defined. -/
structure Fresh (s : State) : Prop where
  scopeDepth : s.vm.scopeDepth = 1
  callDepth : s.vm.callDepth = 0
  scope : s.vm.scopes 0 = .empty
  boxes : s.heap.boxes.Wf

theorem Fresh.stores {s : State} (hs : Fresh s) : Stores s .init := by
  have hempty : ∀ q, ¬ s.InUse q := by
    intro q hq
    cases q with
    | slot i j =>
      obtain ⟨hi, hj⟩ := hq
      obtain rfl : i = 0 := by have := hs.scopeDepth; omega
      rw [hs.scope] at hj
      exact Nat.not_lt_zero j hj
    | entry i e =>
      obtain ⟨hi, k, hk⟩ := hq
      obtain rfl : i = 0 := by have := hs.scopeDepth; omega
      rw [hs.scope] at hk
      simp [AerScope.empty, HashTable.empty] at hk
  have hzero : ∀ i < s.vm.scopeDepth, i = 0 := by
    intro i hi
    have := hs.scopeDepth
    omega
  refine ⟨⟨hs.boxes, fun i hi => ?_, fun q hq => absurd hq (hempty q),
    fun q _ hq => absurd hq (hempty q), fun q _ hq => absurd hq (hempty q)⟩, ?_, ?_, ?_, ?_⟩
  · rw [hzero i hi, hs.scope]
    exact AerScope.wf_empty
  · exact ⟨hs.scopeDepth.ge, fun i hi => absurd (hs.callDepth ▸ hi) (Nat.not_lt_zero i)⟩
  · exact hs.scopeDepth.symm
  · rw [Vm.floors, hs.callDepth]
    rfl
  · intro n _ i hi
    rw [hzero i hi, State.valueIn, State.placeIn, hs.scope]
    rfl

/-- The scope store is a stack of finite maps: every run of the operations shows what
the maps show, as long as each parameter of a scope gets a slot of its own. -/
theorem scopes_refine {cfg : Config} (hc : cfg.caching = false) {s : State} (hs : Fresh s)
    (hn : s.Interned) (ops : List ScopeOp) (hnames : ∀ op ∈ ops, ∀ n ∈ op.names, s.IsName n)
    (hfits : FitsAll cfg ops s) : Agrees s (runAll cfg ops s) (specAll ops .init) :=
  agrees hc hs.stores hn hnames hfits

/-- A machine whose chunk names the variables `a` and `b`. -/
def twoNames : State :=
  let (a, heap) := Heap.init.aerMakeString (bytes "a")
  let (b, heap) := heap.aerMakeString (bytes "b")
  { State.init with heap, chunk := { Chunk.init with pool := [a, b], addrCache := [none] } }

def small (n : Nat) (h : IsInt47 n := by decide) : AerVal := .integer ⟨n, h⟩

/-- A captured global, written in a call and read after it, and an unknown name. -/
def sampleOps : List ScopeOp :=
  [.define 0 (small 1), .enter 0 0, .pushScope, .defineLocal 0 1 (small 2), .capture 0,
    .store 0 0 (small 3), .store 1 0 (small 4), .load 1 0, .leave, .load 0 0, .load 1 0]

theorem isName_twoNames {n : Nat} : twoNames.IsName n ↔ n < 2 := by
  constructor
  · rintro ⟨c, hc, -⟩
    exact (List.getElem?_eq_some_iff.mp hc).1
  · intro hn
    match n, hn with
    | 0, _ => exact ⟨0, rfl, by decide +kernel⟩
    | 1, _ => exact ⟨1, rfl, by decide +kernel⟩

theorem interned_twoNames : twoNames.Interned := by
  intro m n hm hn
  rw [isName_twoNames] at hm hn
  have : ∀ m < 2, ∀ n < 2, twoNames.nameText m = twoNames.nameText n → m = n := by decide +kernel
  exact this m hm n hn

theorem fresh_twoNames : Fresh twoNames :=
  ⟨rfl, rfl, rfl, Pool.wf_init (by decide)⟩

theorem scopes_refine_sample :
    Agrees twoNames (runAll { caching := false } sampleOps twoNames) (specAll sampleOps .init) :=
  scopes_refine rfl fresh_twoNames interned_twoNames sampleOps
    (fun op hop n hn => isName_twoNames.mpr (by revert op n; decide +kernel)) (by decide +kernel)

example : (specAll sampleOps .init).map Prod.fst = some
    [.nothing, .nothing, .nothing, .nothing, .nothing, .nothing, .nothing, .value (small 4), .nothing,
      .value (small 3), .undefined 1] := by decide +kernel

/-- The observations of a run. -/
def seenOf {ρ : Type} : Result ρ → Option ρ
  | .done seen _ => some seen
  | .stop _ _ => none

theorem Agrees.seenOf {s : State} {r : Result (List (Seen Nat AerVal))}
    {q : Option (List (Seen Nat AerVal) × ScopeStack Nat AerVal)} (h : Agrees s r q) :
    seenOf r = q.map Prod.fst := by
  cases h <;> rfl

/-- A call of a function with two parameters of one name. -/
def twinOps : List ScopeOp :=
  [.enter 0 0, .pushScope, .defineLocal 0 0 (small 2), .defineLocal 1 0 (small 1), .load 0 0]

/-- The last definition is in the second slot, and the name is found in the first. -/
theorem twins_differ : Fresh twoNames ∧ twoNames.Interned ∧
    (∀ op ∈ twinOps, ∀ n ∈ op.names, twoNames.IsName n) ∧
    ¬ Agrees twoNames (runAll { caching := false } twinOps twoNames) (specAll twinOps .init) := by
  refine ⟨fresh_twoNames, interned_twoNames, fun op hop n hn => ?_, fun h => ?_⟩
  · exact isName_twoNames.mpr (by revert op n; decide +kernel)
  · have hseen := h.seenOf
    revert hseen
    decide +kernel

end ScopeOp

end Aer.Machine
