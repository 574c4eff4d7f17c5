import Aer.Machine.Step
import Aer.Memory.Growth

set_option linter.all false

/-! What the machine keeps of the constants: the pool of the chunk, and the data of the
strings, functions and long integers in use. -/
namespace Aer.Memory

open Aer.Data

/-- The cells that may be written while they are in use. -/
def Cell.IsContainer : Cell → Prop
  | .array _ | .dict _ => True
  | .string _ | .function _ | .long _ => False

namespace Heap

variable {h h' : Heap}

/-- A heap of the same strings, functions and long integers. -/
structure SameConstants (h h' : Heap) : Prop where
  strings : h'.strings = h.strings
  functions : h'.functions = h.functions
  longs : h'.longs = h.longs

theorem SameConstants.refl (h : Heap) : SameConstants h h := ⟨rfl, rfl, rfl⟩

theorem SameConstants.grows (hc : SameConstants h h')
    (hlive : ∀ n, n.IsContainer → h.Live n → h'.Live n) (hwf : h.PoolsWf → h'.PoolsWf) :
    GrowsBut Cell.IsContainer h h' where
  live n hn := by
    cases n with
    | string c => simpa only [Live, hc.strings] using hn
    | function c => simpa only [Live, hc.functions] using hn
    | long c => simpa only [Live, hc.longs] using hn
    | array c | dict c => exact hlive _ trivial hn
  data n _ hx := by
    cases n with
    | string c => exact congrArg (·.data c) hc.strings
    | function c => exact congrArg (·.data c) hc.functions
    | long c => exact congrArg (·.data c) hc.longs
    | array c | dict c => exact absurd trivial hx
  wf := hwf

theorem SameConstants.stored {n : Cell} {vs : List AerVal} (hc : SameConstants h h')
    (hs : Stored h h' n vs) : GrowsBut Cell.IsContainer h h' :=
  hc.grows (fun m _ hm => (hs.live m).mpr hm) hs.wf

theorem sameConstants_gcRemember (h : Heap) (r : Remembered) : SameConstants h (h.gcRemember r) := by
  unfold gcRemember
  split <;> split <;> exact ⟨rfl, rfl, rfl⟩

theorem sameConstants_gcBarrierArray (h : Heap) (c : Nat) (v : AerVal) :
    SameConstants h (h.gcBarrierArray c v) := by
  unfold gcBarrierArray
  split
  · exact .refl h
  · split
    · exact .refl h
    · exact sameConstants_gcRemember h _

theorem sameConstants_gcBarrierDict (h : Heap) (c : Nat) (v : AerVal) :
    SameConstants h (h.gcBarrierDict c v) := by
  unfold gcBarrierDict
  split
  · exact .refl h
  · split
    · exact .refl h
    · exact sameConstants_gcRemember h _

theorem SameConstants.setArray (hc : SameConstants h h') (c : Nat) (a : AerArray) :
    SameConstants h (h'.setArray c a) := ⟨hc.strings, hc.functions, hc.longs⟩

theorem SameConstants.setDict (hc : SameConstants h h') (c : Nat) (d : HashTable AerVal) :
    SameConstants h (h'.setDict c d) := ⟨hc.strings, hc.functions, hc.longs⟩

theorem grows_appendItem (h : Heap) (c : Nat) (v : AerVal) :
    GrowsBut Cell.IsContainer h (h.appendItem c v) := by
  obtain ⟨vs, hs, -⟩ := h.stored_appendItem c v
  exact ((sameConstants_gcBarrierArray h c v).setArray c _).stored hs

theorem grows_setItem (h : Heap) (c i : Nat) (v : AerVal) :
    GrowsBut Cell.IsContainer h (h.setItem c i v) := by
  obtain ⟨vs, hs, -⟩ := h.stored_setItem c i v
  exact ((sameConstants_gcBarrierArray h c v).setArray c _).stored hs

theorem grows_setEntry (h : Heap) (c : Nat) (key : Bytes) (v : AerVal) :
    GrowsBut Cell.IsContainer h (h.setEntry c key v) := by
  obtain ⟨vs, hs, -⟩ := h.stored_setEntry c key v
  refine SameConstants.stored ?_ hs
  unfold setEntry
  dsimp only
  split <;> exact (sameConstants_gcBarrierDict h c v).setDict c _

theorem grows_deleteEntry (h : Heap) (c : Nat) (key : Bytes) :
    GrowsBut Cell.IsContainer h (h.deleteEntry c key) :=
  (growsBut_setDict h c _).weaken fun _ hn => hn ▸ trivial

theorem grows_deleteItem (h : Heap) (c i : Nat) :
    GrowsBut Cell.IsContainer h (h.deleteItem c i) :=
  (growsBut_setArray h c _).weaken fun _ hn => hn ▸ trivial

/-- A change of the boxes and of the overflowed variables alone. -/
theorem grows_of_pools (hs : h'.strings = h.strings) (ha : h'.arrays = h.arrays)
    (hd : h'.dicts = h.dicts) (hf : h'.functions = h.functions) (hl : h'.longs = h.longs) :
    Grows h h' where
  live n hn := by cases n <;> simpa only [Live, hs, ha, hd, hf, hl] using hn
  data n _ _ := by cases n <;> simp only [SameData, hs, ha, hd, hf, hl]
  wf hw := ⟨hs ▸ hw.strings, ha ▸ hw.arrays, hd ▸ hw.dicts, hf ▸ hw.functions, hl ▸ hw.longs⟩

theorem grows_writeBox (h : Heap) (b : BoxRef) (v : AerVal) : Grows h (h.writeBox b v) := by
  cases b <;> exact grows_of_pools rfl rfl rfl rfl rfl

theorem grows_newEntry (h : Heap) (v : AerVal) : Grows h (h.newEntry v).2 :=
  grows_of_pools rfl rfl rfl rfl rfl

theorem grows_newBox (h : Heap) (v : AerVal) : Grows h (h.newBox v).2 :=
  grows_of_pools rfl rfl rfl rfl rfl

theorem grows_freeEntries (h : Heap) (es : List Nat) : Grows h (h.freeEntries es) :=
  grows_of_pools rfl rfl rfl rfl rfl

theorem grows_gcBarrierBox (h : Heap) (b : BoxRef) (v : AerVal) : Grows h (h.gcBarrierBox b v) := by
  unfold gcBarrierBox gcRemember
  cases b <;> dsimp only <;> split <;> first | exact .refl _ _ | skip
  all_goals split <;> exact grows_of_pools rfl rfl rfl rfl rfl

end Heap

end Aer.Memory

namespace Aer.Machine

open Aer.Data Aer.Memory Aer.Lib.Interaction

/-- A step of the machine as the constants see it. -/
structure State.Keeps (s t : State) : Prop where
  pool : t.chunk.pool = s.chunk.pool
  names : t.chunk.nameIndex = s.chunk.nameIndex
  heap : s.heap.PoolsWf → Heap.GrowsBut Cell.IsContainer s.heap t.heap

namespace State.Keeps

variable {s t u : State}

theorem of_heap (hc : t.chunk = s.chunk) (hh : t.heap = s.heap) : s.Keeps t :=
  ⟨hc ▸ rfl, hc ▸ rfl, fun _ => hh ▸ .refl _ _⟩

theorem of_grows (hc : t.chunk = s.chunk)
    (hg : s.heap.PoolsWf → Heap.GrowsBut Cell.IsContainer s.heap t.heap) : s.Keeps t :=
  ⟨hc ▸ rfl, hc ▸ rfl, hg⟩

theorem refl (s : State) : s.Keeps s := of_heap rfl rfl

theorem trans (h : s.Keeps t) (h' : t.Keeps u) : s.Keeps u where
  pool := h'.pool.trans h.pool
  names := h'.names.trans h.names
  heap hw := (h.heap hw).trans (h'.heap ((h.heap hw).wf hw))

theorem addErrors (s : State) (msgs : List Bytes) : s.Keeps (msgs.foldl State.addError s) := by
  induction msgs generalizing s with
  | nil => exact .refl s
  | cons msg msgs ih => exact (of_heap rfl rfl : s.Keeps (s.addError msg)).trans (ih _)

theorem writeAddr (s : State) (a : Addr) (v : AerVal) : s.Keeps (s.writeAddr a v) := by
  cases a with
  | slot i j => exact of_heap rfl rfl
  | box b => exact of_grows rfl fun _ => (Heap.grows_writeBox s.heap b v).but _

theorem vmScopeDefine (s : State) (name : Nat) (v : AerVal) : s.Keeps (s.vmScopeDefine name v) := by
  unfold State.vmScopeDefine
  dsimp only
  split
  · exact writeAddr s _ v
  · split
    · exact of_heap rfl rfl
    · split
      · refine trans ?_ (writeAddr _ _ v)
        exact of_heap rfl rfl
      · exact of_grows rfl fun _ => (Heap.grows_newEntry s.heap v).but _

theorem vmBoxSlot {name : Nat} {b : BoxRef} (h : s.vmBoxSlot name = some (b, t)) : s.Keeps t := by
  unfold State.vmBoxSlot at h
  split at h
  · cases h
  · cases h
    exact of_heap rfl rfl
  · dsimp only at h
    split at h
    · cases h
      exact .refl s
    · cases h
      exact of_grows rfl fun _ => (Heap.grows_newBox s.heap _).but _

theorem popScopes (n : Nat) (s : State) : s.Keeps (State.popScopes n s) := by
  induction n generalizing s with
  | zero => exact .refl s
  | succ n ih =>
    have hpop : s.Keeps s.popOneScope := by
      unfold State.popOneScope State.freeScope
      dsimp only
      split
      · exact of_grows rfl fun _ => (Heap.grows_freeEntries s.heap _).but _
      · exact of_heap rfl rfl
    exact hpop.trans (ih _)

end State.Keeps

/-- A module function allocates, and writes to arrays and dicts alone. -/
def Config.NativeGrows (cfg : Config) : Prop :=
  ∀ calls call r, cfg.native calls call = some r → call.heap.PoolsWf →
    Heap.GrowsBut Cell.IsContainer call.heap r.heap

theorem keeps_store {s t : State} {a : Addr} {v : AerVal} (h : s.store a v = .done () t) :
    s.Keeps t := by
  unfold State.store at h
  split at h <;> cases h
  exact .writeAddr s a v

theorem keeps_callNative {cfg : Config} (hn : cfg.NativeGrows) {s t : State} {module fn : Bytes}
    {n : Nat} {b : Bool} (h : s.callNative cfg.native module fn n = .done b t) : s.Keeps t := by
  unfold State.callNative at h
  split at h
  · dsimp only at h
    split at h
    · cases h
      exact .refl s
    · next r hr =>
      cases h
      refine .trans ?_ (.addErrors _ _)
      exact .of_grows rfl fun hw => hn _ _ r hr hw
  · cases h

/-- Every operation of the machine keeps the constants. -/
theorem exec_keeps {cfg : Config} (hn : cfg.NativeGrows) (o : Op) (s : State) (a : o.Ans) (t : State)
    (h : exec cfg o s = .done a t) : s.Keeps t := by
  cases o with
  | store _ _ => exact keeps_store h
  | storeUpvalue b v =>
    have hbar : s.Keeps { s with heap := s.heap.gcBarrierBox b v } :=
      .of_grows rfl fun _ => (Heap.grows_gcBarrierBox s.heap b v).but _
    exact hbar.trans (keeps_store h)
  | writeLocal slot v =>
    simp only [exec] at h
    split at h
    · exact keeps_store h
    · cases h
  | callNative module fn n => exact keeps_callNative hn h
  | boxSlot name =>
    simp only [exec] at h
    split at h
    · next hb =>
      cases h
      exact .vmBoxSlot hb
    · cases h
      exact .of_heap rfl rfl
  | scopeDefine name v =>
    simp only [exec] at h
    split at h
    · cases h
      exact .vmScopeDefine s name v
    · cases h
  | popScope =>
    simp only [exec, State.popScope] at h
    split at h
    · cases h
    · cases h
      exact .popScopes 1 s
  | unwindScopes =>
    simp only [exec] at h
    split at h
    · cases h
    · cases h
      exact .popScopes _ s
  | newInt n =>
    cases h
    exact .of_grows rfl fun hw => (Heap.grows_aerInt hw n).but _
  | newString b =>
    cases h
    exact .of_grows rfl fun hw => (Heap.grows_aerMakeString hw b).but _
  | newArray a =>
    cases h
    exact .of_grows rfl fun hw => (Heap.grows_newArray hw a).but _
  | newDict d =>
    cases h
    exact .of_grows rfl fun hw => (Heap.grows_newDict hw d).but _
  | newFunction f =>
    cases h
    exact .of_grows rfl fun hw => (Heap.grows_newFunction hw f).but _
  | appendItem c v =>
    cases h
    exact .of_grows rfl fun _ => Heap.grows_appendItem s.heap c v
  | setItem c i v =>
    cases h
    exact .of_grows rfl fun _ => Heap.grows_setItem s.heap c i v
  | deleteItem c i =>
    cases h
    exact .of_grows rfl fun _ => Heap.grows_deleteItem s.heap c i
  | setEntry c key v =>
    cases h
    exact .of_grows rfl fun _ => Heap.grows_setEntry s.heap c key v
  | deleteEntry c key =>
    cases h
    exact .of_grows rfl fun _ => Heap.grows_deleteEntry s.heap c key
  | defineShape shape =>
    cases h
    refine ⟨rfl, rfl, fun _ => Heap.Grows.but ?_ _⟩
    exact Heap.grows_of_pools rfl rfl rfl rfl rfl
  | resolve name cache =>
    simp only [exec, State.resolve] at h
    split at h
    · split at h
      · cases h
        exact .refl s
      · split at h <;> cases h <;> exact ⟨rfl, rfl, fun _ => .refl _ _⟩
    · cases h
  | push v =>
    simp only [exec, State.push] at h
    split at h <;> cases h
    exact .of_heap rfl rfl
  | pop =>
    simp only [exec, State.pop] at h
    split at h <;> cases h <;> exact .of_heap rfl rfl
  | defineLocal slot name v =>
    simp only [exec, State.defineLocal] at h
    split at h <;> cases h
    exact .of_heap rfl rfl
  | pushScope | pushFrame _ _ | pendUpvalue _ | takeUpvalues _ =>
    simp only [exec, State.pushScope, State.pushFrame, State.pendUpvalue, State.takeUpvalues] at h
    split at h <;> cases h
    exact .of_heap rfl rfl
  | setDefers _ | setFrameFunction _ | stashReturn _ | popFrame =>
    simp only [exec, State.updateFrame, State.popFrame] at h
    split at h <;> cases h
    exact .of_heap rfl rfl
  | takeReturn =>
    simp only [exec, State.takeReturn] at h
    split at h
    · split at h <;> cases h
      exact .of_heap rfl rfl
    · cases h
  | read | readIdx | peek _ | poke _ _ | drop _ | argAt _ | slide _ =>
    simp only [exec] at h
    split at h <;> cases h
    exact .of_heap rfl rfl
  | nameText i =>
    simp only [exec] at h
    split at h
    · unfold orFault at h
      split at h <;> cases h
      exact .refl s
    · cases h
  | constant _ | readLocal _ | load _ | frameDefers | frameDraining | upvalue _ | asInt _ | string _
  | array _ | dict _ | function _ | shape _ | format _ | typeName _ =>
    simp only [exec, orFault] at h
    split at h <;> cases h
    exact .refl s
  | fail | halt | fault => cases h
  | _ =>
    cases h
    exact .of_heap rfl rfl

end Aer.Machine
