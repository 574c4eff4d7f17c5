import Aer.Data.TableLimit
import Aer.Machine.Ops

set_option linter.all false

/-! The bindings of the scopes: where each one is kept, and what the operations on the
scopes do to the places in use. -/
namespace Aer.Machine

open Aer.Data Aer.Memory

structure AerScope.Wf (s : AerScope) : Prop where
  room : s.count ≤ scopeSlotMax
  table : s.map.WellFormed
  overflow : s.overflow = false → s.map = .empty
  keys : ∀ k k' e, some (k, e) ∈ s.map.buckets → some (k', e) ∈ s.map.buckets → k = k'

theorem AerScope.wf_empty : AerScope.empty.Wf where
  room := Nat.zero_le _
  table := .empty
  overflow _ := rfl
  keys := by
    intro k k' e h
    simp [AerScope.empty, HashTable.empty] at h

namespace State

variable {s t : State}

/-- A place that holds a variable of a scope on the stack. -/
def InUse (s : State) : Place → Prop
  | .slot i j => i < s.vm.scopeDepth ∧ j < (s.vm.scopes i).count
  | .entry i e => i < s.vm.scopeDepth ∧ ∃ k, some (k, e) ∈ (s.vm.scopes i).map.buckets

/-- The value of a name in one scope. -/
def valueIn (s : State) (name i : Nat) : Option AerVal :=
  (s.placeIn name i).bind fun p => s.readAddr (s.placeAddr p)

/-- The pool entry is a string. -/
def IsName (s : State) (name : Nat) : Prop :=
  ∃ c, s.chunk.pool[name]? = some (.string c) ∧ s.heap.strings.Live c

/-- Every text has one entry in the constant pool. -/
def Interned (s : State) : Prop :=
  ∀ m n, s.IsName m → s.IsName n → s.nameText m = s.nameText n → m = n

/-- The stored variables: each in use has an address of its own that can be read. -/
structure ScopesWf (s : State) : Prop where
  boxes : s.heap.boxes.Wf
  scope : ∀ i < s.vm.scopeDepth, (s.vm.scopes i).Wf
  stored : ∀ p, s.InUse p → (s.readAddr (s.placeAddr p)).isSome
  apart : ∀ p q, s.InUse p → s.InUse q → s.placeAddr p = s.placeAddr q → p = q
  spilled : ∀ p e, s.InUse p → s.placeAddr p = .box (.spilled e) → e < s.heap.entryCount

theorem nameText_cString (s : State) (n : Nat) : cString (s.nameText n) = s.nameText n := by
  unfold nameText Chunk.nameText
  split
  · exact cString_idem _
  · rfl

/-- A scope that has not overflowed has an empty map. -/
theorem placeIn_eq {i : Nat} (h : (s.vm.scopes i).Wf) (n : Nat) :
    s.placeIn n i = match (s.vm.scopes i).findSlot n with
      | some j => some (.slot i j)
      | none => ((s.vm.scopes i).map.get (s.nameText n)).map (.entry i) := by
  unfold placeIn
  simp only []
  cases (s.vm.scopes i).findSlot n with
  | some j => rfl
  | none =>
    simp only []
    split
    · rfl
    · next hov =>
      rw [h.overflow (Bool.eq_false_iff.mpr hov)]
      rfl

theorem findSlot_some {a : AerScope} {n j : Nat} (h : a.findSlot n = some j) :
    j < a.count ∧ (a.slots j).name = n := by
  unfold AerScope.findSlot at h
  exact ⟨List.mem_range.mp (List.mem_of_find?_eq_some h), by simpa using List.find?_some h⟩

theorem placeIn_slot {n i i' j : Nat} (h : s.placeIn n i = some (.slot i' j)) :
    i' = i ∧ (s.vm.scopes i).findSlot n = some j := by
  unfold placeIn at h
  simp only [] at h
  split at h
  · next hj =>
    cases h
    exact ⟨rfl, hj⟩
  · split at h
    · cases hg : (s.vm.scopes i).map.get (s.nameText n) <;> simp [hg] at h
    · cases h

theorem placeIn_entry {n i i' e : Nat} (hw : (s.vm.scopes i).Wf)
    (h : s.placeIn n i = some (.entry i' e)) :
    i' = i ∧ some (s.nameText n, e) ∈ (s.vm.scopes i).map.buckets := by
  rw [placeIn_eq hw] at h
  split at h
  · cases h
  · cases hg : (s.vm.scopes i).map.get (s.nameText n) with
    | none => simp [hg] at h
    | some e' =>
      rw [hg] at h
      cases h
      refine ⟨rfl, ?_⟩
      rw [← s.nameText_cString n]
      exact (hw.table.get_iff _ _).mp hg

section Wf
variable (h : s.ScopesWf)
include h

theorem ScopesWf.inUse {n i : Nat} {p : Place} (hi : i < s.vm.scopeDepth)
    (hp : s.placeIn n i = some p) : s.InUse p := by
  cases p with
  | slot i' j =>
    obtain ⟨rfl, hj⟩ := placeIn_slot hp
    exact ⟨hi, (findSlot_some hj).1⟩
  | entry i' e =>
    obtain ⟨rfl, he⟩ := placeIn_entry (h.scope i hi) hp
    exact ⟨hi, _, he⟩

/-- A place holds one variable. -/
theorem ScopesWf.owner (hn : s.Interned) {m n i j : Nat} {p : Place} (hm : s.IsName m)
    (hn' : s.IsName n) (hi : i < s.vm.scopeDepth) (hj : j < s.vm.scopeDepth)
    (hp : s.placeIn m i = some p) (hq : s.placeIn n j = some p) : i = j ∧ m = n := by
  cases p with
  | slot i' k =>
    obtain ⟨rfl, hk⟩ := placeIn_slot hp
    obtain ⟨rfl, hk'⟩ := placeIn_slot hq
    exact ⟨rfl, (findSlot_some hk).2.symm.trans (findSlot_some hk').2⟩
  | entry i' e =>
    obtain ⟨rfl, he⟩ := placeIn_entry (h.scope i hi) hp
    obtain ⟨rfl, he'⟩ := placeIn_entry (h.scope j hj) hq
    exact ⟨rfl, hn m n hm hn' ((h.scope _ hi).keys _ _ _ he he')⟩

theorem ScopesWf.isSome_valueIn {n i : Nat} (hi : i < s.vm.scopeDepth) :
    (s.valueIn n i).isSome = (s.placeIn n i).isSome := by
  unfold valueIn
  cases hp : s.placeIn n i with
  | none => rfl
  | some p => exact h.stored p (h.inUse hi hp)

end Wf

/-- `t` is `s` with `n` bound to `v` in scope `i`, and `p` the place of that binding. -/
structure Binds (s t : State) (n i : Nat) (p : Place) (v : AerVal) : Prop where
  depth : t.vm.scopeDepth = s.vm.scopeDepth
  place : ∀ m, s.IsName m → ∀ j < s.vm.scopeDepth,
    t.placeIn m j = if j = i ∧ m = n then some p else s.placeIn m j
  own : ∀ m, s.IsName m → ∀ j < s.vm.scopeDepth, s.placeIn m j = some p → j = i ∧ m = n
  inUse : ∀ q, t.InUse q ↔ q = p ∨ s.InUse q
  addr : ∀ q, s.InUse q → q ≠ p → t.placeAddr q = s.placeAddr q
  keeps : ∀ q, s.InUse q → q ≠ p → t.readAddr (s.placeAddr q) = s.readAddr (s.placeAddr q)
  reads : t.readAddr (t.placeAddr p) = some v
  apart : ∀ q, s.InUse q → q ≠ p → t.placeAddr p ≠ s.placeAddr q

section Binds
variable {n i : Nat} {p : Place} {v : AerVal} (hb : Binds s t n i p v) (h : s.ScopesWf)
include hb h

theorem Binds.valueIn {m j : Nat} (hm : s.IsName m) (hj : j < s.vm.scopeDepth) :
    t.valueIn m j = if j = i ∧ m = n then some v else s.valueIn m j := by
  unfold State.valueIn
  rw [hb.place m hm j hj]
  split
  · exact hb.reads
  · next hne =>
    cases hq : s.placeIn m j with
    | none => rfl
    | some q =>
      have hqp : q ≠ p := by
        rintro rfl
        exact hne (hb.own m hm j hj hq)
      have huse := h.inUse hj hq
      simp only [Option.bind_some, hb.addr q huse hqp, hb.keeps q huse hqp]

theorem Binds.wf (hboxes : t.heap.boxes.Wf) (hscope : ∀ j < s.vm.scopeDepth, (t.vm.scopes j).Wf)
    (hcount : s.heap.entryCount ≤ t.heap.entryCount)
    (hspilled : ∀ e, t.placeAddr p = .box (.spilled e) → e < t.heap.entryCount) : t.ScopesWf where
  boxes := hboxes
  scope j hj := hscope j (hb.depth ▸ hj)
  stored q hq := by
    by_cases hqp : q = p
    · rw [hqp, hb.reads]
      rfl
    · have huse := ((hb.inUse q).mp hq).resolve_left hqp
      rw [hb.addr q huse hqp, hb.keeps q huse hqp]
      exact h.stored q huse
  apart q r hq hr hqr := by
    by_cases hqp : q = p
    · by_cases hrp : r = p
      · exact hqp.trans hrp.symm
      · have huse := ((hb.inUse r).mp hr).resolve_left hrp
        rw [hqp, hb.addr r huse hrp] at hqr
        exact absurd hqr (hb.apart r huse hrp)
    · have huse := ((hb.inUse q).mp hq).resolve_left hqp
      by_cases hrp : r = p
      · rw [hrp, hb.addr q huse hqp] at hqr
        exact absurd hqr.symm (hb.apart q huse hqp)
      · have huse' := ((hb.inUse r).mp hr).resolve_left hrp
        rw [hb.addr q huse hqp, hb.addr r huse' hrp] at hqr
        exact h.apart q r huse huse' hqr
  spilled q e hq he := by
    by_cases hqp : q = p
    · exact hspilled e (hqp ▸ he)
    · have huse := ((hb.inUse q).mp hq).resolve_left hqp
      rw [hb.addr q huse hqp] at he
      exact (h.spilled q e huse he).trans_le hcount

end Binds

/-- The same variables in the same places; their addresses may differ. -/
structure SamePlaces (s t : State) : Prop where
  depth : t.vm.scopeDepth = s.vm.scopeDepth
  text : t.nameText = s.nameText
  count : ∀ i, (t.vm.scopes i).count = (s.vm.scopes i).count
  name : ∀ i j, ((t.vm.scopes i).slots j).name = ((s.vm.scopes i).slots j).name
  overflow : ∀ i, (t.vm.scopes i).overflow = (s.vm.scopes i).overflow
  map : ∀ i, (t.vm.scopes i).map = (s.vm.scopes i).map

section SamePlaces
variable (hs : SamePlaces s t)
include hs

theorem SamePlaces.placeIn (n i : Nat) : t.placeIn n i = s.placeIn n i := by
  have hfind : (t.vm.scopes i).findSlot n = (s.vm.scopes i).findSlot n := by
    unfold AerScope.findSlot
    simp only [hs.count, hs.name]
  unfold State.placeIn
  simp only [hfind, hs.overflow, hs.map, hs.text]

theorem SamePlaces.inUse (q : Place) : t.InUse q ↔ s.InUse q := by
  cases q with
  | slot i j => simp only [InUse, hs.depth, hs.count]
  | entry i e => simp only [InUse, hs.depth, hs.map]

theorem SamePlaces.scope {i : Nat} (h : (s.vm.scopes i).Wf) : (t.vm.scopes i).Wf where
  room := hs.count i ▸ h.room
  table := hs.map i ▸ h.table
  overflow := by rw [hs.overflow, hs.map]; exact h.overflow
  keys := by rw [hs.map]; exact h.keys

/-- What changes the variable at one place, and not what it is called, binds it anew. -/
theorem SamePlaces.binds (h : s.ScopesWf) (hn : s.Interned) {n i : Nat} {p : Place} {v : AerVal}
    (hname : s.IsName n) (hi : i < s.vm.scopeDepth) (hp : s.placeIn n i = some p)
    (haddr : ∀ q, s.InUse q → q ≠ p → t.placeAddr q = s.placeAddr q)
    (hkeeps : ∀ q, s.InUse q → q ≠ p → t.readAddr (s.placeAddr q) = s.readAddr (s.placeAddr q))
    (hreads : t.readAddr (t.placeAddr p) = some v)
    (hapart : ∀ q, s.InUse q → q ≠ p → t.placeAddr p ≠ s.placeAddr q) : Binds s t n i p v where
  depth := hs.depth
  place m _ j _ := by
    rw [hs.placeIn]
    split
    · next heq => rw [heq.1, heq.2, hp]
    · rfl
  own m hm j hj hq := h.owner hn hm hname hj hi hq hp
  inUse q := by
    rw [hs.inUse]
    constructor
    · exact Or.inr
    · rintro (rfl | hq)
      · exact h.inUse hi hp
      · exact hq
  addr := haddr
  keeps := hkeeps
  reads := hreads
  apart := hapart

end SamePlaces

/-! One slot. -/

def withSlot (s : State) (i j : Nat) (slot : ScopeSlot) : State :=
  { s with vm := s.vm.setScope i ((s.vm.scopes i).setSlot j slot) }

theorem withSlot_scope (i j : Nat) (slot : ScopeSlot) (k : Nat) :
    ((s.withSlot i j slot).vm.scopes k).count = (s.vm.scopes k).count ∧
    ((s.withSlot i j slot).vm.scopes k).overflow = (s.vm.scopes k).overflow ∧
    ((s.withSlot i j slot).vm.scopes k).map = (s.vm.scopes k).map := by
  simp only [withSlot, Vm.setScope, Function.update_apply]
  split
  · next hk =>
    subst hk
    exact ⟨rfl, rfl, rfl⟩
  · exact ⟨rfl, rfl, rfl⟩

theorem withSlot_slots (i j : Nat) (slot : ScopeSlot) (k l : Nat) :
    ((s.withSlot i j slot).vm.scopes k).slots l =
      if k = i ∧ l = j then slot else (s.vm.scopes k).slots l := by
  simp only [withSlot, Vm.setScope, Function.update_apply]
  by_cases hk : k = i
  · subst hk
    simp only [↓reduceIte, true_and, AerScope.setSlot, Function.update_apply]
  · simp only [hk, ↓reduceIte, false_and]

theorem samePlaces_withSlot {i j : Nat} (slot : ScopeSlot)
    (hname : slot.name = ((s.vm.scopes i).slots j).name) : SamePlaces s (s.withSlot i j slot) where
  depth := rfl
  text := rfl
  count k := (withSlot_scope i j slot k).1
  overflow k := (withSlot_scope i j slot k).2.1
  map k := (withSlot_scope i j slot k).2.2
  name k l := by
    rw [withSlot_slots]
    split
    · next hkl => rw [hname, hkl.1, hkl.2]
    · rfl

theorem placeAddr_withSlot (i j : Nat) (slot : ScopeSlot) :
    (s.withSlot i j slot).placeAddr (.slot i j) =
      match slot.box with
      | some b => .box b
      | none => .slot i j := by
  have hslot : ((s.withSlot i j slot).vm.scopes i).slots j = slot := by
    rw [withSlot_slots, if_pos ⟨rfl, rfl⟩]
  change (match (((s.withSlot i j slot).vm.scopes i).slots j).box with
    | some b => Addr.box b
    | none => Addr.slot i j) = _
  rw [hslot]

theorem placeAddr_withSlot_of_ne {i j : Nat} {slot : ScopeSlot} {q : Place} (hq : q ≠ .slot i j) :
    (s.withSlot i j slot).placeAddr q = s.placeAddr q := by
  cases q with
  | entry k e => rfl
  | slot k l =>
    have hne : ¬ (k = i ∧ l = j) := by
      rintro ⟨rfl, rfl⟩
      exact hq rfl
    simp only [placeAddr, AerScope.slotAddr, withSlot_slots, hne, ↓reduceIte]

/-- Only the place itself has its own slot for an address. -/
theorem eq_of_placeAddr {q : Place} {i j : Nat} (hq : s.placeAddr q = .slot i j) :
    q = .slot i j := by
  cases q with
  | entry k e => cases hq
  | slot k l =>
    simp only [placeAddr, AerScope.slotAddr] at hq
    split at hq
    · cases hq
    · cases hq
      rfl

theorem readAddr_withSlot {i j : Nat} (hin : s.InUse (.slot i j)) (slot : ScopeSlot) (a : Addr) :
    (s.withSlot i j slot).readAddr a = if a = .slot i j then some slot.val else s.readAddr a := by
  cases a with
  | box b => rfl
  | slot k l =>
    obtain ⟨hi, hj⟩ := hin
    simp only [readAddr, (withSlot_scope i j slot k).1, withSlot_slots, Addr.slot.injEq]
    by_cases hkl : k = i ∧ l = j
    · obtain ⟨rfl, rfl⟩ := hkl
      simp only [and_self, ↓reduceIte]
      exact if_pos ⟨hi, hj⟩
    · simp only [hkl, ↓reduceIte]
      rfl

/-! A write to the address of a variable. -/

theorem samePlaces_writeAddr (s : State) (a : Addr) (v : AerVal) : SamePlaces s (s.writeAddr a v) := by
  cases a with
  | slot i j => exact samePlaces_withSlot _ rfl
  | box b => cases b <;> exact ⟨rfl, rfl, fun _ => rfl, fun _ _ => rfl, fun _ => rfl, fun _ => rfl⟩

theorem placeAddr_writeAddr (a : Addr) (v : AerVal) (q : Place) :
    (s.writeAddr a v).placeAddr q = s.placeAddr q := by
  cases a with
  | box b => rfl
  | slot i j =>
    by_cases hq : q = .slot i j
    · rw [hq]
      exact placeAddr_withSlot i j _
    · exact placeAddr_withSlot_of_ne hq

theorem readAddr_writeAddr {a : Addr} (ha : (s.readAddr a).isSome) (v : AerVal) (b : Addr) :
    (s.writeAddr a v).readAddr b = if b = a then some v else s.readAddr b := by
  cases a with
  | slot i j =>
    have hin : s.InUse (.slot i j) := by
      by_contra hin
      simp only [InUse] at hin
      simp [readAddr, hin] at ha
    exact readAddr_withSlot hin _ b
  | box b' =>
    cases b with
    | slot k l => rfl
    | box b =>
      cases b' with
      | spilled e =>
        cases b with
        | pooled c => rfl
        | spilled d =>
          simp only [readAddr, writeAddr, Heap.readBox, Heap.writeBox, Function.update_apply,
            Addr.box.injEq, BoxRef.spilled.injEq]
      | pooled c =>
        have hc : s.heap.boxes.Live c := by
          by_contra hc
          simp [readAddr, Heap.readBox, hc] at ha
        cases b with
        | spilled e => rfl
        | pooled d =>
          change (if s.heap.boxes.Live d then some (Function.update s.heap.boxes.data c v d)
            else none) = _
          simp only [Addr.box.injEq, BoxRef.pooled.injEq]
          by_cases hd : d = c
          · subst hd
            simp [hc]
          · simp [hd, readAddr, Heap.readBox]

/-- What could be read before a box was allocated is read after it. -/
theorem readAddr_newBox (h : s.heap.boxes.Wf) {v : AerVal} {b : BoxRef} {g : Heap}
    (hnew : s.heap.newBox v = (b, g)) {a : Addr} (ha : (s.readAddr a).isSome) :
    a ≠ .box b ∧ State.readAddr { s with heap := g } a = s.readAddr a := by
  have hf := h.alloc_fresh v
  cases hnew
  cases a with
  | slot i j => exact ⟨by simp, rfl⟩
  | box b =>
    cases b with
    | spilled e => exact ⟨by simp, rfl⟩
    | pooled c =>
      have hc : s.heap.boxes.Live c := by
        by_contra hc
        simp [readAddr, Heap.readBox, hc] at ha
      have hne : c ≠ (s.heap.boxes.alloc v).1 := by
        rintro rfl
        exact hf.fresh hc
      refine ⟨fun heq => hne (BoxRef.pooled.inj (Addr.box.inj heq)), ?_⟩
      change (if (s.heap.boxes.alloc v).2.Live c then some ((s.heap.boxes.alloc v).2.data c)
        else none) = if s.heap.boxes.Live c then some (s.heap.boxes.data c) else none
      rw [hf.data_ne hne]
      simp only [hf.live, hne, false_or]

theorem readBox_newBox {h g : Heap} (hw : h.boxes.Wf) {v : AerVal} {b : BoxRef}
    (hnew : h.newBox v = (b, g)) : g.readBox b = some v := by
  have hf := hw.alloc_fresh v
  cases hnew
  change (if (h.boxes.alloc v).2.Live (h.boxes.alloc v).1 then
    some ((h.boxes.alloc v).2.data (h.boxes.alloc v).1) else none) = some v
  rw [if_pos ((hf.live _).mpr (.inl rfl)), hf.data_self]

section Bound
variable (h : s.ScopesWf) (hn : s.Interned) {n i : Nat} (hname : s.IsName n)
  (hi : i < s.vm.scopeDepth)
include h hn hname hi

theorem binds_writeAddr {p : Place} (hp : s.placeIn n i = some p) (v : AerVal) :
    Binds s (s.writeAddr (s.placeAddr p) v) n i p v := by
  have huse := h.inUse hi hp
  have hread := readAddr_writeAddr (h.stored p huse) v
  refine (samePlaces_writeAddr s _ v).binds h hn hname hi hp ?_ ?_ ?_ ?_
  · intro q _ _
    exact placeAddr_writeAddr _ v q
  · intro q hq hqp
    rw [hread, if_neg]
    intro heq
    exact hqp (h.apart q p hq huse heq)
  · rw [placeAddr_writeAddr, hread, if_pos rfl]
  · intro q hq hqp heq
    rw [placeAddr_writeAddr] at heq
    exact hqp (h.apart q p hq huse heq.symm)

/-- The variable of a slot is put into the slot itself, out of its box. -/
theorem binds_unbox {j : Nat} (hp : s.placeIn n i = some (.slot i j)) (v : AerVal) :
    Binds s (s.withSlot i j ⟨n, v, none⟩) n i (.slot i j) v := by
  have hsame := samePlaces_withSlot ⟨n, v, none⟩ (findSlot_some (placeIn_slot hp).2).2.symm
  have hread := readAddr_withSlot (h.inUse hi hp) ⟨n, v, none⟩
  refine hsame.binds h hn hname hi hp ?_ ?_ ?_ ?_
  · intro q _ hqp
    exact placeAddr_withSlot_of_ne hqp
  · intro q _ hqp
    rw [hread, if_neg]
    exact mt eq_of_placeAddr hqp
  · rw [placeAddr_withSlot, hread, if_pos rfl]
  · intro q _ hqp hq
    rw [placeAddr_withSlot] at hq
    exact hqp (eq_of_placeAddr hq.symm)

theorem wf_unbox {j : Nat} (hp : s.placeIn n i = some (.slot i j)) (v : AerVal) :
    (s.withSlot i j ⟨n, v, none⟩).ScopesWf := by
  have hsame := samePlaces_withSlot ⟨n, v, none⟩ (findSlot_some (placeIn_slot hp).2).2.symm
  refine (binds_unbox h hn hname hi hp v).wf h h.boxes (fun j hj => hsame.scope (h.scope j hj))
    le_rfl ?_
  intro e he
  rw [placeAddr_withSlot] at he
  cases he

/-- The variable of a slot is moved to a fresh box. -/
theorem binds_box {j : Nat} (hp : s.placeIn n i = some (.slot i j)) {v : AerVal} {b : BoxRef}
    {g : Heap} (hnew : s.heap.newBox v = (b, g)) (w : AerVal) :
    Binds s (State.withSlot { s with heap := g } i j ⟨n, w, some b⟩) n i (.slot i j) v := by
  have hslot := samePlaces_withSlot (s := s) ⟨n, w, some b⟩
    (findSlot_some (placeIn_slot hp).2).2.symm
  have hsame : SamePlaces s (State.withSlot { s with heap := g } i j ⟨n, w, some b⟩) :=
    { hslot with text := by cases hnew; rfl }
  have hread := readAddr_withSlot (s := { s with heap := g }) (h.inUse hi hp) ⟨n, w, some b⟩
  refine hsame.binds h hn hname hi hp ?_ ?_ ?_ ?_
  · intro q _ hqp
    exact placeAddr_withSlot_of_ne (s := { s with heap := g }) hqp
  · intro q hq hqp
    rw [hread, if_neg (mt eq_of_placeAddr hqp)]
    exact (readAddr_newBox h.boxes hnew (h.stored q hq)).2
  · rw [placeAddr_withSlot, hread, if_neg (by simp)]
    exact readBox_newBox h.boxes hnew
  · intro q hq _ heq
    rw [placeAddr_withSlot] at heq
    exact (readAddr_newBox h.boxes hnew (h.stored q hq)).1 heq.symm

theorem wf_box {j : Nat} (hp : s.placeIn n i = some (.slot i j)) {v : AerVal} {b : BoxRef}
    {g : Heap} (hnew : s.heap.newBox v = (b, g)) (w : AerVal) :
    (State.withSlot { s with heap := g } i j ⟨n, w, some b⟩).ScopesWf := by
  have hslot := samePlaces_withSlot (s := s) ⟨n, w, some b⟩
    (findSlot_some (placeIn_slot hp).2).2.symm
  refine (binds_box h hn hname hi hp hnew w).wf h ?_ (fun j hj => ?_) ?_ ?_
  · cases hnew
    exact (h.boxes.alloc_fresh v).wf
  · exact SamePlaces.scope { hslot with text := by cases hnew; rfl } (h.scope j hj)
  · cases hnew
    exact le_rfl
  · intro e he
    rw [placeAddr_withSlot] at he
    cases hnew
    cases he

end Bound

/-! A new binding, in a slot or in the map. -/

/-- A scope takes one more slot into use. -/
def addSlot (s : State) (i : Nat) (slot : ScopeSlot) : State :=
  let scope := (s.vm.scopes i).setSlot (s.vm.scopes i).count slot
  { s with vm := s.vm.setScope i { scope with count := (s.vm.scopes i).count + 1 } }

theorem addSlot_scopes (i : Nat) (slot : ScopeSlot) (k : Nat) :
    ((s.addSlot i slot).vm.scopes k).count =
      (if k = i then (s.vm.scopes k).count + 1 else (s.vm.scopes k).count) ∧
    ((s.addSlot i slot).vm.scopes k).overflow = (s.vm.scopes k).overflow ∧
    ((s.addSlot i slot).vm.scopes k).map = (s.vm.scopes k).map := by
  simp only [addSlot, Vm.setScope, Function.update_apply]
  by_cases hk : k = i
  · subst hk
    simp only [↓reduceIte, true_and]
    exact ⟨rfl, rfl⟩
  · simp only [hk, ↓reduceIte, and_self]

theorem addSlot_slots (i : Nat) (slot : ScopeSlot) (k l : Nat) :
    ((s.addSlot i slot).vm.scopes k).slots l =
      if k = i ∧ l = (s.vm.scopes i).count then slot else (s.vm.scopes k).slots l := by
  rw [← withSlot_slots]
  simp only [addSlot, withSlot, Vm.setScope, Function.update_apply]
  split <;> rfl

theorem placeAddr_addSlot (i : Nat) (slot : ScopeSlot) (q : Place) :
    (s.addSlot i slot).placeAddr q = (s.withSlot i (s.vm.scopes i).count slot).placeAddr q := by
  cases q with
  | entry k e => rfl
  | slot k l => simp only [placeAddr, AerScope.slotAddr, addSlot_slots, withSlot_slots]

theorem addSlot_findSlot (i : Nat) (slot : ScopeSlot) (m : Nat)
    (hnone : (s.vm.scopes i).findSlot slot.name = none) :
    ((s.addSlot i slot).vm.scopes i).findSlot m =
      if m = slot.name then some (s.vm.scopes i).count else (s.vm.scopes i).findSlot m := by
  have hold : ∀ m, (List.range (s.vm.scopes i).count).find?
      (fun j => (((s.addSlot i slot).vm.scopes i).slots j).name == m) =
        (s.vm.scopes i).findSlot m := by
    intro m
    rw [AerScope.findSlot, ← List.head?_filter, ← List.head?_filter]
    refine congrArg List.head? (List.filter_congr fun j hj => ?_)
    have hne : ¬ (i = i ∧ j = (s.vm.scopes i).count) := by
      have := List.mem_range.mp hj
      omega
    rw [addSlot_slots, if_neg hne]
  rw [AerScope.findSlot, (addSlot_scopes i slot i).1, if_pos rfl, List.range_succ, List.find?_append,
    hold]
  simp only [List.find?_cons, List.find?_nil, addSlot_slots, true_and, ↓reduceIte]
  by_cases hm : m = slot.name
  · subst hm
    simp [hnone]
  · have hne : (slot.name == m) = false := beq_false_of_ne (Ne.symm hm)
    simp [hm, hne]

/-- A scope spills one more variable. -/
def addEntry (s : State) (i n : Nat) (v : AerVal) : State :=
  let (e, heap) := s.heap.newEntry v
  let scope :=
    { s.vm.scopes i with overflow := true, map := (s.vm.scopes i).map.put (s.nameText n) e }
  { s with heap, vm := s.vm.setScope i scope }

theorem addEntry_scopes (s : State) (i n : Nat) (v : AerVal) (k : Nat) :
    (s.addEntry i n v).vm.scopes k =
      if k = i then
        { s.vm.scopes i with
          overflow := true, map := (s.vm.scopes i).map.put (s.nameText n) s.heap.entryCount }
      else s.vm.scopes k := by
  simp only [addEntry, Heap.newEntry, Vm.setScope, Function.update_apply]

theorem placeAddr_addEntry (i n : Nat) (v : AerVal) (q : Place) :
    (s.addEntry i n v).placeAddr q = s.placeAddr q := by
  cases q with
  | entry k e => rfl
  | slot k l =>
    simp only [placeAddr, AerScope.slotAddr, addEntry_scopes]
    by_cases hk : k = i
    · subst hk
      simp only [↓reduceIte]
    · simp only [hk, ↓reduceIte]

theorem readAddr_addEntry (i n : Nat) (v : AerVal) (a : Addr) :
    (s.addEntry i n v).readAddr a =
      if a = .box (.spilled s.heap.entryCount) then some v else s.readAddr a := by
  cases a with
  | slot k l =>
    simp only [readAddr, addEntry_scopes, reduceCtorEq, ↓reduceIte]
    by_cases hk : k = i
    · subst hk
      simp only [↓reduceIte]
      rfl
    · simp only [hk, ↓reduceIte]
      rfl
  | box b =>
    cases b with
    | pooled c => rfl
    | spilled e =>
      simp only [readAddr, addEntry, Heap.newEntry, Heap.readBox, Function.update_apply,
        Addr.box.injEq, BoxRef.spilled.injEq]

section Added
variable (h : s.ScopesWf) {n i : Nat} (hi : i < s.vm.scopeDepth)
include h hi

theorem binds_addSlot (hnone : (s.vm.scopes i).findSlot n = none) (v : AerVal) :
    Binds s (s.addSlot i ⟨n, v, none⟩) n i (.slot i (s.vm.scopes i).count) v := by
  have hnot : ¬ s.InUse (.slot i (s.vm.scopes i).count) := fun huse => lt_irrefl _ huse.2
  have hscopes := fun k => addSlot_scopes (s := s) i ⟨n, v, none⟩ k
  have haddr : (s.addSlot i ⟨n, v, none⟩).placeAddr (.slot i (s.vm.scopes i).count) =
      .slot i (s.vm.scopes i).count := by
    rw [placeAddr_addSlot]
    exact placeAddr_withSlot i _ _
  refine ⟨rfl, ?_, ?_, ?_, ?_, ?_, ?_, ?_⟩
  · intro m _ j _
    by_cases hj : j = i
    · subst hj
      unfold State.placeIn
      simp only [addSlot_findSlot j ⟨n, v, none⟩ m hnone, hscopes, true_and]
      by_cases hm : m = n
      · simp only [hm, ↓reduceIte]
      · simp only [hm, ↓reduceIte]
        rfl
    · have hsame : (s.addSlot i ⟨n, v, none⟩).vm.scopes j = s.vm.scopes j := Function.update_of_ne hj _ _
      unfold State.placeIn
      simp only [hsame, hj, false_and, ↓reduceIte]
      rfl
  · intro m _ j hj hp
    exact absurd (h.inUse hj hp) hnot
  · intro q
    cases q with
    | entry k e =>
      simp only [InUse, hscopes, reduceCtorEq, false_or]
      exact Iff.rfl
    | slot k l =>
      simp only [InUse, hscopes, Place.slot.injEq]
      change k < s.vm.scopeDepth ∧ _ ↔ _
      by_cases hk : k = i
      · subst hk
        simp only [↓reduceIte, true_and]
        omega
      · simp [hk]
  · intro q _ hqp
    rw [placeAddr_addSlot]
    exact placeAddr_withSlot_of_ne hqp
  · intro q hq _
    cases hqa : s.placeAddr q with
    | box b => rfl
    | slot k l =>
      obtain rfl := eq_of_placeAddr hqa
      have hne : ¬ (k = i ∧ l = (s.vm.scopes i).count) := by
        rintro ⟨rfl, rfl⟩
        exact hnot hq
      have hin : k < (s.addSlot i ⟨n, v, none⟩).vm.scopeDepth ∧
          l < ((s.addSlot i ⟨n, v, none⟩).vm.scopes k).count := by
        refine ⟨hq.1, hq.2.trans_le ?_⟩
        rw [(hscopes k).1]
        split <;> omega
      rw [readAddr, readAddr, if_pos hin, addSlot_slots, if_neg hne]
      exact (if_pos hq).symm
  · have hin : i < (s.addSlot i ⟨n, v, none⟩).vm.scopeDepth ∧
        (s.vm.scopes i).count < ((s.addSlot i ⟨n, v, none⟩).vm.scopes i).count := by
      refine ⟨hi, ?_⟩
      rw [(hscopes i).1, if_pos rfl]
      exact Nat.lt_succ_self _
    rw [haddr, readAddr, if_pos hin, addSlot_slots, if_pos ⟨rfl, rfl⟩]
  · intro q hq hqp heq
    rw [haddr] at heq
    exact hqp (eq_of_placeAddr heq.symm)

theorem wf_addSlot (hnone : (s.vm.scopes i).findSlot n = none)
    (hroom : (s.vm.scopes i).count < scopeSlotMax) (v : AerVal) :
    (s.addSlot i ⟨n, v, none⟩).ScopesWf := by
  refine (binds_addSlot h hi hnone v).wf h h.boxes ?_ le_rfl ?_
  · intro j hj
    have hw := h.scope j hj
    obtain ⟨hcount, hov, hmap⟩ := addSlot_scopes (s := s) i ⟨n, v, none⟩ j
    refine ⟨?_, hmap ▸ hw.table, by rw [hov, hmap]; exact hw.overflow, by rw [hmap]; exact hw.keys⟩
    rw [hcount]
    split
    · next heq =>
      rw [heq]
      exact hroom
    · exact hw.room
  · intro e he
    rw [placeAddr_addSlot, placeAddr_withSlot] at he
    cases he

/-- An entry of a map in use was allocated before. -/
theorem ScopesWf.entry_lt {k : Bytes} {e : Nat} (he : some (k, e) ∈ (s.vm.scopes i).map.buckets) :
    e < s.heap.entryCount :=
  h.spilled (.entry i e) e ⟨hi, k, he⟩ rfl

section Spilled
variable (hget : (s.vm.scopes i).map.get (s.nameText n) = none)
  (hroom : (s.vm.scopes i).map.count < HashTable.maxCapacity)
include hget hroom

omit h hi in
/-- The table of a scope after a new name was put into it. -/
theorem mem_addEntry (hw : (s.vm.scopes i).Wf) (e : Bytes × Nat) :
    some e ∈ ((s.vm.scopes i).map.put (s.nameText n) s.heap.entryCount).buckets ↔
      e = (s.nameText n, s.heap.entryCount) ∨ some e ∈ (s.vm.scopes i).map.buckets := by
  have hst := hw.table.put hroom (s.nameText n) s.heap.entryCount
  rw [nameText_cString] at hst
  rw [hst.mem]
  refine or_congr_right ⟨And.right, fun he => ⟨?_, he⟩⟩
  intro hkey
  obtain ⟨k, x⟩ := e
  have : (s.vm.scopes i).map.get (s.nameText n) = some x := by
    rw [hw.table.get_iff, nameText_cString, ← hkey]
    exact he
  rw [hget] at this
  cases this

theorem wf_addEntry (v : AerVal) : ((s.addEntry i n v).vm.scopes i).Wf := by
  have hw := h.scope i hi
  have hst := hw.table.put hroom (s.nameText n) s.heap.entryCount
  rw [addEntry_scopes, if_pos rfl]
  refine ⟨hw.room, hst.wellFormed, nofun, ?_⟩
  intro k k' e hk hk'
  rcases (mem_addEntry hget hroom hw _).mp hk with heq | hold
  · cases heq
    rcases (mem_addEntry hget hroom hw _).mp hk' with heq' | hold'
    · cases heq'
      rfl
    · exact absurd (h.entry_lt hi hold') (lt_irrefl _)
  · rcases (mem_addEntry hget hroom hw _).mp hk' with heq' | hold'
    · cases heq'
      exact absurd (h.entry_lt hi hold) (lt_irrefl _)
    · exact hw.keys k k' e hold hold'

theorem get_addEntry (hn : s.Interned) (hname : s.IsName n) {m : Nat} (hm : s.IsName m) :
    ((s.vm.scopes i).map.put (s.nameText n) s.heap.entryCount).get (s.nameText m) =
      if m = n then some s.heap.entryCount else (s.vm.scopes i).map.get (s.nameText m) := by
  have hw := h.scope i hi
  have hst := hw.table.put hroom (s.nameText n) s.heap.entryCount
  apply Option.ext
  intro e
  rw [hst.wellFormed.get_iff, mem_addEntry hget hroom hw, nameText_cString]
  by_cases hmn : m = n
  · subst hmn
    simp only [Prod.mk.injEq, true_and, ↓reduceIte, Option.some.injEq]
    refine ⟨?_, fun he => .inl he.symm⟩
    rintro (he | he)
    · exact he.symm
    · rw [← s.nameText_cString m, ← hw.table.get_iff, hget] at he
      cases he
  · have htext : s.nameText m ≠ s.nameText n := fun heq => hmn (hn m n hm hname heq)
    rw [if_neg hmn, hw.table.get_iff, nameText_cString]
    simp only [Prod.mk.injEq, htext, false_and, false_or]

theorem binds_addEntry (hfind : (s.vm.scopes i).findSlot n = none) (hn : s.Interned)
    (hname : s.IsName n) (v : AerVal) :
    Binds s (s.addEntry i n v) n i (.entry i s.heap.entryCount) v := by
  have hnot : ¬ s.InUse (.entry i s.heap.entryCount) :=
    fun huse => lt_irrefl _ (h.spilled _ _ huse rfl)
  have hscopes := addEntry_scopes s i n v
  refine ⟨rfl, ?_, ?_, ?_, ?_, ?_, ?_, ?_⟩
  · intro m hm j hj
    by_cases hji : j = i
    · subst hji
      rw [placeIn_eq (wf_addEntry h hj hget hroom v), placeIn_eq (h.scope j hj), hscopes, if_pos rfl]
      change (match (s.vm.scopes j).findSlot m with
        | some l => some (Place.slot j l)
        | none => (((s.vm.scopes j).map.put (s.nameText n) s.heap.entryCount).get
            (s.nameText m)).map (Place.entry j)) = _
      rw [get_addEntry h hj hget hroom hn hname hm]
      by_cases hmn : m = n
      · subst hmn
        simp only [hfind, and_self, ↓reduceIte, Option.map_some]
      · simp only [hmn, and_false, ↓reduceIte]
    · have hsame : (s.addEntry i n v).vm.scopes j = s.vm.scopes j := by rw [hscopes, if_neg hji]
      unfold State.placeIn
      simp only [hsame, hji, false_and, ↓reduceIte]
      rfl
  · intro m _ j hj hp
    exact absurd (h.inUse hj hp) hnot
  · intro q
    cases q with
    | slot k l =>
      simp only [InUse, hscopes, reduceCtorEq, false_or]
      by_cases hk : k = i
      · subst hk
        simp only [↓reduceIte]
        rfl
      · simp only [hk, ↓reduceIte]
        rfl
    | entry k e =>
      simp only [InUse, hscopes, Place.entry.injEq]
      by_cases hk : k = i
      · subst hk
        simp only [↓reduceIte, mem_addEntry hget hroom (h.scope k hi), Prod.mk.injEq, true_and]
        constructor
        · rintro ⟨hk, x, ⟨-, rfl⟩ | hx⟩
          · exact .inl rfl
          · exact .inr ⟨hk, x, hx⟩
        · rintro (rfl | ⟨hk, x, hx⟩)
          · exact ⟨hi, _, .inl ⟨rfl, rfl⟩⟩
          · exact ⟨hk, x, .inr hx⟩
      · simp only [hk, ↓reduceIte, false_and, false_or]
        rfl
  · intro q _ _
    exact placeAddr_addEntry i n v q
  · intro q hq _
    rw [readAddr_addEntry, if_neg]
    intro heq
    exact lt_irrefl _ (h.spilled q _ hq heq)
  · rw [readAddr_addEntry]
    exact if_pos rfl
  · intro q hq _ heq
    exact lt_irrefl _ (h.spilled q _ hq heq.symm)

end Spilled

end Added

/-- The innermost scope has the name, or room for one more. -/
def HasRoom (s : State) (n : Nat) : Prop :=
  let scope := s.vm.scopes (s.vm.scopeDepth - 1)
  (s.placeIn n (s.vm.scopeDepth - 1)).isSome ∨ scope.count < scopeSlotMax ∨
    scope.map.count < HashTable.maxCapacity

section Define
variable (h : s.ScopesWf) (hn : s.Interned) {n : Nat} (hname : s.IsName n)
include h hn hname

theorem wf_writeAddr {i : Nat} (hi : i < s.vm.scopeDepth) {p : Place}
    (hp : s.placeIn n i = some p) (v : AerVal) : (s.writeAddr (s.placeAddr p) v).ScopesWf := by
  refine (binds_writeAddr h hn hname hi hp v).wf h ?_ ?_ ?_ ?_
  · cases s.placeAddr p with
    | slot k l => exact h.boxes
    | box b =>
      cases b with
      | pooled c => exact h.boxes.setData c v
      | spilled e => exact h.boxes
  · exact fun j hj => (samePlaces_writeAddr s _ v).scope (h.scope j hj)
  · cases s.placeAddr p with
    | slot k l => exact le_rfl
    | box b => cases b <;> exact le_rfl
  · intro e he
    rw [placeAddr_writeAddr] at he
    have hlt := h.spilled p e (h.inUse hi hp) he
    rw [he]
    exact hlt

/-- A definition binds the name in the innermost scope. -/
theorem binds_vmScopeDefine (hd : 1 ≤ s.vm.scopeDepth) (hroom : s.HasRoom n) (v : AerVal) :
    (s.vmScopeDefine n v).ScopesWf ∧
      ∃ p, Binds s (s.vmScopeDefine n v) n (s.vm.scopeDepth - 1) p v := by
  have hi : s.vm.scopeDepth - 1 < s.vm.scopeDepth := by omega
  have hw := h.scope _ hi
  have hplace := placeIn_eq hw n
  unfold vmScopeDefine
  simp only []
  cases hfind : (s.vm.scopes (s.vm.scopeDepth - 1)).findSlot n with
  | some j =>
    rw [hfind] at hplace
    exact ⟨wf_writeAddr h hn hname hi hplace v, _, binds_writeAddr h hn hname hi hplace v⟩
  | none =>
    rw [hfind] at hplace
    simp only []
    split
    · next hcount => exact ⟨wf_addSlot h hi hfind hcount v, _, binds_addSlot h hi hfind v⟩
    · next hcount =>
      cases hget : (s.vm.scopes (s.vm.scopeDepth - 1)).map.get (s.nameText n) with
      | some e =>
        rw [hget] at hplace
        have hov : (s.vm.scopes (s.vm.scopeDepth - 1)).overflow = true := by
          by_contra hov
          rw [hw.overflow (Bool.eq_false_iff.mpr hov)] at hget
          cases hget
        have hsame : { s.vm.scopes (s.vm.scopeDepth - 1) with overflow := true } =
            s.vm.scopes (s.vm.scopeDepth - 1) := by rw [← hov]
        simp only [hsame, Vm.setScope, Function.update_eq_self]
        exact ⟨wf_writeAddr h hn hname hi hplace v, _, binds_writeAddr h hn hname hi hplace v⟩
      | none =>
        have hfull : (s.vm.scopes (s.vm.scopeDepth - 1)).map.count < HashTable.maxCapacity := by
          rcases hroom with hp | hc | hm
          · rw [hplace, hget] at hp
            cases hp
          · exact absurd hc hcount
          · exact hm
        have hb := binds_addEntry h hi hget hfull hfind hn hname v
        refine ⟨hb.wf h h.boxes ?_ (Nat.le_succ _) ?_, _, hb⟩
        · intro j hj
          by_cases hji : j = s.vm.scopeDepth - 1
          · rw [hji]
            exact wf_addEntry h hi hget hfull v
          · rw [addEntry_scopes, if_neg hji]
            exact h.scope j hj
        · intro e he
          cases he
          exact Nat.lt_succ_self _

end Define

end State

end Aer.Machine
