import Aer.Machine.ItemBuffer

set_option linter.all false

/-! Arrays over whole runs of the operations on them, the loops included, against lists under
the same operations. -/
namespace Aer.Machine

open Aer.Data Aer.Memory

/-- The integers that an operand can be. -/
abbrev Long := {i : Int // IsLong i}

inductive SliceBound
  | absent
  | index (i : Long)
  /-- Neither null nor an integer. -/
  | other

def SliceBound.value : SliceBound → Option (Option Int)
  | absent => some none
  | index i => some (some i)
  | other => none

/-- A step on the arrays. An index that is `none` is no integer. -/
inductive ArrayStep
  | literal (items : List AerVal)
  | append (c : Nat) (v : AerVal)
  | delete (c : Nat) (key : Option Long)
  | get (c : Nat) (idx : Option Long)
  | set (c : Nat) (idx : Option Long) (v : AerVal)
  | slice (c : Nat) (start stop : SliceBound)
  | unpack (c idx : Nat)
  /-- A loop over the items begins. -/
  | enter (c : Nat)
  /-- The head of the innermost loop. -/
  | next
  /-- The innermost loop is left from its body. -/
  | leave

inductive Answer
  | value (v : AerVal)
  | done
  /-- No item is left for the loop, which ends. -/
  | ended
  | error (message : Bytes)

def notIndex : Answer := .error (bytes "Array index must be an integer")

def notBounds : Answer := .error (bytes "Slice bounds must be integers")

def appendToInstance : Bytes :=
  bytes "append() cannot add fields to a struct instance — structs have a fixed shape"

def deleteFromInstance : Bytes :=
  bytes "delete() cannot remove fields from a struct instance — structs have a fixed shape"

def getFromInstance : Bytes := bytes "Struct fields are accessed with '.', not '[]'"

def setInInstance : Bytes := bytes "Struct fields are assigned with '.', not '[]'"

def sliceOfInstance : Bytes := bytes "Structs cannot be sliced"

def unpackBeyond (idx count : Nat) : Bytes :=
  bytes "Cannot unpack index " ++ natText idx ++ bytes ": array has " ++ natText count ++
    bytes " element" ++ pluralS count

/-- The arrays, and the loops in progress with the position each has come to. -/
structure Arrays where
  buffers : List ItemBuffer
  loops : List (Nat × Int)

namespace Arrays

def create (s : Arrays) (b : ItemBuffer) : Answer × Arrays :=
  (.value (.array s.buffers.length), { s with buffers := s.buffers ++ [b] })

def store (s : Arrays) (c : Nat) (b : ItemBuffer) : Answer × Arrays :=
  (.value (.array c), { s with buffers := s.buffers.set c b })

/-- An access by index to the array `a`. -/
def access (s : Arrays) (a : ItemBuffer) (idx : Option Long) (notInteger : Answer)
    (act : Nat → Option (Answer × Arrays)) : Option (Answer × Arrays) :=
  match idx with
  | none => some (notInteger, s)
  | some i =>
      match a.index i with
      | none => some (.error (outOfBounds "Array" i a.count), s)
      | some j => act j

def cut (s : Arrays) (a : ItemBuffer) (start stop : Option (Option Int)) :
    Option (Answer × Arrays) :=
  match start, stop with
  | some start, some stop => return s.create (← a.slice start stop)
  | _, _ => some (notBounds, s)

def step : ArrayStep → Arrays → Option (Answer × Arrays)
  | .literal items, s => return s.create (← ItemBuffer.literal items)
  | .append c v, s => do
      let a ← s.buffers[c]?
      if a.shape.isSome then return (.error appendToInstance, s)
      return s.store c (← a.append v)
  | .delete c key, s => do
      let a ← s.buffers[c]?
      if a.shape.isSome then return (.error deleteFromInstance, s)
      s.access a key (.error (bytes "Array delete() index must be an integer")) fun j => do
        return s.store c (← a.delete j)
  | .get c idx, s => do
      let a ← s.buffers[c]?
      if a.shape.isSome then return (.error getFromInstance, s)
      s.access a idx notIndex fun j => do return (.value (← a.read j), s)
  | .set c idx v, s => do
      let a ← s.buffers[c]?
      if a.shape.isSome then return (.error setInInstance, s)
      s.access a idx notIndex fun j => do return (.done, (s.store c (← a.write j v)).2)
  | .slice c start stop, s => do
      let a ← s.buffers[c]?
      if a.shape.isSome then return (.error sliceOfInstance, s)
      s.cut a start.value stop.value
  | .unpack c idx, s => do
      let a ← s.buffers[c]?
      if a.count ≤ idx then return (.error (unpackBeyond idx a.count), s)
      return (.value (← a.read idx), s)
  | .enter c, s => do
      let _ ← s.buffers[c]?
      return (.done, { s with loops := (c, 0) :: s.loops })
  | .next, s =>
      match s.loops with
      | [] => none
      | (c, idx) :: outer => do
          let a ← s.buffers[c]?
          if a.count ≤ unsignedLong idx then return (.ended, { s with loops := outer })
          return (.value (← a.read idx.toNat), { s with loops := (c, wrap64 (idx + 1)) :: outer })
  | .leave, s =>
      match s.loops with
      | [] => none
      | _ :: outer => some (.done, { s with loops := outer })

def run : List ArrayStep → Arrays → Option (List Answer × Arrays)
  | [], s => some ([], s)
  | e :: es, s => do
      let (answer, s) ← s.step e
      let (answers, s) ← s.run es
      return (answer :: answers, s)

end Arrays

/-! Lists under the same steps. -/

/-- The position an index denotes in a list: a negative one counts from the end. -/
def position (i : Int) (len : Nat) : Option Nat :=
  if 0 ≤ i ∧ i < len then some i.toNat
  else if i < 0 ∧ -len ≤ i then some (len - i.natAbs)
  else none

/-- The items of an array, or of a struct instance. -/
structure Sequence where
  items : List AerVal
  isInstance : Bool

structure Lists where
  lists : List Sequence
  loops : List (Nat × Nat)

namespace Lists

def create (s : Lists) (items : List AerVal) : Answer × Lists :=
  (.value (.array s.lists.length), { s with lists := s.lists ++ [⟨items, false⟩] })

def store (s : Lists) (c : Nat) (items : List AerVal) : Answer × Lists :=
  (.value (.array c), { s with lists := s.lists.set c ⟨items, false⟩ })

/-- An access by index to an array of these items. -/
def access (s : Lists) (l : List AerVal) (idx : Option Long) (notInteger : Answer)
    (act : Nat → Answer × Lists) : Answer × Lists :=
  match idx with
  | none => (notInteger, s)
  | some i =>
      match position i l.length with
      | none => (.error (outOfBounds "Array" i l.length), s)
      | some j => act j

def cut (s : Lists) (l : List AerVal) :
    Option (Option Int) → Option (Option Int) → Answer × Lists
  | some start, some stop => s.create (slice l start stop)
  | _, _ => (notBounds, s)

def step : ArrayStep → Lists → Option (Answer × Lists)
  | .literal items, s => some (s.create items)
  | .append c v, s => do
      let l ← s.lists[c]?
      if l.isInstance then return (.error appendToInstance, s)
      return s.store c (l.items ++ [v])
  | .delete c key, s => do
      let l ← s.lists[c]?
      if l.isInstance then return (.error deleteFromInstance, s)
      return s.access l.items key (.error (bytes "Array delete() index must be an integer"))
        fun j => s.store c (l.items.eraseIdx j)
  | .get c idx, s => do
      let l ← s.lists[c]?
      if l.isInstance then return (.error getFromInstance, s)
      return s.access l.items idx notIndex fun j => (.value (l.items.getD j .null), s)
  | .set c idx v, s => do
      let l ← s.lists[c]?
      if l.isInstance then return (.error setInInstance, s)
      return s.access l.items idx notIndex fun j => (.done, (s.store c (l.items.set j v)).2)
  | .slice c start stop, s => do
      let l ← s.lists[c]?
      if l.isInstance then return (.error sliceOfInstance, s)
      return s.cut l.items start.value stop.value
  | .unpack c idx, s => do
      let l ← s.lists[c]?
      match l.items[idx]? with
      | none => return (.error (unpackBeyond idx l.items.length), s)
      | some v => return (.value v, s)
  | .enter c, s => do
      let _ ← s.lists[c]?
      return (.done, { s with loops := (c, 0) :: s.loops })
  | .next, s =>
      match s.loops with
      | [] => none
      | (c, idx) :: outer => do
          let l ← s.lists[c]?
          match l.items[idx]? with
          | none => return (.ended, { s with loops := outer })
          | some v => return (.value v, { s with loops := (c, idx + 1) :: outer })
  | .leave, s =>
      match s.loops with
      | [] => none
      | _ :: outer => some (.done, { s with loops := outer })

/-- Every list is shorter than 2^31. -/
def Small (s : Lists) : Prop := ∀ l ∈ s.lists, l.items.length < 2 ^ 31

instance (s : Lists) : Decidable s.Small :=
  inferInstanceAs (Decidable (∀ l ∈ s.lists, l.items.length < 2 ^ 31))

/-- A run in which every list stays shorter than 2^31. -/
inductive Runs : Lists → List ArrayStep → List Answer → Lists → Prop
  | nil (s : Lists) : Runs s [] [] s
  | cons {s t u : Lists} {e : ArrayStep} {es : List ArrayStep} {answer : Answer}
      {answers : List Answer} (first : s.step e = some (answer, t)) (small : t.Small)
      (rest : Runs t es answers u) : Runs s (e :: es) (answer :: answers) u

end Lists

/-! The refinement. -/

theorem position_lt {i : Int} {n j : Nat} (h : position i n = some j) : j < n := by
  unfold position at h
  split at h
  · cases h
    omega
  · split at h
    · cases h
      omega
    · cases h

theorem SliceBound.isLong (bound : SliceBound) {b : Option Int} {dflt : Int}
    (hb : bound.value = some b) (hdflt : IsLong dflt) : IsLong (b.getD dflt) := by
  cases bound with
  | absent =>
    cases hb
    exact hdflt
  | index i =>
    cases hb
    exact i.2
  | other => cases hb

/-- A Boolean for the kind of an array, and what its buffer holds. -/
def ItemBuffer.Shows (b : ItemBuffer) (l : Sequence) : Prop :=
  b.Holds l.items ∧ b.shape.isSome = l.isInstance

theorem ItemBuffer.Holds.index {b : ItemBuffer} {l : List AerVal} (h : b.Holds l)
    (hlen : l.length < 2 ^ 31) (i : Long) : b.index i = position i l.length := by
  obtain ⟨i, hi⟩ := i
  have hwrap : (if i < 0 then wrap64 (i + l.length) else i) = fromEnd i l.length :=
    wrap64_fromEnd hi (by omega)
  unfold ItemBuffer.index
  rw [h.count]
  dsimp only
  rw [hwrap]
  unfold fromEnd position unsignedLong
  unfold IsLong at hi
  by_cases hneg : i < 0
  · rw [if_pos hneg, if_neg (fun hpos : 0 ≤ i ∧ _ => absurd hneg (not_lt.mpr hpos.1))]
    by_cases hin : -(l.length : Int) ≤ i
    · rw [if_neg (by omega), if_pos ⟨hneg, hin⟩]
      exact congrArg some (by omega)
    · rw [if_pos (by omega), if_neg (fun h => hin h.2)]
  · rw [if_neg hneg]
    by_cases hin : i < (l.length : Int)
    · rw [if_neg (by omega), if_pos ⟨not_lt.mp hneg, hin⟩]
    · rw [if_pos (by omega), if_neg (fun h => hin h.2), if_neg (fun h => hneg h.1)]

theorem forall₂_set {α β : Type} {R : α → β → Prop} {l : List α} {m : List β} {a : α} {b : β}
    (h : List.Forall₂ R l m) (hab : R a b) (i : Nat) : List.Forall₂ R (l.set i a) (m.set i b) := by
  induction h generalizing i with
  | nil => exact .nil
  | cons hr hrest ih =>
    cases i with
    | zero => exact .cons hab hrest
    | succ i => exact .cons hr (ih i)

/-- The buffers hold the lists, and the loops have come to the same positions. -/
structure Represents (s : Arrays) (t : Lists) : Prop where
  buffers : List.Forall₂ ItemBuffer.Shows s.buffers t.lists
  loops : s.loops = t.loops.map fun p => (p.1, (p.2 : Int))
  reached : ∀ p ∈ t.loops, p.2 ≤ 2 ^ 31

namespace Represents
variable {s : Arrays} {t : Lists}

theorem lookup (h : Represents s t) {c : Nat} {l : Sequence} (hl : t.lists[c]? = some l) :
    ∃ b, s.buffers[c]? = some b ∧ b.Shows l := by
  obtain ⟨hlt, rfl⟩ := List.getElem?_eq_some_iff.mp hl
  have hlt' : c < s.buffers.length := h.buffers.length_eq ▸ hlt
  exact ⟨_, List.getElem?_eq_getElem hlt', h.buffers.get hlt' hlt⟩

theorem create (h : Represents s t) {b : ItemBuffer} {items : List AerVal} (hb : b.Holds items)
    (hshape : b.shape = none) :
    (s.create b).1 = (t.create items).1 ∧ Represents (s.create b).2 (t.create items).2 := by
  refine ⟨?_, ⟨?_, h.loops, h.reached⟩⟩
  · exact congrArg (Answer.value ∘ AerVal.array) h.buffers.length_eq
  · exact List.rel_append h.buffers (.cons ⟨hb, congrArg Option.isSome hshape⟩ .nil)

theorem store (h : Represents s t) {b : ItemBuffer} {items : List AerVal} (c : Nat) (hb : b.Holds items)
    (hshape : b.shape = none) : Represents (s.store c b).2 (t.store c items).2 :=
  ⟨forall₂_set h.buffers ⟨hb, congrArg Option.isSome hshape⟩ c, h.loops, h.reached⟩

theorem access (h : Represents s t) {b : ItemBuffer} {items : List AerVal} (hb : b.Holds items)
    (hlen : items.length < 2 ^ 31) (idx : Option Long) (notInteger : Answer)
    {act : Nat → Option (Answer × Arrays)} {act' : Nat → Answer × Lists} {r : Answer × Lists}
    (hact : ∀ j < items.length, ∃ s', act j = some ((act' j).1, s') ∧ Represents s' (act' j).2)
    (hr : t.access items idx notInteger act' = r) :
    ∃ s', s.access b idx notInteger act = some (r.1, s') ∧ Represents s' r.2 := by
  subst hr
  unfold Arrays.access Lists.access
  cases idx with
  | none => exact ⟨s, rfl, h⟩
  | some i =>
    dsimp only
    rw [hb.index hlen i, hb.count]
    cases hj : position i items.length with
    | none => exact ⟨s, rfl, h⟩
    | some j => exact hact j (position_lt hj)

theorem cut (h : Represents s t) {b : ItemBuffer} {l : Sequence} (hb : b.Holds l.items)
    (hlen : l.items.length < 2 ^ 31) (start stop : SliceBound) {r : Answer × Lists}
    (hr : t.cut l.items start.value stop.value = r) :
    ∃ s', s.cut b start.value stop.value = some (r.1, s') ∧ Represents s' r.2 := by
  subst hr
  cases hstart : start.value with
  | none => exact ⟨s, rfl, h⟩
  | some lo =>
    cases hstop : stop.value with
    | none => exact ⟨s, rfl, h⟩
    | some hi =>
      have hlo : IsLong (lo.getD 0) := start.isLong hstart (by decide)
      have hhi : IsLong (hi.getD l.items.length) := stop.isLong hstop (by
        unfold IsLong
        omega)
      obtain ⟨b', hslice, hholds, hshape⟩ := hb.slice (hlen.trans (by decide)) hlo hhi
      obtain ⟨hanswer, hrep⟩ := h.create hholds hshape
      have hcut : s.cut b (some lo) (some hi) = some (s.create b') := by
        simp [Arrays.cut, hslice]
      refine ⟨_, ?_, hrep⟩
      exact hcut.trans (congrArg (fun answer => some (answer, (s.create b').2)) hanswer)

/-- A step on the array `c`, which is refused for an instance. -/
theorem onArray (h : Represents s t) (hsmall : t.Small) {c : Nat} {refusal : Bytes}
    {act : ItemBuffer → Option (Answer × Arrays)} {act' : Sequence → Option (Answer × Lists)}
    {answer : Answer} {t' : Lists}
    (hact : ∀ b l, b.Holds l.items → b.shape = none → l.items.length < 2 ^ 31 →
      act' l = some (answer, t') → ∃ s', act b = some (answer, s') ∧ Represents s' t')
    (hstep : (do
      let l ← t.lists[c]?
      if l.isInstance then return (.error refusal, t)
      act' l) = some (answer, t')) :
    ∃ s', (do
      let b ← s.buffers[c]?
      if b.shape.isSome then return (.error refusal, s)
      act b) = some (answer, s') ∧ Represents s' t' := by
  obtain ⟨l, hl, hrest⟩ := Option.bind_eq_some_iff.mp hstep
  obtain ⟨b, hb, hholds, hkind⟩ := h.lookup hl
  have hlen : l.items.length < 2 ^ 31 := hsmall l (List.mem_of_getElem? hl)
  rw [hb, Option.bind_eq_bind, Option.bind_some, hkind]
  by_cases hinst : l.isInstance = true
  · rw [if_pos hinst] at hrest ⊢
    cases hrest
    exact ⟨s, rfl, h⟩
  · rw [if_neg hinst] at hrest ⊢
    have hshape : b.shape = none :=
      Option.not_isSome_iff_eq_none.mp fun hsome => hinst (hkind.symm.trans hsome)
    exact hact b l hholds hshape hlen hrest

/-- One step of the code is the step on the lists. -/
theorem step (h : Represents s t) (hsmall : t.Small) {e : ArrayStep} {answer : Answer} {t' : Lists}
    (hstep : t.step e = some (answer, t')) (hsmall' : t'.Small) :
    ∃ s', s.step e = some (answer, s') ∧ Represents s' t' := by
  cases e with
  | literal items =>
    cases hstep
    have hlen : items.length < 2 ^ 31 := hsmall' ⟨items, false⟩ (List.mem_append_right _ List.mem_cons_self)
    obtain ⟨b, hb, hholds, hshape⟩ := ItemBuffer.holds_literal (hlen.trans (by decide))
    obtain ⟨hanswer, hrep⟩ := h.create hholds hshape
    refine ⟨_, ?_, hrep⟩
    rw [← show (s.create b).1 = .value (.array t.lists.length) from hanswer]
    simp only [Arrays.step, hb]
    rfl
  | append c v =>
    refine h.onArray hsmall (fun b l hb hshape hlen hact => ?_) hstep
    cases hact
    obtain ⟨b', happend, hholds, hshape', -⟩ := hb.append hlen v
    refine ⟨_, ?_, h.store c hholds (hshape'.trans hshape)⟩
    rw [happend]
    rfl
  | delete c key =>
    refine h.onArray hsmall (fun b l hb hshape hlen hact => ?_) hstep
    refine h.access hb hlen key _ (fun j hj => ?_) (Option.some.inj hact)
    obtain ⟨b', hdelete, hholds, hshape', -⟩ := hb.delete hj
    refine ⟨(s.store c b').2, ?_, h.store c hholds (hshape'.trans hshape)⟩
    rw [hdelete]
    rfl
  | get c idx =>
    refine h.onArray hsmall (fun b l hb hshape hlen hact => ?_) hstep
    refine h.access hb hlen idx _ (fun j hj => ?_) (Option.some.inj hact)
    refine ⟨s, ?_, h⟩
    rw [hb.read hj, List.getD_eq_getElem?_getD, List.getElem?_eq_getElem hj]
    rfl
  | set c idx v =>
    refine h.onArray hsmall (fun b l hb hshape hlen hact => ?_) hstep
    refine h.access hb hlen idx _ (fun j hj => ?_) (Option.some.inj hact)
    obtain ⟨b', hwrite, hholds, hshape', -⟩ := hb.write hj v
    refine ⟨(s.store c b').2, ?_, h.store c hholds (hshape'.trans hshape)⟩
    rw [hwrite]
    rfl
  | slice c start stop =>
    refine h.onArray hsmall (fun b l hb hshape hlen hact => ?_) hstep
    exact h.cut hb hlen start stop (Option.some.inj hact)
  | unpack c idx =>
    obtain ⟨l, hl, hrest⟩ := Option.bind_eq_some_iff.mp hstep
    obtain ⟨b, hb, hholds, -⟩ := h.lookup hl
    simp only [Arrays.step, hb, Option.bind_eq_bind, Option.bind_some, hholds.count]
    cases hv : l.items[idx]? with
    | none =>
      rw [hv] at hrest
      cases hrest
      rw [if_pos (List.getElem?_eq_none_iff.mp hv)]
      exact ⟨s, rfl, h⟩
    | some v =>
      rw [hv] at hrest
      cases hrest
      obtain ⟨hlt, -⟩ := List.getElem?_eq_some_iff.mp hv
      rw [if_neg (not_le.mpr hlt), hholds.read hlt, hv]
      exact ⟨s, rfl, h⟩
  | enter c =>
    obtain ⟨l, hl, hrest⟩ := Option.bind_eq_some_iff.mp hstep
    obtain ⟨b, hb, -⟩ := h.lookup hl
    cases hrest
    simp only [Arrays.step, hb, Option.bind_eq_bind, Option.bind_some]
    refine ⟨_, rfl, ⟨h.buffers, ?_, ?_⟩⟩
    · exact congrArg ((c, (0 : Int)) :: ·) h.loops
    · exact List.forall_mem_cons.mpr ⟨Nat.zero_le _, h.reached⟩
  | next =>
    simp only [Lists.step] at hstep
    cases hloops : t.loops with
    | nil =>
      rw [hloops] at hstep
      cases hstep
    | cons p outer =>
      obtain ⟨c, idx⟩ := p
      rw [hloops] at hstep
      obtain ⟨l, hl, hrest⟩ := Option.bind_eq_some_iff.mp hstep
      obtain ⟨b, hb, hholds, -⟩ := h.lookup hl
      have hlen : l.items.length < 2 ^ 31 := hsmall l (List.mem_of_getElem? hl)
      have hreached : ∀ p ∈ (c, idx) :: outer, p.2 ≤ 2 ^ 31 := hloops ▸ h.reached
      have hidx : idx ≤ 2 ^ 31 := hreached (c, idx) List.mem_cons_self
      have hcursor : unsignedLong idx = idx := by
        unfold unsignedLong
        omega
      have hs : s.loops = (c, (idx : Int)) :: outer.map fun p => (p.1, (p.2 : Int)) := by
        rw [h.loops, hloops]
        rfl
      simp only [Arrays.step, hs, hb, Option.bind_eq_bind, Option.bind_some, hholds.count, hcursor,
        Int.toNat_natCast]
      cases hv : l.items[idx]? with
      | none =>
        simp only [hv] at hrest
        cases hrest
        rw [if_pos (List.getElem?_eq_none_iff.mp hv)]
        exact ⟨_, rfl, h.buffers, rfl, fun p hp => hreached p (List.mem_cons_of_mem _ hp)⟩
      | some v =>
        simp only [hv] at hrest
        cases hrest
        obtain ⟨hlt, -⟩ := List.getElem?_eq_some_iff.mp hv
        have hnext : wrap64 ((idx : Int) + 1) = ((idx + 1 : Nat) : Int) := by
          rw [wrap64_of_isLong (by unfold IsLong; omega)]
          rfl
        rw [if_neg (not_le.mpr hlt), hholds.read hlt, hv, hnext]
        refine ⟨_, rfl, h.buffers, ?_, ?_⟩
        · rfl
        · refine List.forall_mem_cons.mpr ⟨?_, fun p hp => hreached p (List.mem_cons_of_mem _ hp)⟩
          dsimp only
          omega
  | leave =>
    simp only [Lists.step] at hstep
    cases hloops : t.loops with
    | nil =>
      rw [hloops] at hstep
      cases hstep
    | cons p outer =>
      rw [hloops] at hstep
      cases hstep
      have hs : s.loops = (p.1, (p.2 : Int)) :: outer.map fun p => (p.1, (p.2 : Int)) := by
        rw [h.loops, hloops]
        rfl
      simp only [Arrays.step, hs]
      exact ⟨_, rfl, h.buffers, rfl, fun q hq =>
        h.reached q (hloops ▸ List.mem_cons_of_mem _ hq)⟩

end Represents

/-- Where a step ends in an error, the arrays and the loops are what they were. -/
def Unchanged (s : Arrays) (r : Option (Answer × Arrays)) : Prop :=
  ∀ message t, r = some (.error message, t) → t = s

namespace Unchanged
variable {s : Arrays}

theorem bind {α : Type} (o : Option α) {f : α → Option (Answer × Arrays)}
    (h : ∀ a, Unchanged s (f a)) : Unchanged s (o >>= f) := by
  intro message t heq
  obtain ⟨a, -, ha⟩ := Option.bind_eq_some_iff.mp heq
  exact h a message t ha

theorem same (answer : Answer) : Unchanged s (some (answer, s)) := by
  rintro message t ⟨⟩
  rfl

theorem value (v : AerVal) (t : Arrays) : Unchanged s (some (.value v, t)) := by
  rintro message t ⟨⟩

theorem done (t : Arrays) : Unchanged s (some (.done, t)) := by
  rintro message t ⟨⟩

theorem access {b : ItemBuffer} {idx : Option Long} {notInteger : Answer}
    {act : Nat → Option (Answer × Arrays)} (h : ∀ j, Unchanged s (act j)) :
    Unchanged s (s.access b idx notInteger act) := by
  unfold Arrays.access
  split
  · exact same _
  · split
    · exact same _
    · exact h _

theorem onArray (c : Nat) (refusal : Bytes) {act : ItemBuffer → Option (Answer × Arrays)}
    (h : ∀ b, Unchanged s (act b)) : Unchanged s (do
      let b ← s.buffers[c]?
      if b.shape.isSome then return (.error refusal, s)
      act b) := by
  refine bind _ fun b => ?_
  split
  · exact same _
  · exact h b

theorem step (e : ArrayStep) : Unchanged s (s.step e) := by
  cases e with
  | literal items => exact bind _ fun b => value _ _
  | append c v => exact onArray c _ fun b => bind _ fun b' => value _ _
  | delete c key => exact onArray c _ fun b => access fun j => bind _ fun b' => value _ _
  | get c idx => exact onArray c _ fun b => access fun j => bind _ fun v => value _ _
  | set c idx v => exact onArray c _ fun b => access fun j => bind _ fun b' => done _
  | slice c start stop =>
    refine onArray c _ fun b => ?_
    unfold Arrays.cut
    split
    · exact bind _ fun b' => value _ _
    · exact same _
  | unpack c idx =>
    refine bind _ fun b => ?_
    split
    · exact same _
    · exact bind _ fun v => value _ _
  | enter c => exact bind _ fun b => done _
  | next =>
    simp only [Arrays.step]
    split
    · rintro message t ⟨⟩
    · refine bind _ fun b => ?_
      split
      · rintro message t ⟨⟩
      · exact bind _ fun v => value _ _
  | leave =>
    simp only [Arrays.step]
    split
    · rintro message t ⟨⟩
    · exact done _

end Unchanged

theorem Represents.run {s : Arrays} {t u : Lists} {es : List ArrayStep} {answers : List Answer}
    (h : Represents s t) (hsmall : t.Small) (hrun : t.Runs es answers u) :
    ∃ s', s.run es = some (answers, s') ∧ Represents s' u := by
  induction hrun generalizing s with
  | nil t => exact ⟨s, rfl, h⟩
  | cons first small rest ih =>
    obtain ⟨s₁, hstep, h₁⟩ := h.step hsmall first small
    obtain ⟨s₂, hrest, h₂⟩ := ih h₁ small
    refine ⟨s₂, ?_, h₂⟩
    simp only [Arrays.run, hstep, hrest, Option.bind_eq_bind, Option.bind_some]
    rfl

/-- Whatever is done with arrays shorter than 2^31 items, every access to a buffer lies inside
what is allocated and written, the answers and the contents are those of lists under the same
steps, the counts stay within the capacities, and a step that ends in an error changes nothing. -/
theorem arrays_are_lists {s : Arrays} {t u : Lists} {es : List ArrayStep} {answers : List Answer}
    (h : Represents s t) (hsmall : t.Small) (hrun : t.Runs es answers u) :
    (∃ s', s.run es = some (answers, s') ∧ Represents s' u ∧
      ∀ b ∈ s'.buffers, b.count ≤ b.capacity ∧ b.cells.length = b.capacity) ∧
    ∀ s e, Unchanged s (s.step e) := by
  obtain ⟨s', hs, hrep⟩ := h.run hsmall hrun
  refine ⟨⟨s', hs, hrep, fun b hb => ?_⟩, fun s e => .step e⟩
  obtain ⟨i, hi⟩ := List.getElem?_of_mem hb
  obtain ⟨hlt, rfl⟩ := List.getElem?_eq_some_iff.mp hi
  have hholds := (hrep.buffers.get hlt (hrep.buffers.length_eq ▸ hlt)).1
  exact ⟨hholds.count_le, hholds.allocated⟩

/-- `a = [null, true]`, and a loop over `a` that appends to it and deletes its last item. -/
theorem arrays_are_lists_loop :
    ∃ s', Arrays.run [.literal [.null, .boolean true], .enter 0, .next, .append 0 .null,
        .delete 0 (some ⟨-1, by decide⟩), .next, .next] ⟨[], []⟩ =
      some ([.value (.array 0), .done, .value .null, .value (.array 0), .value (.array 0),
        .value (.boolean true), .ended], s') := by
  have hrun : Lists.Runs ⟨[], []⟩ [.literal [.null, .boolean true], .enter 0, .next,
      .append 0 .null, .delete 0 (some ⟨-1, by decide⟩), .next, .next]
      [.value (.array 0), .done, .value .null, .value (.array 0), .value (.array 0),
        .value (.boolean true), .ended] ⟨[⟨[.null, .boolean true], false⟩], []⟩ :=
    .cons rfl (by decide) (.cons rfl (by decide) (.cons rfl (by decide) (.cons rfl (by decide)
      (.cons rfl (by decide) (.cons rfl (by decide) (.cons rfl (by decide) (.nil _)))))))
  have hstart : Represents ⟨[], []⟩ ⟨[], []⟩ := ⟨.nil, rfl, fun p hp => absurd hp List.not_mem_nil⟩
  obtain ⟨⟨s', hs, -⟩, -⟩ := arrays_are_lists hstart (by decide) hrun
  exact ⟨s', hs⟩

/-! The operations of the heap on an array are those on its buffer. -/

/-- The array of a buffer that holds these items. -/
def ItemBuffer.array (b : ItemBuffer) (l : List AerVal) : AerArray := ⟨l, b.capacity, b.shape⟩

section Heap
variable {b : ItemBuffer} {l : List AerVal} {h : Heap} {c : Nat}

theorem position_eq_elementIndex (i : Int) (n : Nat) : position i n = elementIndex i n := by
  unfold position elementIndex
  by_cases hneg : i < 0
  · rw [if_neg (fun h => absurd hneg (not_lt.mpr h.1)), if_pos hneg]
    by_cases hin : -(n : Int) ≤ i
    · rw [if_pos ⟨hneg, hin⟩, if_pos (by omega)]
      exact congrArg some (by omega)
    · rw [if_neg (fun h => hin h.2), if_neg (by omega)]
  · rw [if_neg hneg, if_neg (c := i < 0 ∧ _) (fun h => hneg h.1)]

theorem appendItem_eq (hb : b.Holds l) (hlen : l.length < 2 ^ 31) (v : AerVal)
    (hdata : h.arrays.data c = b.array l) :
    ∃ b', b.append v = some b' ∧ b'.Holds (l ++ [v]) ∧
      (h.appendItem c v).arrays.data c = b'.array (l ++ [v]) := by
  obtain ⟨b', happend, hholds, hshape, hcapacity⟩ := hb.append hlen v
  refine ⟨b', happend, hholds, ?_⟩
  unfold Heap.appendItem ItemBuffer.array
  rw [hshape, hcapacity, hdata]
  exact Function.update_self ..

theorem setItem_eq (hb : b.Holds l) {i : Nat} (hi : i < l.length) (v : AerVal)
    (hdata : h.arrays.data c = b.array l) :
    ∃ b', b.write i v = some b' ∧ b'.Holds (l.set i v) ∧
      (h.setItem c i v).arrays.data c = b'.array (l.set i v) := by
  obtain ⟨b', hwrite, hholds, hshape, hcapacity⟩ := hb.write hi v
  refine ⟨b', hwrite, hholds, ?_⟩
  unfold Heap.setItem ItemBuffer.array
  rw [hshape, hcapacity, hdata]
  exact Function.update_self ..

theorem deleteItem_eq (hb : b.Holds l) {i : Nat} (hi : i < l.length)
    (hdata : h.arrays.data c = b.array l) :
    ∃ b', b.delete i = some b' ∧ b'.Holds (l.eraseIdx i) ∧
      (h.deleteItem c i).arrays.data c = b'.array (l.eraseIdx i) := by
  obtain ⟨b', hdelete, hholds, hshape, hcapacity⟩ := hb.delete hi
  refine ⟨b', hdelete, hholds, ?_⟩
  unfold Heap.deleteItem ItemBuffer.array
  rw [hshape, hcapacity, hdata]
  exact Function.update_self ..

end Heap

end Aer.Machine
