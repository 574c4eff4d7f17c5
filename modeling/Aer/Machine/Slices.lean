import Aer.Machine.Calls
import Aer.Memory.Growth

set_option linter.all false

/-! Slices of arrays and strings: the elements between two bounds, each of which may be missing
or count from the end. -/
namespace Aer.Machine

open Aer.Data Aer.Memory Aer.Lib.Interaction

/-! The meaning of a slice. -/

def fromEnd (i : Int) (len : Nat) : Int := if i < 0 then i + len else i

def sliceLower (start : Option Int) (len : Nat) : Int := max 0 (fromEnd (start.getD 0) len)

def sliceUpper (stop : Option Int) (len : Nat) : Int := min len (fromEnd (stop.getD len) len)

/-- The elements from the lower bound on and below the upper one. -/
def slice {α : Type} (l : List α) (start stop : Option Int) : List α :=
  (l.zipIdx.filter fun x =>
    sliceLower start l.length ≤ x.2 ∧ x.2 < sliceUpper stop l.length).map Prod.fst

/-- The bounds as the code computes them, in 64 bits. -/
def sliceBounds (start stop : Option Int) (len : Nat) : Int × Int :=
  let start := start.getD 0
  let stop : Int := stop.getD len
  let start := if start < 0 then wrap64 (start + len) else start
  let stop := if stop < 0 then wrap64 (stop + len) else stop
  let start := if start < 0 then 0 else start
  let stop := if (len : Int) < stop then (len : Int) else stop
  let stop := if stop < start then start else stop
  (start, stop)

theorem sliceLower_nonneg (start : Option Int) (len : Nat) : 0 ≤ sliceLower start len := by
  unfold sliceLower
  exact Int.le_max_left ..

theorem sliceUpper_le (stop : Option Int) (len : Nat) : sliceUpper stop len ≤ len := by
  unfold sliceUpper
  exact Int.min_le_left ..

section Bounds
variable {start stop : Option Int} {len : Nat}

theorem wrap64_fromEnd {i : Int} (hi : IsLong i) (hlen : len < 2 ^ 32) :
    (if i < 0 then wrap64 (i + len) else i) = fromEnd i len := by
  unfold fromEnd
  split
  · apply wrap64_of_isLong
    unfold IsLong at *
    omega
  · rfl

theorem sliceBounds_eq (hstart : IsLong (start.getD 0)) (hstop : IsLong (stop.getD len))
    (hlen : len < 2 ^ 32) : sliceBounds start stop len =
      (sliceLower start len, max (sliceLower start len) (sliceUpper stop len)) := by
  simp only [sliceBounds, wrap64_fromEnd hstart hlen, wrap64_fromEnd hstop hlen]
  unfold sliceLower sliceUpper
  apply Prod.ext <;> dsimp only <;> omega

/-- Every element between the bounds lies inside. -/
theorem sliceBounds_inside (hstart : IsLong (start.getD 0)) (hstop : IsLong (stop.getD len))
    (hlen : len < 2 ^ 32) {i : Nat} (hlo : (sliceBounds start stop len).1.toNat ≤ i)
    (hhi : i < (sliceBounds start stop len).2.toNat) : i < len := by
  rw [sliceBounds_eq hstart hstop hlen] at hlo hhi
  have hupper := sliceUpper_le stop len
  dsimp only at hlo hhi
  omega

theorem sliceBounds_ordered (hstart : IsLong (start.getD 0)) (hstop : IsLong (stop.getD len))
    (hlen : len < 2 ^ 32) :
    (sliceBounds start stop len).1.toNat ≤ (sliceBounds start stop len).2.toNat := by
  rw [sliceBounds_eq hstart hstop hlen]
  dsimp only
  omega

end Bounds

section Lists
variable {α : Type}

theorem filter_zipIdx (l : List α) (lo hi n : Nat) :
    ((l.zipIdx n).filter fun x => lo ≤ x.2 ∧ x.2 < hi).map Prod.fst =
      (l.take (hi - n)).drop (lo - n) := by
  induction l generalizing n with
  | nil => simp
  | cons a l ih =>
    rw [List.zipIdx_cons, List.filter_cons]
    split
    · next h =>
      have hlo : lo - n = 0 := by simp at h; omega
      have hhi : hi - n = (hi - (n + 1)) + 1 := by simp at h; omega
      have hlo' : lo - (n + 1) = 0 := by omega
      rw [List.map_cons, ih, hlo, hlo', hhi, List.take_succ_cons, List.drop_zero, List.drop_zero]
    · next h =>
      rw [ih]
      by_cases hn : hi ≤ n
      · rw [Nat.sub_eq_zero_of_le hn, Nat.sub_eq_zero_of_le (hn.trans n.le_succ)]
        simp
      · have hlo : lo - n = (lo - (n + 1)) + 1 := by simp at h; omega
        have hhi : hi - n = (hi - (n + 1)) + 1 := by omega
        rw [hlo, hhi, List.take_succ_cons, List.drop_succ_cons]

theorem slice_eq_drop_take (l : List α) (start stop : Option Int) : slice l start stop =
    (l.take (sliceUpper stop l.length).toNat).drop (sliceLower start l.length).toNat := by
  have hlower := sliceLower_nonneg start l.length
  have hfilter := filter_zipIdx l (sliceLower start l.length).toNat (sliceUpper stop l.length).toNat 0
  rw [Nat.sub_zero, Nat.sub_zero] at hfilter
  rw [← hfilter]
  unfold slice
  apply congrArg
  apply List.filter_congr
  intro x _
  apply decide_eq_decide.mpr
  omega

/-- What the code copies is the slice. -/
theorem slice_eq {l : List α} {start stop : Option Int} (hstart : IsLong (start.getD 0))
    (hstop : IsLong (stop.getD l.length)) (hlen : l.length < 2 ^ 32) :
    (l.drop (sliceBounds start stop l.length).1.toNat).take
      (((sliceBounds start stop l.length).2.toNat - (sliceBounds start stop l.length).1.toNat) %
        2 ^ 32) = slice l start stop := by
  have hupper := sliceUpper_le stop l.length
  have hlower := sliceLower_nonneg start l.length
  rw [slice_eq_drop_take, List.drop_take, sliceBounds_eq hstart hstop hlen]
  apply congrArg (List.take · _)
  dsimp only
  omega

theorem length_slice {l : List α} {start stop : Option Int} (hstart : IsLong (start.getD 0))
    (hstop : IsLong (stop.getD l.length)) (hlen : l.length < 2 ^ 32) :
    (slice l start stop).length = (sliceBounds start stop l.length).2.toNat -
      (sliceBounds start stop l.length).1.toNat := by
  have hupper := sliceUpper_le stop l.length
  have hlower := sliceLower_nonneg start l.length
  rw [slice_eq_drop_take, List.length_drop, List.length_take, sliceBounds_eq hstart hstop hlen]
  dsimp only
  omega

theorem slice_halves (l : List α) (k : Int) :
    slice l none (some k) ++ slice l (some k) none = l := by
  have hfirst : sliceLower none l.length = 0 := rfl
  have hlast : sliceUpper none l.length = l.length := by
    unfold sliceUpper fromEnd
    rw [Option.getD_none]
    omega
  rw [slice_eq_drop_take, slice_eq_drop_take, hfirst, hlast, Int.toNat_natCast, List.take_length,
    Int.toNat_zero, List.drop_zero]
  have htake : l.take (sliceUpper (some k) l.length).toNat =
      l.take (sliceLower (some k) l.length).toNat := by
    apply List.take_eq_take_iff.mpr
    unfold sliceUpper sliceLower
    rw [Option.getD_some, Option.getD_some]
    omega
  rw [htake, List.take_append_drop]

end Lists

/-! The slice instruction. -/

/-- The elements of an array that is no struct instance, or the bytes of a string. -/
inductive Contents
  | items (l : List AerVal)
  | text (b : Bytes)

namespace Contents

def length : Contents → Nat
  | items l => l.length
  | text b => b.length

def slice (x : Contents) (start stop : Option Int) : Contents :=
  match x with
  | items l => items (Machine.slice l start stop)
  | text b => text (Machine.slice b start stop)

def append : Contents → Contents → Option Contents
  | items l, items l' => some (items (l ++ l'))
  | text b, text b' => some (text (b ++ b'))
  | _, _ => none

theorem slice_halves (x : Contents) (k : Int) :
    (x.slice none (some k)).append (x.slice (some k) none) = some x := by
  cases x with
  | items l => exact congrArg (some ∘ items) (Machine.slice_halves l k)
  | text b => exact congrArg (some ∘ text) (Machine.slice_halves b k)

end Contents

namespace State

def contents (s : State) : AerVal → Option Contents
  | .array c => do
      let a ← s.arrayData c
      if a.shape.isSome then none else some (.items a.items)
  | .string c => (s.stringData c).map .text
  | _ => none

/-- A bound that is null or an integer. -/
def bound (s : State) : AerVal → Option (Option Int)
  | .null => some none
  | v => (s.asInt v).map some

end State

section Run
variable (cfg : Config) {s : State} {start stop : Option Int} {first last : AerVal} {len : Nat}

theorem run_bound {v : AerVal} {b : Option Int} (hv : s.bound v = some b) (dflt : Int) :
    (match v.type with
      | .null => return some dflt
      | .integer => do return some (← perform (.asInt v))
      | _ => do
          perform (.error (bytes "Slice bounds must be integers"))
          return none : Handler (Option Int)).run (exec cfg) s = .done (some (b.getD dflt)) s := by
  have hint {n : Int} (hn : s.asInt v = some n) :
      (do return some (← perform (.asInt v)) : Handler (Option Int)).run (exec cfg) s =
        .done (some n) s := by
    have hread : exec cfg (.asInt v) s = .done n s := by
      change orFault (s.asInt v) s = _
      rw [hn]
      rfl
    unfold perform
    rw [run_bind, run_perform, hread]
    rfl
  cases v with
  | null =>
    cases hv
    rfl
  | integer n =>
    cases hv
    exact hint rfl
  | long c =>
    obtain ⟨n, hn, rfl⟩ := Option.map_eq_some_iff.mp hv
    exact hint hn
  | boolean _ | real _ | string _ | function _ | array _ | dict _ => cases hv

theorem run_vmSliceBounds (hfirst : s.bound first = some start) (hlast : s.bound last = some stop)
    (hstart : IsLong (start.getD 0)) (hstop : IsLong (stop.getD len)) (hlen : len < 2 ^ 32) :
    (vmSliceBounds first last len).run (exec cfg) s =
      .done (some ((sliceBounds start stop len).1.toNat, (sliceBounds start stop len).2.toNat)) s := by
  unfold vmSliceBounds
  dsimp only
  rw [run_bind]
  refine (congrArg (Outcome.andThen · _) (run_bound cfg hfirst 0)).trans ?_
  rw [Outcome.done_andThen]
  dsimp only
  rw [run_bind]
  refine (congrArg (Outcome.andThen · _) (run_bound cfg hlast len)).trans ?_
  rw [Outcome.done_andThen, sliceBounds_eq hstart hstop hlen]
  rfl

/-- The state behind the instruction: the slice is on the stack in place of the operands, made
of `x`, and nothing else has changed but the pools. -/
structure Sliced (s : State) (obj : AerVal) (x : Contents) (start stop : Option Int) (t : State) :
    Prop where
  result : ∃ v, t.vm.stack s.vm.stackTop = v ∧ t.contents v = some (x.slice start stop)
  stackTop : t.vm.stackTop = s.vm.stackTop + 1
  below : ∀ i < s.vm.stackTop, t.vm.stack i = s.vm.stack i
  source : t.contents obj = some x
  grows : s.heap.Grows t.heap
  hadError : t.runtimeHadError = s.runtimeHadError

theorem contents_congr {t t' : State} (h : t.heap = t'.heap) (v : AerVal) :
    t.contents v = t'.contents v := by
  cases v with
  | array c =>
    unfold State.contents State.arrayData
    rw [h]
  | string c =>
    unfold State.contents State.stringData
    rw [h]
  | _ => rfl

theorem contents_grows {h : Heap} {v : AerVal} {x : Contents} (hgrows : s.heap.Grows h)
    (hv : s.contents v = some x) : ({ s with heap := h } : State).contents v = some x := by
  rw [← hv]
  cases v with
  | array c =>
    obtain ⟨a, ha, -⟩ := Option.bind_eq_some_iff.mp hv
    have hlive : s.heap.arrays.Live c := (Option.ite_none_right_eq_some.mp ha).1
    have hlive' : h.arrays.Live c := hgrows.live (.array c) hlive
    have hdata : h.arrays.data c = s.heap.arrays.data c := hgrows.data (.array c) hlive id
    simp only [State.contents, State.arrayData, if_pos hlive, if_pos hlive', hdata]
  | string c =>
    obtain ⟨b, hb, -⟩ := Option.map_eq_some_iff.mp hv
    have hlive : s.heap.strings.Live c := (Option.ite_none_right_eq_some.mp hb).1
    have hlive' : h.strings.Live c := hgrows.live (.string c) hlive
    have hdata : h.strings.data c = s.heap.strings.data c := hgrows.data (.string c) hlive id
    simp only [State.contents, State.stringData, if_pos hlive, if_pos hlive', hdata]
  | _ => rfl

theorem contents_newArray (hwf : s.heap.PoolsWf) {a : AerArray} (ha : a.shape = none) :
    ({ s with heap := (s.heap.newArray a).2 } : State).contents (s.heap.newArray a).1 =
      some (.items a.items) := by
  have hfresh := hwf.arrays.alloc_fresh a
  have hlive : (s.heap.arrays.alloc a).2.Live (s.heap.arrays.alloc a).1 := (hfresh.live _).mpr (.inl rfl)
  have hread : ({ s with heap := (s.heap.newArray a).2 } : State).arrayData (s.heap.arrays.alloc a).1 =
      some a := (if_pos hlive).trans (congrArg some hfresh.data_self)
  refine Option.bind_eq_some_iff.mpr ⟨a, hread, ?_⟩
  rw [ha]
  rfl

theorem contents_aerMakeString (hwf : s.heap.PoolsWf) (b : Bytes) :
    ({ s with heap := (s.heap.aerMakeString b).2 } : State).contents (s.heap.aerMakeString b).1 =
      some (.text b) := by
  have hfresh := hwf.strings.alloc_fresh b
  have hlive : (s.heap.strings.alloc b).2.Live (s.heap.strings.alloc b).1 :=
    (hfresh.live _).mpr (.inl rfl)
  exact Option.map_eq_some_iff.mpr ⟨b, (if_pos hlive).trans (congrArg some hfresh.data_self), rfl⟩

/-- The end of the instruction: the slice is pushed where the operands were. -/
theorem run_push_slice {obj v : AerVal} {x : Contents} {h : Heap}
    (hroom : s.vm.stackTop < vmStackMax) (hgrows : s.heap.Grows h)
    (hobj : s.contents obj = some x)
    (hv : ({ s with heap := h } : State).contents v = some (x.slice start stop)) :
    ∃ t, (push v).run (exec cfg) { (s.withOperands [obj, first, last]).dropped 3 with heap := h } =
      .done () t ∧ Sliced s obj x start stop t := by
  refine ⟨_, (run_perform _ _ _).trans (if_pos hroom), ⟨v, Function.update_self .., ?_⟩, rfl,
    fun i hi => ?_, ?_, hgrows, rfl⟩
  · exact (contents_congr rfl v).trans hv
  · exact (Function.update_of_ne hi.ne _ _).trans (s.withOperands_below _ hi)
  · exact (contents_congr rfl obj).trans (contents_grows hgrows hobj)

theorem run_lblSliceGet {obj : AerVal} {x : Contents} (hwf : s.heap.PoolsWf)
    (hroom : s.vm.stackTop < vmStackMax) (hobj : s.contents obj = some x)
    (hfirst : s.bound first = some start) (hlast : s.bound last = some stop)
    (hstart : IsLong (start.getD 0)) (hstop : IsLong (stop.getD x.length))
    (hlen : x.length < 2 ^ 32) :
    ∃ t, lblSliceGet.run (exec cfg) (s.withOperands [obj, first, last]) = .done () t ∧
      Sliced s obj x start stop t := by
  let u := (s.withOperands [obj, first, last]).dropped 3
  have h3 : pop.run (exec cfg) (s.withOperands [obj, first, last]) =
      .done last ((s.withOperands [obj, first, last]).dropped 1) :=
    run_pop cfg rfl (s.withOperands_stack [obj, first, last] (i := 2) (show 2 < 3 by decide))
  have h2 : pop.run (exec cfg) ((s.withOperands [obj, first, last]).dropped 1) =
      .done first ((s.withOperands [obj, first, last]).dropped 2) :=
    run_pop cfg rfl (s.withOperands_stack [obj, first, last] (i := 1) (show 1 < 3 by decide))
  have h1 : pop.run (exec cfg) ((s.withOperands [obj, first, last]).dropped 2) = .done obj u :=
    run_pop cfg rfl (s.withOperands_stack [obj, first, last] (i := 0) (show 0 < 3 by decide))
  have hbounds := run_vmSliceBounds cfg (s := u) hfirst hlast hstart hstop hlen
  unfold lblSliceGet
  rw [run_bind, h3, Outcome.done_andThen, run_bind, h2, Outcome.done_andThen, run_bind, h1,
    Outcome.done_andThen]
  have hstored := hobj
  cases obj with
  | array c =>
    obtain ⟨a, ha, hx⟩ := Option.bind_eq_some_iff.mp hobj
    split at hx
    · cases hx
    · next hshape =>
      cases hx
      have harray : (perform (.array c)).run (exec cfg) u = .done a u := by
        refine (run_perform _ _ _).trans ?_
        change orFault (s.arrayData c) u = _
        rw [ha]
        rfl
      have hcopy := slice_eq (l := a.items) hstart hstop hlen
      dsimp only
      rw [run_bind, harray, Outcome.done_andThen, if_neg hshape, run_bind,
        show Prog.run _ (vmSliceBounds first last a.items.length) u = _ from hbounds,
        Outcome.done_andThen]
      dsimp only [Contents.length]
      rw [hcopy, run_bind, show ∀ r, (perform (.newArray r)).run (exec cfg) u =
        .done (s.heap.newArray r).1 { u with heap := (s.heap.newArray r).2 } from
        fun r => run_perform _ _ _, Outcome.done_andThen]
      exact run_push_slice cfg hroom (Heap.grows_newArray hwf _) hstored (contents_newArray hwf rfl)
  | string c =>
    obtain ⟨b, hb, hx⟩ := Option.map_eq_some_iff.mp hobj
    cases hx
    have hstring : (perform (.string c)).run (exec cfg) u = .done b u := by
      refine (run_perform _ _ _).trans ?_
      change orFault (s.stringData c) u = _
      rw [hb]
      rfl
    have hcopy := slice_eq (l := b) hstart hstop hlen
    dsimp only
    rw [run_bind, hstring, Outcome.done_andThen, run_bind,
      show Prog.run _ (vmSliceBounds first last b.length) u = _ from hbounds,
      Outcome.done_andThen]
    dsimp only [Contents.length]
    rw [hcopy, run_bind, show ∀ r, (perform (.newString r)).run (exec cfg) u =
      .done (s.heap.aerMakeString r).1 { u with heap := (s.heap.aerMakeString r).2 } from
      fun r => run_perform _ _ _, Outcome.done_andThen]
    exact run_push_slice cfg hroom (Heap.grows_aerMakeString hwf _) hstored
      (contents_aerMakeString hwf _)
  | _ => cases hobj

end Run

/-- A string in an otherwise empty machine. -/
def holdingHello : State :=
  { State.init with heap := (Heap.init.aerMakeString (bytes "hello")).2 }

theorem holdingHello_wf : holdingHello.heap.PoolsWf :=
  (Heap.grows_aerMakeString Heap.poolsWf_init _).wf Heap.poolsWf_init

example : slice (bytes "hello") (some (-3)) none = bytes "llo" := by decide

end Aer.Machine
