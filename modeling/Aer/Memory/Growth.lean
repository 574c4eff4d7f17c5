import Aer.Memory.Mutator

set_option linter.all false

/-! Heaps that only gain cells: what was in use stays in use, with the same data but
for the cells of a set that may be written. -/
namespace Aer.Memory

open Aer.Data

namespace Heap

variable {x y : Cell → Prop} {h h' h'' : Heap}

def SameData (h h' : Heap) : Cell → Prop
  | .string c => h'.strings.data c = h.strings.data c
  | .array c => h'.arrays.data c = h.arrays.data c
  | .dict c => h'.dicts.data c = h.dicts.data c
  | .function c => h'.functions.data c = h.functions.data c
  | .long c => h'.longs.data c = h.longs.data c

theorem SameData.trans {n : Cell} (hd : SameData h h' n) (hd' : SameData h' h'' n) :
    SameData h h'' n := by
  cases n <;> exact Eq.trans hd' hd

structure GrowsBut (x : Cell → Prop) (h h' : Heap) : Prop where
  live : ∀ n, h.Live n → h'.Live n
  data : ∀ n, h.Live n → ¬ x n → SameData h h' n
  wf : h.PoolsWf → h'.PoolsWf

abbrev Grows (h h' : Heap) : Prop := GrowsBut (fun _ => False) h h'

theorem GrowsBut.refl (x : Cell → Prop) (h : Heap) : GrowsBut x h h where
  live _ hn := hn
  data n _ _ := by cases n <;> rfl
  wf hw := hw

theorem GrowsBut.trans (hg : GrowsBut x h h') (hg' : GrowsBut x h' h'') : GrowsBut x h h'' where
  live n hn := hg'.live n (hg.live n hn)
  data n hn hx := (hg.data n hn hx).trans (hg'.data n (hg.live n hn) hx)
  wf hw := hg'.wf (hg.wf hw)

theorem GrowsBut.weaken (hg : GrowsBut x h h') (hxy : ∀ n, x n → y n) : GrowsBut y h h' where
  live := hg.live
  data n hn hy := hg.data n hn fun hx => hy (hxy n hx)
  wf := hg.wf

theorem Grows.but (hg : Grows h h') (x : Cell → Prop) : GrowsBut x h h' :=
  hg.weaken fun _ hn => hn.elim

/-- Writes to a cell that was not in use before. -/
theorem Grows.written {n : Cell} (hg : Grows h h') (hn : ¬ h.Live n)
    (hw : GrowsBut (· = n) h' h'') : Grows h h'' where
  live m hm := hw.live m (hg.live m hm)
  data m hm _ := (hg.data m hm id).trans
    (hw.data m (hg.live m hm) fun he => hn (he ▸ hm))
  wf hh := hw.wf (hg.wf hh)

theorem poolsWf_init : init.PoolsWf :=
  ⟨Pool.wf_init (by decide), Pool.wf_init (by decide), Pool.wf_init (by decide),
    Pool.wf_init (by decide), Pool.wf_init (by decide)⟩

section Allocations
variable (hw : h.PoolsWf)
include hw

theorem grows_aerMakeString (b : Bytes) : Grows h (h.aerMakeString b).2 where
  live n hn := ((allocated_aerMakeString hw b).live n).mpr (.inr hn)
  data n hn _ := by
    have hf := hw.strings.alloc_fresh b
    cases n with
    | string c => exact hf.data_ne fun he => hf.fresh (he ▸ hn)
    | array c | dict c | function c | long c => rfl
  wf := (allocated_aerMakeString hw b).wf

theorem grows_newLong (n : Int) : Grows h (h.newLong n).2 where
  live m hm := ((allocated_newLong hw n).live m).mpr (.inr hm)
  data m hm _ := by
    have hf := hw.longs.alloc_fresh n
    cases m with
    | long c => exact hf.data_ne fun he => hf.fresh (he ▸ hm)
    | string c | array c | dict c | function c => rfl
  wf := (allocated_newLong hw n).wf

theorem grows_aerInt (n : Int) : Grows h (h.aerInt n).2 := by
  unfold aerInt
  split
  · exact .refl _ h
  · exact grows_newLong hw n

theorem grows_newArray (a : AerArray) : Grows h (h.newArray a).2 where
  live n hn := ((allocated_newArray hw a).live n).mpr (.inr hn)
  data n hn _ := by
    have hf := hw.arrays.alloc_fresh a
    cases n with
    | array c => exact hf.data_ne fun he => hf.fresh (he ▸ hn)
    | string c | dict c | function c | long c => rfl
  wf := (allocated_newArray hw a).wf

theorem grows_newDict (d : HashTable AerVal) : Grows h (h.newDict d).2 where
  live n hn := ((allocated_newDict hw d).live n).mpr (.inr hn)
  data n hn _ := by
    have hf := hw.dicts.alloc_fresh d
    cases n with
    | dict c => exact hf.data_ne fun he => hf.fresh (he ▸ hn)
    | string c | array c | function c | long c => rfl
  wf := (allocated_newDict hw d).wf

theorem grows_newFunction (f : AerFunction) : Grows h (h.newFunction f).2 := by
  have hf := hw.functions.alloc_fresh f
  refine ⟨fun n hn => ?_, fun n hn _ => ?_,
    fun _ => ⟨hw.strings, hw.arrays, hw.dicts, hf.wf, hw.longs⟩⟩
  · cases n with
    | function c => exact (hf.live c).mpr (.inr hn)
    | string c | array c | dict c | long c => exact hn
  · cases n with
    | function c => exact hf.data_ne fun he => hf.fresh (he ▸ hn)
    | string c | array c | dict c | long c => rfl

end Allocations

theorem growsBut_setArray (h : Heap) (c : Nat) (a : AerArray) :
    GrowsBut (· = .array c) h (h.setArray c a) where
  live n hn := by cases n <;> exact hn
  data n _ hx := by
    cases n with
    | array d => exact Function.update_of_ne (fun he => hx (congrArg Cell.array he)) _ _
    | string d | dict d | function d | long d => rfl
  wf hw := ⟨hw.strings, hw.arrays.setData c a, hw.dicts, hw.functions, hw.longs⟩

theorem growsBut_setDict (h : Heap) (c : Nat) (d : HashTable AerVal) :
    GrowsBut (· = .dict c) h (h.setDict c d) where
  live n hn := by cases n <;> exact hn
  data n _ hx := by
    cases n with
    | dict e => exact Function.update_of_ne (fun he => hx (congrArg Cell.dict he)) _ _
    | string e | array e | function e | long e => rfl
  wf hw := ⟨hw.strings, hw.arrays, hw.dicts.setData c d, hw.functions, hw.longs⟩

end Heap

end Aer.Memory
