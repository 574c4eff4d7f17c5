import Aer.Memory.Generations

set_option linter.all false

/-! The mutator steps of a capture-free heap, and the runs that interleave them
with collections in any order. -/
namespace Aer.Memory

open Aer.Data Aer.Lib

namespace Heap

section Allocations
variable {h : Heap} (hw : h.PoolsWf)
include hw

theorem allocated_aerMakeString (b : Bytes) :
    Allocated h (h.aerMakeString b).2 (.string (h.strings.alloc b).1) := by
  have hp := hw.strings.alloc_fresh b
  refine ⟨hp.fresh, ?_, hp.born.1, rfl, ?_, ?_, ?_, rfl, ?_, ?_⟩
  · intro m
    cases m with
    | string c =>
      rw [Cell.string.injEq]
      exact hp.live c
    | array c | dict c | function c | long c => simp [Live, aerMakeString, countAlloc]
  · rintro (c | c | c | c | c) hc
    · exact hp.isYoung (by simpa using hc)
    all_goals rfl
  · rintro (c | c | c | c | c) _ <;> rfl
  · rintro (c | c | c | c | c) _ <;> rfl
  · exact fun hw => ⟨hp.wf, hw.arrays, hw.dicts, hw.functions, hw.longs⟩
  · exact fun hf => ⟨hf.boxes, hf.upvalues⟩

theorem allocated_newLong (n : Int) :
    Allocated h (h.newLong n).2 (.long (h.longs.alloc n).1) := by
  have hp := hw.longs.alloc_fresh n
  refine ⟨hp.fresh, ?_, hp.born.1, rfl, ?_, ?_, ?_, rfl, ?_, ?_⟩
  · intro m
    cases m with
    | long c =>
      rw [Cell.long.injEq]
      exact hp.live c
    | string c | array c | dict c | function c => simp [Live, newLong, countAlloc]
  · rintro (c | c | c | c | c) hc
    case long => exact hp.isYoung (by simpa using hc)
    all_goals rfl
  · rintro (c | c | c | c | c) _ <;> rfl
  · rintro (c | c | c | c | c) _ <;> rfl
  · exact fun hw => ⟨hw.strings, hw.arrays, hw.dicts, hw.functions, hp.wf⟩
  · exact fun hf => ⟨hf.boxes, hf.upvalues⟩

theorem allocated_newArray (a : AerArray) :
    Allocated h (h.newArray a).2 (.array (h.arrays.alloc a).1) := by
  have hp := hw.arrays.alloc_fresh a
  refine ⟨hp.fresh, ?_, hp.born.1, hp.born.2, ?_, ?_, ?_, rfl, ?_, ?_⟩
  · intro m
    cases m with
    | array c =>
      rw [Cell.array.injEq]
      exact hp.live c
    | string c | dict c | function c | long c => simp [Live, newArray, countAlloc]
  · rintro (c | c | c | c | c) hc
    case array => exact hp.isYoung (by simpa using hc)
    all_goals rfl
  · rintro (c | c | c | c | c) hc
    case array => exact hp.isRemembered (by simpa using hc)
    all_goals rfl
  · rintro (c | c | c | c | c) hc
    case array => exact congrArg AerArray.items (hp.data_ne (by simpa using hc))
    all_goals rfl
  · exact fun hw => ⟨hw.strings, hp.wf, hw.dicts, hw.functions, hw.longs⟩
  · exact fun hf => ⟨hf.boxes, hf.upvalues⟩

theorem allocated_newDict (d : HashTable AerVal) :
    Allocated h (h.newDict d).2 (.dict (h.dicts.alloc d).1) := by
  have hp := hw.dicts.alloc_fresh d
  refine ⟨hp.fresh, ?_, hp.born.1, hp.born.2, ?_, ?_, ?_, rfl, ?_, ?_⟩
  · intro m
    cases m with
    | dict c =>
      rw [Cell.dict.injEq]
      exact hp.live c
    | string c | array c | function c | long c => simp [Live, newDict, countAlloc]
  · rintro (c | c | c | c | c) hc
    case dict => exact hp.isYoung (by simpa using hc)
    all_goals rfl
  · rintro (c | c | c | c | c) hc
    case dict => exact hp.isRemembered (by simpa using hc)
    all_goals rfl
  · rintro (c | c | c | c | c) hc
    case dict => exact congrArg HashTable.values (hp.data_ne (by simpa using hc))
    all_goals rfl
  · exact fun hw => ⟨hw.strings, hw.arrays, hp.wf, hw.functions, hw.longs⟩
  · exact fun hf => ⟨hf.boxes, hf.upvalues⟩

theorem allocated_newFunction {f : AerFunction} (hf : f.upvalues = []) (hc : h.CaptureFree) :
    Allocated h (h.newFunction f).2 (.function (h.functions.alloc f).1) := by
  have hp := hw.functions.alloc_fresh f
  have hfree : (h.newFunction f).2.CaptureFree := by
    refine ⟨hc.boxes, fun c => ?_⟩
    change (((h.functions.alloc f).2).data c).upvalues = []
    by_cases he : c = (h.functions.alloc f).1
    · rw [he, hp.data_self, hf]
    · rw [hp.data_ne he, hc.upvalues]
  refine ⟨hp.fresh, ?_, hp.born.1, rfl, ?_, ?_, ?_, rfl, ?_, fun _ => hfree⟩
  · intro m
    cases m with
    | function c =>
      rw [Cell.function.injEq]
      exact hp.live c
    | string c | array c | dict c | long c => simp [Live, newFunction, countAlloc]
  · rintro (c | c | c | c | c) hc
    case function => exact hp.isYoung (by simpa using hc)
    all_goals rfl
  · rintro (c | c | c | c | c) _ <;> rfl
  · rintro (c | c | c | c | c) _
    case function => rw [edges_function hfree, edges_function hc]
    all_goals rfl
  · exact fun hw => ⟨hw.strings, hw.arrays, hw.dicts, hp.wf, hw.longs⟩

end Allocations

section Stores
variable {h : Heap}

/-- What a write barrier leaves: the same cells, and possibly one more entry. -/
structure Barriered (h h' : Heap) : Prop where
  live : ∀ m, h'.Live m ↔ h.Live m
  isYoung : ∀ m, h'.isYoung m = h.isYoung m
  edges : ∀ m, h'.edges m = h.edges m
  remembered : ∀ r ∈ h.remembered, r ∈ h'.remembered
  bit : ∀ m, h'.rememberedBit m = true → h.rememberedBit m = true ∨ h'.InRemembered m
  wf : h.PoolsWf → h'.PoolsWf
  captureFree : h.CaptureFree → h'.CaptureFree

theorem Barriered.refl (h : Heap) : Barriered h h :=
  ⟨fun _ => .rfl, fun _ => rfl, fun _ => rfl, fun _ hr => hr, fun _ hb => .inl hb, id, id⟩

/-- `InRemembered` for a cell whose bit is set, or that has just been entered. -/
theorem gcRemember_array (c : Nat) :
    Barriered h (h.gcRemember (.array c)) ∧
      ((h.rememberedBit (.array c) = true → h.InRemembered (.array c)) →
        (h.gcRemember (.array c)).InRemembered (.array c)) := by
  cases hb : h.arrays.isRemembered c with
  | true =>
    simp only [gcRemember, hb, ↓reduceIte]
    exact ⟨.refl h, fun hin => hin hb⟩
  | false =>
    simp only [gcRemember, hb, Bool.false_eq_true, ↓reduceIte]
    have hin : ({ h with arrays := h.arrays.markRemembered c
                         remembered := h.remembered ++ [.array c] } : Heap).InRemembered (.array c) :=
      ⟨.array c, rfl, by simp⟩
    refine ⟨⟨?_, ?_, ?_, ?_, ?_, ?_, ?_⟩, fun _ => hin⟩
    · rintro (d | d | d | d | d) <;> simp [Live, Pool.Live]
    · rintro (d | d | d | d | d) <;> simp [isYoung]
    · rintro (d | d | d | d | d) <;> rfl
    · exact fun r hr => List.mem_append_left _ hr
    · rintro (d | d | d | d | d) hbit
      case array =>
        rcases (Pool.isRemembered_markRemembered _ c d).mp hbit with rfl | hbit
        · exact .inr hin
        · exact .inl hbit
      all_goals exact .inl hbit
    · exact fun hw => ⟨hw.strings, hw.arrays.markRemembered c, hw.dicts, hw.functions, hw.longs⟩
    · exact fun hf => ⟨hf.boxes, hf.upvalues⟩

theorem gcRemember_dict (c : Nat) :
    Barriered h (h.gcRemember (.dict c)) ∧
      ((h.rememberedBit (.dict c) = true → h.InRemembered (.dict c)) →
        (h.gcRemember (.dict c)).InRemembered (.dict c)) := by
  cases hb : h.dicts.isRemembered c with
  | true =>
    simp only [gcRemember, hb, ↓reduceIte]
    exact ⟨.refl h, fun hin => hin hb⟩
  | false =>
    simp only [gcRemember, hb, Bool.false_eq_true, ↓reduceIte]
    have hin : ({ h with dicts := h.dicts.markRemembered c
                         remembered := h.remembered ++ [.dict c] } : Heap).InRemembered (.dict c) :=
      ⟨.dict c, rfl, by simp⟩
    refine ⟨⟨?_, ?_, ?_, ?_, ?_, ?_, ?_⟩, fun _ => hin⟩
    · rintro (d | d | d | d | d) <;> simp [Live, Pool.Live]
    · rintro (d | d | d | d | d) <;> simp [isYoung]
    · rintro (d | d | d | d | d) <;> rfl
    · exact fun r hr => List.mem_append_left _ hr
    · rintro (d | d | d | d | d) hbit
      case dict =>
        rcases (Pool.isRemembered_markRemembered _ c d).mp hbit with rfl | hbit
        · exact .inr hin
        · exact .inl hbit
      all_goals exact .inl hbit
    · exact fun hw => ⟨hw.strings, hw.arrays, hw.dicts.markRemembered c, hw.functions, hw.longs⟩
    · exact fun hf => ⟨hf.boxes, hf.upvalues⟩

/-- The barrier of an array write: an old array that gains a young item is remembered. -/
theorem gcBarrierArray_spec (c : Nat) (v : AerVal) :
    Barriered h (h.gcBarrierArray c v) ∧
      (h.isYoung (.array c) = false → h.valueIsYoung v = true →
        (h.rememberedBit (.array c) = true → h.InRemembered (.array c)) →
        (h.gcBarrierArray c v).InRemembered (.array c)) := by
  unfold gcBarrierArray
  cases hy : h.arrays.isYoung c with
  | true =>
    simp only [↓reduceIte]
    exact ⟨.refl h, fun hold => absurd hy (by simpa [isYoung] using hold)⟩
  | false =>
    cases hv : h.valueIsYoung v with
    | false =>
      simp only [Bool.false_eq_true, Bool.not_false, ↓reduceIte]
      exact ⟨.refl h, fun _ hyoung => by simp at hyoung⟩
    | true =>
      simp only [Bool.false_eq_true, Bool.not_true, ↓reduceIte]
      exact ⟨(gcRemember_array c).1, fun _ _ => (gcRemember_array c).2⟩

theorem gcBarrierDict_spec (c : Nat) (v : AerVal) :
    Barriered h (h.gcBarrierDict c v) ∧
      (h.isYoung (.dict c) = false → h.valueIsYoung v = true →
        (h.rememberedBit (.dict c) = true → h.InRemembered (.dict c)) →
        (h.gcBarrierDict c v).InRemembered (.dict c)) := by
  unfold gcBarrierDict
  cases hy : h.dicts.isYoung c with
  | true =>
    simp only [↓reduceIte]
    exact ⟨.refl h, fun hold => absurd hy (by simpa [isYoung] using hold)⟩
  | false =>
    cases hv : h.valueIsYoung v with
    | false =>
      simp only [Bool.false_eq_true, Bool.not_false, ↓reduceIte]
      exact ⟨.refl h, fun _ hyoung => by simp at hyoung⟩
    | true =>
      simp only [Bool.false_eq_true, Bool.not_true, ↓reduceIte]
      exact ⟨(gcRemember_dict c).1, fun _ _ => (gcRemember_dict c).2⟩

theorem stored_setArray {h' : Heap} (hb : Barriered h h') (c : Nat) (a : AerArray)
    (hnew : h.isYoung (.array c) = false →
      (h.rememberedBit (.array c) = true → h.InRemembered (.array c)) →
      ∀ v ∈ a.items, v ∉ h.edges (.array c) → h.valueIsYoung v = true → h'.InRemembered (.array c)) :
    Stored h (h'.setArray c a) (.array c) a.items := by
  refine ⟨hb.live, hb.isYoung, ?_, ?_, hb.remembered, hb.bit, hnew, ?_, ?_⟩
  · rintro (d | d | d | d | d) hd
    · exact hb.edges (.string d)
    · refine Eq.trans (congrArg AerArray.items ?_) (hb.edges (.array d))
      exact Function.update_of_ne (by simpa using hd) _ _
    · exact hb.edges (.dict d)
    · exact hb.edges (.function d)
    · exact hb.edges (.long d)
  · exact congrArg AerArray.items (Function.update_self ..)
  · intro hw
    have := hb.wf hw
    exact ⟨this.strings, this.arrays.setData c a, this.dicts, this.functions, this.longs⟩
  · exact fun hf => ⟨(hb.captureFree hf).boxes, (hb.captureFree hf).upvalues⟩

theorem stored_setDict {h' : Heap} (hb : Barriered h h') (c : Nat) (d : HashTable AerVal)
    (hnew : h.isYoung (.dict c) = false →
      (h.rememberedBit (.dict c) = true → h.InRemembered (.dict c)) →
      ∀ v ∈ d.values, v ∉ h.edges (.dict c) → h.valueIsYoung v = true → h'.InRemembered (.dict c)) :
    Stored h (h'.setDict c d) (.dict c) d.values := by
  refine ⟨hb.live, hb.isYoung, ?_, ?_, hb.remembered, hb.bit, hnew, ?_, ?_⟩
  · rintro (e | e | e | e | e) he
    · exact hb.edges (.string e)
    · exact hb.edges (.array e)
    · refine Eq.trans (congrArg HashTable.values ?_) (hb.edges (.dict e))
      exact Function.update_of_ne (by simpa using he) _ _
    · exact hb.edges (.function e)
    · exact hb.edges (.long e)
  · exact congrArg HashTable.values (Function.update_self ..)
  · intro hw
    have := hb.wf hw
    exact ⟨this.strings, this.arrays, this.dicts.setData c d, this.functions, this.longs⟩
  · exact fun hf => ⟨(hb.captureFree hf).boxes, (hb.captureFree hf).upvalues⟩

/-- A store of `v` behind the array barrier. -/
theorem stored_array (c : Nat) (v : AerVal) {a : AerArray}
    (hitems : ∀ w ∈ a.items, w ∈ h.edges (.array c) ∨ w = v) :
    Stored h ((h.gcBarrierArray c v).setArray c a) (.array c) a.items := by
  obtain ⟨hb, hin⟩ := @gcBarrierArray_spec h c v
  refine stored_setArray hb c a ?_
  intro hold hbit w hw hnew hyoung
  rcases hitems w hw with hw | rfl
  · exact absurd hw hnew
  · exact hin hold hyoung hbit

theorem stored_dict (c : Nat) (v : AerVal) {d : HashTable AerVal}
    (hvalues : ∀ w ∈ d.values, w ∈ h.edges (.dict c) ∨ w = v) :
    Stored h ((h.gcBarrierDict c v).setDict c d) (.dict c) d.values := by
  obtain ⟨hb, hin⟩ := @gcBarrierDict_spec h c v
  refine stored_setDict hb c d ?_
  intro hold hbit w hw hnew hyoung
  rcases hvalues w hw with hw | rfl
  · exact absurd hw hnew
  · exact hin hold hyoung hbit

/-! Each store of the program puts at most one new value into one container. -/

theorem stored_appendItem (h : Heap) (c : Nat) (v : AerVal) :
    ∃ vs, Stored h (h.appendItem c v) (.array c) vs ∧ ∀ w ∈ vs, w ∈ h.edges (.array c) ∨ w = v := by
  have hitems : ∀ w ∈ (h.arrays.data c).items ++ [v], w ∈ h.edges (.array c) ∨ w = v :=
    fun w hw => (List.mem_append.mp hw).imp id List.mem_singleton.mp
  exact ⟨_, stored_array c v hitems, hitems⟩

theorem stored_setItem (h : Heap) (c i : Nat) (v : AerVal) :
    ∃ vs, Stored h (h.setItem c i v) (.array c) vs ∧ ∀ w ∈ vs, w ∈ h.edges (.array c) ∨ w = v := by
  have hitems : ∀ w ∈ (h.arrays.data c).items.set i v, w ∈ h.edges (.array c) ∨ w = v :=
    fun w hw => List.mem_or_eq_of_mem_set hw
  exact ⟨_, stored_array c v hitems, hitems⟩

theorem stored_setEntry (h : Heap) (c : Nat) (key : Bytes) (v : AerVal) :
    ∃ vs, Stored h (h.setEntry c key v) (.dict c) vs ∧ ∀ w ∈ vs, w ∈ h.edges (.dict c) ∨ w = v := by
  have hold : (h.dicts.data c).Holds fun w => w ∈ h.edges (.dict c) ∨ w = v :=
    HashTable.holds_values.mpr fun w hw => .inl hw
  unfold setEntry
  dsimp only
  split
  · have hd := HashTable.holds_values.mp (hold.insert (cString key) (.inr rfl))
    exact ⟨_, stored_dict c v hd, hd⟩
  · have hd := HashTable.holds_values.mp (hold.put key (.inr rfl))
    exact ⟨_, stored_dict c v hd, hd⟩

/-- A store of some of the old items, which needs no barrier. -/
theorem stored_some (c : Nat) {a : AerArray} (hitems : ∀ w ∈ a.items, w ∈ h.edges (.array c)) :
    Stored h (h.setArray c a) (.array c) a.items :=
  stored_setArray (.refl h) c a fun _ _ w hw hnew => absurd (hitems w hw) hnew

theorem stored_deleteEntry (h : Heap) (c : Nat) (key : Bytes) :
    ∃ vs, Stored h (h.deleteEntry c key) (.dict c) vs ∧ ∀ w ∈ vs, w ∈ h.edges (.dict c) := by
  have hold : (h.dicts.data c).Holds (· ∈ h.edges (.dict c)) :=
    HashTable.holds_values.mpr fun _ hw => hw
  have hd := HashTable.holds_values.mp (hold.remove key)
  exact ⟨_, stored_setDict (.refl h) c _ fun _ _ w hw hnew => absurd (hd w hw) hnew, hd⟩

end Stores

/-- A mutator step that keeps the invariant and frees nothing. -/
structure Keeps (h h' : Heap) : Prop where
  generational : h'.Generational
  live : ∀ n, h.Live n → h'.Live n

theorem Keeps.valid {h h' : Heap} (hk : Keeps h h') {v : AerVal} (hv : h.Valid v) : h'.Valid v :=
  fun n hn => hk.live n (hv n hn)

theorem Keeps.refl {h : Heap} (hg : h.Generational) : Keeps h h := ⟨hg, fun _ hn => hn⟩

theorem Allocated.keeps {h h' : Heap} {n : Cell} (ha : Allocated h h' n) (hg : h.Generational)
    (hn : ∀ v ∈ h'.edges n, h.Valid v) : Keeps h h' :=
  ⟨hg.allocated ha hn, fun m hm => (ha.live m).mpr (.inr hm)⟩

theorem Allocated.validNew {h h' : Heap} {n : Cell} (ha : Allocated h h' n) {v : AerVal}
    (hv : Cell.ofVal v = some n) : h'.Valid v := by
  intro m hm
  rw [hv] at hm
  cases hm
  exact (ha.live n).mpr (.inl rfl)

theorem Stored.keeps {h h' : Heap} {n : Cell} {vs : List AerVal} (hs : Stored h h' n vs)
    (hg : h.Generational) (hvs : ∀ v ∈ vs, h.Valid v) : Keeps h h' :=
  ⟨hg.stored hs hvs, fun m hm => (hs.live m).mpr hm⟩

section Steps
variable {h : Heap} (hg : h.Generational)
include hg

theorem keeps_aerMakeString (b : Bytes) :
    Keeps h (h.aerMakeString b).2 ∧ (h.aerMakeString b).2.Valid (h.aerMakeString b).1 := by
  have ha := allocated_aerMakeString hg.wf b
  exact ⟨ha.keeps hg (by simp [edges]), ha.validNew rfl⟩

theorem keeps_aerInt (n : Int) :
    Keeps h (h.aerInt n).2 ∧ (h.aerInt n).2.Valid (h.aerInt n).1 := by
  unfold aerInt
  split
  · exact ⟨.refl hg, by simp [Valid, Cell.ofVal]⟩
  · have ha := allocated_newLong hg.wf n
    exact ⟨ha.keeps hg (by simp [edges]), ha.validNew rfl⟩

theorem keeps_newArray {a : AerArray} (hitems : ∀ v ∈ a.items, h.Valid v) :
    Keeps h (h.newArray a).2 ∧ (h.newArray a).2.Valid (h.newArray a).1 := by
  have ha := allocated_newArray hg.wf a
  have hedges : (h.newArray a).2.edges (.array (h.arrays.alloc a).1) = a.items :=
    congrArg AerArray.items (hg.wf.arrays.alloc_fresh a).data_self
  exact ⟨ha.keeps hg (by rwa [hedges]), ha.validNew rfl⟩

theorem keeps_newDict {d : HashTable AerVal} (hd : ∀ v ∈ d.values, h.Valid v) :
    Keeps h (h.newDict d).2 ∧ (h.newDict d).2.Valid (h.newDict d).1 := by
  have ha := allocated_newDict hg.wf d
  have hedges : (h.newDict d).2.edges (.dict (h.dicts.alloc d).1) = d.values :=
    congrArg HashTable.values (hg.wf.dicts.alloc_fresh d).data_self
  exact ⟨ha.keeps hg (by rwa [hedges]), ha.validNew rfl⟩

theorem keeps_newFunction {f : AerFunction} (hf : f.upvalues = []) :
    Keeps h (h.newFunction f).2 ∧ (h.newFunction f).2.Valid (h.newFunction f).1 := by
  have ha := allocated_newFunction hg.wf hf hg.captureFree
  have hedges := edges_function (ha.captureFree hg.captureFree) (h.functions.alloc f).1
  exact ⟨ha.keeps hg (by simp [hedges]), ha.validNew rfl⟩

/-- A store of old values of the container and one valid value. -/
theorem keeps_stored {h' : Heap} {n : Cell} (hn : h.Live n) {v : AerVal} (hv : h.Valid v)
    (hs : ∃ vs, Stored h h' n vs ∧ ∀ w ∈ vs, w ∈ h.edges n ∨ w = v) : Keeps h h' := by
  obtain ⟨vs, hs, hvs⟩ := hs
  refine hs.keeps hg fun w hw => ?_
  rcases hvs w hw with hw | rfl
  · exact hg.valid _ hn w hw
  · exact hv

theorem keeps_some {h' : Heap} {n : Cell} (hn : h.Live n)
    (hs : ∃ vs, Stored h h' n vs ∧ ∀ w ∈ vs, w ∈ h.edges n) : Keeps h h' := by
  obtain ⟨vs, hs, hvs⟩ := hs
  exact hs.keeps hg fun w hw => hg.valid _ hn w (hvs w hw)

theorem keeps_setArray {c : Nat} (hc : h.Live (.array c)) {a : AerArray}
    (hitems : ∀ w ∈ a.items, w ∈ h.edges (.array c)) : Keeps h (h.setArray c a) :=
  keeps_some hg hc ⟨_, stored_some c hitems, hitems⟩

theorem keeps_appendItem {c : Nat} (hc : h.Live (.array c)) {v : AerVal} (hv : h.Valid v) :
    Keeps h (h.appendItem c v) :=
  keeps_stored hg hc hv (h.stored_appendItem c v)

theorem keeps_setItem {c : Nat} (hc : h.Live (.array c)) (i : Nat) {v : AerVal} (hv : h.Valid v) :
    Keeps h (h.setItem c i v) :=
  keeps_stored hg hc hv (h.stored_setItem c i v)

theorem keeps_deleteItem {c : Nat} (hc : h.Live (.array c)) (i : Nat) :
    Keeps h (h.deleteItem c i) :=
  keeps_setArray hg hc fun _ hw => List.mem_of_mem_eraseIdx hw

theorem keeps_setEntry {c : Nat} (hc : h.Live (.dict c)) (key : Bytes) {v : AerVal}
    (hv : h.Valid v) : Keeps h (h.setEntry c key v) :=
  keeps_stored hg hc hv (h.stored_setEntry c key v)

theorem keeps_deleteEntry {c : Nat} (hc : h.Live (.dict c)) (key : Bytes) :
    Keeps h (h.deleteEntry c key) :=
  keeps_some hg hc (h.stored_deleteEntry c key)

end Steps

end Heap

/-! Runs: a heap and the roots of its VM, changed by the program and the collector. -/

structure Mutator where
  heap : Heap
  roots : List Root

namespace Mutator

open Heap

def init : Mutator := ⟨.init, []⟩

def rootVals (m : Mutator) : List AerVal := m.roots.map Root.toVal

/-- A value the program can have: one without a cell, or one reachable from its roots. -/
def Holds (m : Mutator) (v : AerVal) : Prop :=
  ∀ n, Cell.ofVal v = some n → m.heap.Reaches m.rootVals n

/-- Continue with the heap and the value of an allocation. -/
def gain (m : Mutator) (r : AerVal × Heap) : Mutator := ⟨r.2, .value r.1 :: m.roots⟩

def withHeap (m : Mutator) (h : Heap) : Mutator := { m with heap := h }

inductive Step : Mutator → Mutator → Prop
  | newString (m) (b : Bytes) : Step m (m.gain (m.heap.aerMakeString b))
  | newInt (m) (n : Int) : Step m (m.gain (m.heap.aerInt n))
  | newArray (m) (a : AerArray) (ha : ∀ v ∈ a.items, m.Holds v) : Step m (m.gain (m.heap.newArray a))
  | newDict (m) (d : HashTable AerVal) (hd : ∀ v ∈ d.values, m.Holds v) :
      Step m (m.gain (m.heap.newDict d))
  | newFunction (m) (f : AerFunction) (hf : f.upvalues = []) : Step m (m.gain (m.heap.newFunction f))
  | append (m) (c : Nat) (v : AerVal) (hc : m.Holds (.array c)) (hv : m.Holds v) :
      Step m (m.withHeap (m.heap.appendItem c v))
  | setItem (m) (c i : Nat) (v : AerVal) (hc : m.Holds (.array c)) (hv : m.Holds v) :
      Step m (m.withHeap (m.heap.setItem c i v))
  | deleteItem (m) (c i : Nat) (hc : m.Holds (.array c)) : Step m (m.withHeap (m.heap.deleteItem c i))
  | sort (m) (c : Nat) (items : List AerVal) (hc : m.Holds (.array c))
      (hperm : items.Perm (m.heap.arrays.data c).items) :
      Step m (m.withHeap (m.heap.setArray c { m.heap.arrays.data c with items }))
  | setEntry (m) (c : Nat) (key : Bytes) (v : AerVal) (hc : m.Holds (.dict c)) (hv : m.Holds v) :
      Step m (m.withHeap (m.heap.setEntry c key v))
  | deleteEntry (m) (c : Nat) (key : Bytes) (hc : m.Holds (.dict c)) :
      Step m (m.withHeap (m.heap.deleteEntry c key))
  | setRoots (m) (roots : List Root) (hr : ∀ r ∈ roots, m.Holds r.toVal) : Step m { m with roots }
  | collect (m) (minor : Bool) : Step m (m.withHeap (m.heap.gcCollect m.roots minor))

/-- The invariant of a run. -/
structure Inv (m : Mutator) : Prop where
  generational : m.heap.Generational
  roots : ∀ r ∈ m.roots, m.heap.Valid r.toVal

theorem Inv.rootVals {m : Mutator} (hi : m.Inv) : ∀ v ∈ m.rootVals, m.heap.Valid v := by
  intro v hv
  obtain ⟨r, hr, rfl⟩ := List.mem_map.mp hv
  exact hi.roots r hr

theorem Inv.live {m : Mutator} (hi : m.Inv) {n : Cell} (hn : m.heap.Reaches m.rootVals n) :
    m.heap.Live n :=
  hi.generational.live_of_reach hi.rootVals hn

theorem Inv.valid {m : Mutator} (hi : m.Inv) {v : AerVal} (hv : m.Holds v) : m.heap.Valid v :=
  fun n hn => hi.live (hv n hn)

theorem Inv.withHeap {m : Mutator} (hi : m.Inv) {h : Heap} (hk : Keeps m.heap h) :
    (m.withHeap h).Inv :=
  ⟨hk.generational, fun r hr => hk.valid (hi.roots r hr)⟩

theorem Inv.gain {m : Mutator} (hi : m.Inv) {r : AerVal × Heap}
    (hk : Keeps m.heap r.2 ∧ r.2.Valid r.1) : (m.gain r).Inv := by
  refine ⟨hk.1.generational, ?_⟩
  intro s hs
  cases List.mem_cons.mp hs with
  | inl he =>
    rw [he]
    exact hk.2
  | inr hs => exact hk.1.valid (hi.roots s hs)

theorem inv_init : init.Inv := by
  have hnone : ∀ n, ¬ Heap.init.Live n := by
    intro n hn
    have := isCarved_of_live hn
    cases n <;> cases this
  have hwf : ∀ (α : Type) [Inhabited α] (n : Nat), 0 < n → (Pool.init n : Pool α).Wf :=
    fun _ _ _ hn => Pool.wf_init hn
  refine ⟨⟨⟨?_, ?_, ?_, ?_, ?_⟩, ⟨?_, ?_⟩, ?_, ?_, ?_⟩, by simp [init]⟩
  iterate 5 exact hwf _ _ (by decide)
  · exact fun c hc => absurd hc.1 (Nat.not_lt_zero c)
  · exact fun _ => rfl
  · exact fun n hn => absurd hn (hnone n)
  · exact fun n hn => absurd hn (hnone n)
  · exact fun n hn => absurd hn (hnone n)

theorem Inv.step {m m' : Mutator} (hi : m.Inv) (hs : Step m m') : m'.Inv := by
  have hg := hi.generational
  cases hs with
  | newString b => exact hi.gain (keeps_aerMakeString hg b)
  | newInt n => exact hi.gain (keeps_aerInt hg n)
  | newArray a ha => exact hi.gain (keeps_newArray hg fun v hv => hi.valid (ha v hv))
  | newDict d hd => exact hi.gain (keeps_newDict hg fun v hv => hi.valid (hd v hv))
  | newFunction f hf => exact hi.gain (keeps_newFunction hg hf)
  | append c v hc hv =>
    exact hi.withHeap (keeps_appendItem hg (hi.valid hc _ rfl) (hi.valid hv))
  | setItem c i v hc hv =>
    exact hi.withHeap (keeps_setItem hg (hi.valid hc _ rfl) i (hi.valid hv))
  | deleteItem c i hc => exact hi.withHeap (keeps_deleteItem hg (hi.valid hc _ rfl) i)
  | sort c items hc hperm =>
    exact hi.withHeap (keeps_setArray hg (hi.valid hc _ rfl) fun w hw => hperm.mem_iff.mp hw)
  | setEntry c key v hc hv =>
    exact hi.withHeap (keeps_setEntry hg (hi.valid hc _ rfl) key (hi.valid hv))
  | deleteEntry c key hc =>
    exact hi.withHeap (keeps_deleteEntry hg (hi.valid hc _ rfl) key)
  | setRoots roots hr => exact ⟨hg, fun r hr' => hi.valid (hr r hr')⟩
  | collect minor =>
    refine ⟨hg.gcCollect minor, fun r hr n hn => ?_⟩
    have hlive := hi.roots r hr n hn
    exact live_gcCollect_of_reach minor hlive
      (.root (List.mem_map_of_mem hr) (cellOf_of_live hn hlive))

/-- The states of a program that starts with an empty heap. -/
inductive Run : Mutator → Prop
  | init : Run init
  | step {m m'} : Run m → Step m m' → Run m'

theorem Run.inv {m : Mutator} (hr : Run m) : m.Inv := by
  induction hr with
  | init => exact inv_init
  | step _ hs ih => exact ih.step hs

/-- Along every run, no reachable cell is freed by either collection, no container
in use refers to a freed cell, and after a major collection the cells in use are
the reachable ones. -/
theorem Run.collections {m : Mutator} (hr : Run m) :
    (∀ n, m.heap.Reaches m.rootVals n →
      m.heap.Live n ∧ ∀ minor, (m.heap.gcCollect m.roots minor).Live n) ∧
    (∀ n, m.heap.Live n → ∀ v ∈ m.heap.edges n, m.heap.Valid v) ∧
    (∀ n, (m.heap.gcCollect m.roots false).Live n ↔
      (m.heap.gcCollect m.roots false).Reaches m.rootVals n) ∧
    ∀ c, ¬ m.heap.boxes.Live c := by
  have hi := hr.inv
  refine ⟨fun n hn => ⟨hi.live hn, fun minor => ?_⟩, hi.generational.valid, ?_,
    hi.generational.captureFree.boxes⟩
  · exact live_gcCollect_of_reach minor (hi.live hn) hn
  · exact live_major_iff hi.generational hi.roots

/-- A string beside an array that an earlier collection has made old. -/
def sampleOld : Mutator :=
  let m := init.gain (init.heap.newArray ⟨[], 4, none⟩)
  let m := m.withHeap (m.heap.gcCollect m.roots true)
  m.gain (m.heap.aerMakeString (bytes "young"))

/-- The string is appended to the array, and a minor collection runs. -/
def sample : Mutator :=
  let m := sampleOld.withHeap (sampleOld.heap.appendItem 0 (.string 0))
  m.withHeap (m.heap.gcCollect m.roots true)

theorem run_sample : Run sample := by
  have hold : Run sampleOld :=
    .step (.step (.step .init (.newArray _ ⟨[], 4, none⟩ (by simp))) (.collect _ true))
      (.newString _ (bytes "young"))
  refine .step (.step hold (.append _ 0 (.string 0) ?_ ?_)) (.collect _ true)
  · rintro n ⟨⟩
    exact .root (k := .array 0) (by decide) rfl
  · rintro n ⟨⟩
    exact .root (k := .string 0) (by decide) rfl

theorem Run.collections_sample :
    (∀ n, sample.heap.Reaches sample.rootVals n →
      sample.heap.Live n ∧ ∀ minor, (sample.heap.gcCollect sample.roots minor).Live n) ∧
    (∀ n, sample.heap.Live n → ∀ v ∈ sample.heap.edges n, sample.heap.Valid v) ∧
    (∀ n, (sample.heap.gcCollect sample.roots false).Live n ↔
      (sample.heap.gcCollect sample.roots false).Reaches sample.rootVals n) ∧
    ∀ c, ¬ sample.heap.boxes.Live c :=
  Run.collections run_sample

end Mutator

end Aer.Memory
