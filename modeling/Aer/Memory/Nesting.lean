import Aer.Lib.Unfolding
import Aer.Memory.Mutator

set_option linter.all false

/-! How the values of a heap are nested, along the runs of a program that builds containers:
literals, struct instances, stores into them, and collections in between. -/
namespace Aer.Memory

open Aer.Data Aer.Lib.Unfolding Relation

theorem Cell.ofVal_inj {v w : AerVal} {n : Cell} (hv : Cell.ofVal v = some n)
    (hw : Cell.ofVal w = some n) : v = w := by
  cases v <;> cases hv <;> cases w <;> cases hw <;> rfl

namespace Heap

/-- The values directly inside a value: array items, struct fields and dict entries. -/
def inside (h : Heap) : AerVal → List AerVal
  | .array c => if h.arrays.Live c then (h.arrays.data c).items else []
  | .dict c => if h.dicts.Live c then (h.dicts.data c).values else []
  | _ => []

theorem mem_inside {h : Heap} {a b : AerVal} : b ∈ h.inside a ↔
    ∃ n, Cell.ofVal a = some n ∧ (entryOf n).isSome = true ∧ h.Live n ∧ b ∈ h.edges n := by
  constructor
  · intro hb
    cases a with
    | array c =>
      obtain ⟨hlive, hb⟩ := List.mem_ite_nil_right.mp hb
      exact ⟨.array c, rfl, rfl, hlive, hb⟩
    | dict c =>
      obtain ⟨hlive, hb⟩ := List.mem_ite_nil_right.mp hb
      exact ⟨.dict c, rfl, rfl, hlive, hb⟩
    | _ => cases hb
  · rintro ⟨n, hn, hentry, hb⟩
    cases a with
    | array c =>
      cases hn
      exact List.mem_ite_nil_right (p := h.arrays.Live c).mpr hb
    | dict c =>
      cases hn
      exact List.mem_ite_nil_right (p := h.dicts.Live c).mpr hb
    | string c | long c | function c =>
      cases hn
      cases hentry
    | _ => cases hn

/-- `w` is put into `c`, directly. -/
def Linked (h h' : Heap) (w c : AerVal) : Prop :=
  ∀ b a, b ∈ h'.inside a → b ∈ h.inside a ∨ b = w ∧ a = c

section Changes
variable {h h' : Heap} {n : Cell} {c w : AerVal}

theorem linked_stored (hc : Cell.ofVal c = some n)
    (hs : ∃ vs, Stored h h' n vs ∧ ∀ v ∈ vs, v ∈ h.edges n ∨ v = w) : h.Linked h' w c := by
  obtain ⟨vs, hs, hvs⟩ := hs
  intro b a hb
  obtain ⟨m, hm, hentry, hlive, hb⟩ := mem_inside.mp hb
  by_cases hmn : m = n
  · rw [hmn, hs.stored] at hb
    refine (hvs b hb).imp (fun hb => mem_inside.mpr ⟨m, hm, hentry, (hs.live m).mp hlive, ?_⟩)
      fun hb => ⟨hb, Cell.ofVal_inj (hmn ▸ hm) hc⟩
    rwa [hmn]
  · rw [hs.edges m hmn] at hb
    exact .inl (mem_inside.mpr ⟨m, hm, hentry, (hs.live m).mp hlive, hb⟩)

theorem inside_subset_stored (hs : ∃ vs, Stored h h' n vs ∧ ∀ v ∈ vs, v ∈ h.edges n) :
    ∀ b a, b ∈ h'.inside a → b ∈ h.inside a := by
  obtain ⟨vs, hs, hvs⟩ := hs
  intro b a hb
  obtain ⟨m, hm, hentry, hlive, hb⟩ := mem_inside.mp hb
  refine mem_inside.mpr ⟨m, hm, hentry, (hs.live m).mp hlive, ?_⟩
  by_cases hmn : m = n
  · rw [hmn, hs.stored] at hb
    exact hmn ▸ hvs b hb
  · rwa [hs.edges m hmn] at hb

/-- A new container `c`, which nothing holds yet. -/
def Fresh (h h' : Heap) (c : AerVal) : Prop :=
  (∀ b a, b ∈ h'.inside a → b ∈ h.inside a ∨ a = c) ∧ ∀ a, c ∉ h'.inside a

theorem fresh_allocated (hg : h.Generational) (ha : Allocated h h' n) (hc : Cell.ofVal c = some n)
    (hvs : ∀ v ∈ h'.edges n, h.Valid v) : h.Fresh h' c := by
  constructor
  · intro b a hb
    obtain ⟨m, hm, hentry, hlive, hb⟩ := mem_inside.mp hb
    by_cases hmn : m = n
    · exact .inr (Cell.ofVal_inj (hmn ▸ hm) hc)
    · rw [ha.edges m hmn] at hb
      exact .inl (mem_inside.mpr ⟨m, hm, hentry, ((ha.live m).mp hlive).resolve_left hmn, hb⟩)
  · intro a hca
    obtain ⟨m, hm, hentry, hlive, hca⟩ := mem_inside.mp hca
    apply ha.fresh
    by_cases hmn : m = n
    · exact hvs c (hmn ▸ hca) n hc
    · rw [ha.edges m hmn] at hca
      exact hg.valid m (((ha.live m).mp hlive).resolve_left hmn) c hca n hc

theorem fresh_newArray (hg : h.Generational) {a : AerArray} (hvs : ∀ v ∈ a.items, h.Valid v) :
    h.Fresh (h.newArray a).2 (h.newArray a).1 := by
  have hedges : (h.newArray a).2.edges (.array (h.arrays.alloc a).1) = a.items :=
    congrArg AerArray.items (hg.wf.arrays.alloc_fresh a).data_self
  exact fresh_allocated hg (allocated_newArray hg.wf a) rfl (by rwa [hedges])

theorem fresh_newDict (hg : h.Generational) {d : HashTable AerVal}
    (hvs : ∀ v ∈ d.values, h.Valid v) : h.Fresh (h.newDict d).2 (h.newDict d).1 := by
  have hedges : (h.newDict d).2.edges (.dict (h.dicts.alloc d).1) = d.values :=
    congrArg HashTable.values (hg.wf.dicts.alloc_fresh d).data_self
  exact fresh_allocated hg (allocated_newDict hg.wf d) rfl (by rwa [hedges])

theorem inside_subset_gcCollect (h : Heap) (roots : List Root) (minor : Bool) (b a : AerVal)
    (hb : b ∈ (h.gcCollect roots minor).inside a) : b ∈ h.inside a := by
  obtain ⟨harrays, hdicts, -⟩ := gcCollect_data h roots minor
  obtain ⟨m, hm, hentry, hlive, hb⟩ := mem_inside.mp hb
  refine mem_inside.mpr ⟨m, hm, hentry, ((live_gcCollect h roots minor m).mp hlive).1, ?_⟩
  cases m with
  | array c =>
    rw [edges, harrays] at hb
    exact hb
  | dict c =>
    rw [edges, hdicts] at hb
    exact hb
  | string c | long c | function c => cases hentry

end Changes

/-- The container is neither the value nor anywhere inside it. -/
def Apart (h : Heap) (w c : AerVal) : Prop := ¬ ReflTransGen (Child h.inside) c w

/-- The containers in use. -/
def containers (h : Heap) : Finset AerVal :=
  (Finset.range h.arrays.carved).image .array ∪ (Finset.range h.dicts.carved).image .dict

theorem card_containers (h : Heap) : h.containers.card ≤ h.arrays.carved + h.dicts.carved := by
  calc h.containers.card
      ≤ ((Finset.range h.arrays.carved).image AerVal.array).card +
          ((Finset.range h.dicts.carved).image AerVal.dict).card := Finset.card_union_le _ _
    _ ≤ (Finset.range h.arrays.carved).card + (Finset.range h.dicts.carved).card :=
        Nat.add_le_add Finset.card_image_le Finset.card_image_le
    _ = h.arrays.carved + h.dicts.carved := by rw [Finset.card_range, Finset.card_range]

theorem mem_containers {h : Heap} {v : AerVal} (hv : h.Valid v)
    (hc : (∃ c, v = .array c) ∨ ∃ c, v = .dict c) : v ∈ h.containers := by
  refine Finset.mem_union.mpr ?_
  rcases hc with ⟨c, rfl⟩ | ⟨c, rfl⟩
  · exact .inl (Finset.mem_image_of_mem _ (Finset.mem_range.mpr (hv (.array c) rfl).1))
  · exact .inr (Finset.mem_image_of_mem _ (Finset.mem_range.mpr (hv (.dict c) rfl).1))

theorem Generational.valid_below {h : Heap} (hg : h.Generational) {v w : AerVal} (hv : h.Valid v)
    (hw : ReflTransGen (Child h.inside) w v) : h.Valid w := by
  induction hw using ReflTransGen.head_induction_on with
  | refl => exact hv
  | head hstep _ ih =>
    obtain ⟨n, -, -, hlive, hmem⟩ := mem_inside.mp hstep
    exact hg.valid n hlive _ hmem

/-- Every struct instance has an item for each field of its declared shape. -/
def Sized (h : Heap) : Prop :=
  ∀ c, h.arrays.Live c → ∀ id, (h.arrays.data c).shape = some id →
    ∃ shape, h.shapes[id]? = some shape ∧ (h.arrays.data c).items.length = shape.fields.length

section Sized
variable {h h' : Heap} (hs : h.Sized)
include hs

theorem Sized.congr (hlive : ∀ c, h'.arrays.Live c → h.arrays.Live c)
    (hdata : h'.arrays.data = h.arrays.data) (hshapes : h'.shapes = h.shapes) : h'.Sized := by
  intro c hc id hid
  rw [hdata, hshapes]
  exact hs c (hlive c hc) id (by rwa [hdata] at hid)

omit hs in
theorem gcBarrierArray_data (c : Nat) (v : AerVal) :
    (h.gcBarrierArray c v).arrays.data = h.arrays.data := by
  unfold Heap.gcBarrierArray gcRemember
  split <;> try rfl
  split <;> try rfl
  dsimp only
  split <;> rfl

theorem Sized.gcBarrierArray (c : Nat) (v : AerVal) : (h.gcBarrierArray c v).Sized := by
  refine hs.congr (fun d => ((gcBarrierArray_spec c v).1.live (.array d)).mp) ?_ ?_ <;>
  · unfold Heap.gcBarrierArray gcRemember
    split <;> try rfl
    split <;> try rfl
    dsimp only
    split <;> rfl

theorem Sized.gcBarrierDict (c : Nat) (v : AerVal) : (h.gcBarrierDict c v).Sized := by
  refine hs.congr (fun d => ((gcBarrierDict_spec c v).1.live (.array d)).mp) ?_ ?_ <;>
  · unfold Heap.gcBarrierDict gcRemember
    split <;> try rfl
    split <;> try rfl
    dsimp only
    split <;> rfl

/-- The items of an instance are replaced by as many. -/
theorem Sized.setArray {c : Nat} {a : AerArray} (hshape : a.shape = (h.arrays.data c).shape)
    (hlen : a.shape = none ∨ a.items.length = (h.arrays.data c).items.length) :
    (h.setArray c a).Sized := by
  intro d hd id hid
  by_cases hdc : d = c
  · have hself : (h.setArray c a).arrays.data d = a := by
      rw [hdc]
      exact Function.update_self ..
    rw [hself] at hid ⊢
    obtain ⟨shape, hs, hn⟩ := hs c (hdc ▸ hd) id (by rw [← hshape, hid])
    refine ⟨shape, hs, ?_⟩
    rcases hlen with hnone | hlen
    · rw [hnone] at hid
      cases hid
    · rw [hlen, hn]
  · have hother : (h.setArray c a).arrays.data d = h.arrays.data d := Function.update_of_ne hdc _ _
    rw [hother] at hid ⊢
    exact hs d hd id hid

theorem Sized.newArray (hw : h.PoolsWf) {a : AerArray} (ha : ∀ id, a.shape = some id →
    ∃ shape, h.shapes[id]? = some shape ∧ a.items.length = shape.fields.length) :
    (h.newArray a).2.Sized := by
  have hf := hw.arrays.alloc_fresh a
  intro d hd id hid
  by_cases hdc : d = (h.arrays.alloc a).1
  · have hself : (h.newArray a).2.arrays.data d = a := hdc ▸ hf.data_self
    rw [hself] at hid ⊢
    exact ha id hid
  · have hother : (h.newArray a).2.arrays.data d = h.arrays.data d := hf.data_ne hdc
    rw [hother] at hid ⊢
    exact hs d (((hf.live d).mp hd).resolve_left hdc) id hid

end Sized

end Heap

namespace Mutator

open Heap

/-- The steps of a program on its containers, where a store must be one that `links` allows. -/
inductive Builds (links : Heap → AerVal → AerVal → Prop) : Mutator → Mutator → Prop
  | newString (m) (b : Bytes) : Builds links m (m.gain (m.heap.aerMakeString b))
  | newInt (m) (n : Int) : Builds links m (m.gain (m.heap.aerInt n))
  | newFunction (m) (f : AerFunction) (hf : f.upvalues = []) :
      Builds links m (m.gain (m.heap.newFunction f))
  | arrayLiteral (m) (items : List AerVal) (capacity : Nat) (hi : ∀ v ∈ items, m.Holds v) :
      Builds links m (m.gain (m.heap.newArray ⟨items, capacity, none⟩))
  | dictLiteral (m) (d : HashTable AerVal) (hd : ∀ v ∈ d.values, m.Holds v) :
      Builds links m (m.gain (m.heap.newDict d))
  | defineShape (m) (shape : Shape) :
      Builds links m (m.withHeap { m.heap with shapes := m.heap.shapes ++ [shape] })
  | construct (m) (id : Nat) (shape : Shape) (items : List AerVal)
      (hshape : m.heap.shapes[id]? = some shape) (hlen : items.length = shape.fields.length)
      (hi : ∀ v ∈ items, m.Holds v) :
      Builds links m (m.gain (m.heap.newArray ⟨items, items.length, some id⟩))
  | append (m) (c : Nat) (v : AerVal) (hc : m.Holds (.array c)) (hv : m.Holds v)
      (hplain : (m.heap.arrays.data c).shape = none) (hl : links m.heap v (.array c)) :
      Builds links m (m.withHeap (m.heap.appendItem c v))
  | setItem (m) (c i : Nat) (v : AerVal) (hc : m.Holds (.array c)) (hv : m.Holds v)
      (hl : links m.heap v (.array c)) : Builds links m (m.withHeap (m.heap.setItem c i v))
  | setEntry (m) (c : Nat) (key : Bytes) (v : AerVal) (hc : m.Holds (.dict c)) (hv : m.Holds v)
      (hl : links m.heap v (.dict c)) : Builds links m (m.withHeap (m.heap.setEntry c key v))
  | deleteItem (m) (c i : Nat) (hc : m.Holds (.array c))
      (hplain : (m.heap.arrays.data c).shape = none) :
      Builds links m (m.withHeap (m.heap.deleteItem c i))
  | deleteEntry (m) (c : Nat) (key : Bytes) (hc : m.Holds (.dict c)) :
      Builds links m (m.withHeap (m.heap.deleteEntry c key))
  | sort (m) (c : Nat) (items : List AerVal) (hc : m.Holds (.array c))
      (hperm : items.Perm (m.heap.arrays.data c).items) :
      Builds links m (m.withHeap (m.heap.setArray c { m.heap.arrays.data c with items }))
  | setRoots (m) (roots : List Root) (hr : ∀ r ∈ roots, m.Holds r.toVal) :
      Builds links m { m with roots }
  | collect (m) (minor : Bool) : Builds links m (m.withHeap (m.heap.gcCollect m.roots minor))

/-- The states of a program that starts with an empty heap. -/
inductive Built (links : Heap → AerVal → AerVal → Prop) : Mutator → Prop
  | init : Built links init
  | step {m m' : Mutator} : Built links m → Builds links m m' → Built links m'

section Builds
variable {links : Heap → AerVal → AerVal → Prop} {m m' : Mutator}

theorem Builds.step (hb : Builds links m m') : Step m m' ∨
    ∃ shape, m' = m.withHeap { m.heap with shapes := m.heap.shapes ++ [shape] } := by
  cases hb with
  | newString b => exact .inl (.newString m b)
  | newInt n => exact .inl (.newInt m n)
  | newFunction f hf => exact .inl (.newFunction m f hf)
  | arrayLiteral items capacity hi => exact .inl (.newArray m _ hi)
  | dictLiteral d hd => exact .inl (.newDict m d hd)
  | defineShape shape => exact .inr ⟨shape, rfl⟩
  | construct id shape items hshape hlen hi => exact .inl (.newArray m _ hi)
  | append c v hc hv => exact .inl (.append m c v hc hv)
  | setItem c i v hc hv => exact .inl (.setItem m c i v hc hv)
  | setEntry c key v hc hv => exact .inl (.setEntry m c key v hc hv)
  | deleteItem c i hc => exact .inl (.deleteItem m c i hc)
  | deleteEntry c key hc => exact .inl (.deleteEntry m c key hc)
  | sort c items hc hperm => exact .inl (.sort m c items hc hperm)
  | setRoots roots hr => exact .inl (.setRoots m roots hr)
  | collect minor => exact .inl (.collect m minor)

theorem Builds.inv (hi : m.Inv) (hb : Builds links m m') : m'.Inv := by
  rcases hb.step with hs | ⟨shape, rfl⟩
  · exact hi.step hs
  · have hg := hi.generational
    exact ⟨⟨⟨hg.wf.strings, hg.wf.arrays, hg.wf.dicts, hg.wf.functions, hg.wf.longs⟩,
      ⟨hg.captureFree.boxes, hg.captureFree.upvalues⟩, hg.valid, hg.barrier, hg.bit⟩, hi.roots⟩

/-- All a step can do to the nesting: nothing new, a new container, or one value put into one
container. -/
theorem Builds.inside (hi : m.Inv) (hb : Builds links m m') :
    (∀ b a, b ∈ m'.heap.inside a → b ∈ m.heap.inside a) ∨
    (∃ c, m.heap.Fresh m'.heap c) ∨
    ∃ w c, links m.heap w c ∧ m.heap.Linked m'.heap w c := by
  have hg := hi.generational
  have hwf := hg.wf
  cases hb with
  | newString b =>
    have ha := allocated_aerMakeString hwf b
    exact .inr (.inl ⟨.string _, fresh_allocated hg ha rfl (by intro v hv; cases hv)⟩)
  | newInt n =>
    unfold gain aerInt
    split
    · exact .inl fun b a hb => hb
    · have ha := allocated_newLong hwf n
      exact .inr (.inl ⟨.long _, fresh_allocated hg ha rfl (by intro v hv; cases hv)⟩)
  | newFunction f hf =>
    have ha := allocated_newFunction hwf hf hg.captureFree
    have hedges := edges_function (ha.captureFree hg.captureFree) (m.heap.functions.alloc f).1
    refine .inr (.inl ⟨.function _, fresh_allocated hg ha rfl fun v hv => ?_⟩)
    have hnone : v ∈ ([] : List AerVal) := hedges ▸ hv
    cases hnone
  | arrayLiteral items capacity hitems =>
    exact .inr (.inl ⟨_, fresh_newArray hg fun v hv => hi.valid (hitems v hv)⟩)
  | construct id shape items hshape hlen hitems =>
    exact .inr (.inl ⟨_, fresh_newArray hg fun v hv => hi.valid (hitems v hv)⟩)
  | dictLiteral d hd =>
    exact .inr (.inl ⟨_, fresh_newDict hg fun v hv => hi.valid (hd v hv)⟩)
  | defineShape shape => exact .inl fun b a hb => hb
  | append c v hc hv hplain hl =>
    exact .inr (.inr ⟨v, _, hl, linked_stored rfl (m.heap.stored_appendItem c v)⟩)
  | setItem c i v hc hv hl =>
    exact .inr (.inr ⟨v, _, hl, linked_stored rfl (m.heap.stored_setItem c i v)⟩)
  | setEntry c key v hc hv hl =>
    exact .inr (.inr ⟨v, _, hl, linked_stored rfl (m.heap.stored_setEntry c key v)⟩)
  | deleteItem c i hc =>
    have hitems : ∀ w ∈ (m.heap.arrays.data c).items.eraseIdx i, w ∈ m.heap.edges (.array c) :=
      fun w hw => List.mem_of_mem_eraseIdx hw
    exact .inl (inside_subset_stored ⟨_, stored_some c hitems, hitems⟩)
  | deleteEntry c key hc => exact .inl (inside_subset_stored (m.heap.stored_deleteEntry c key))
  | sort c items hc hperm =>
    have hitems : ∀ w ∈ items, w ∈ m.heap.edges (.array c) := fun w hw => hperm.mem_iff.mp hw
    exact .inl (inside_subset_stored ⟨_, stored_some c hitems, hitems⟩)
  | setRoots roots hr => exact .inl fun b a hb => hb
  | collect minor => exact .inl (inside_subset_gcCollect m.heap m.roots minor)

theorem Builds.sized (hi : m.Inv) (hs : m.heap.Sized) (hb : Builds links m m') :
    m'.heap.Sized := by
  cases hb with
  | newString b => exact hs.congr (fun _ => id) rfl rfl
  | newInt n =>
    unfold gain aerInt
    split <;> exact hs.congr (fun _ => id) rfl rfl
  | newFunction f hf => exact hs.congr (fun _ => id) rfl rfl
  | dictLiteral d hd => exact hs.congr (fun _ => id) rfl rfl
  | arrayLiteral items capacity hitems =>
    exact hs.newArray hi.generational.wf fun id h => absurd h.symm (Option.some_ne_none id)
  | construct id shape items hshape hlen hitems =>
    refine hs.newArray hi.generational.wf ?_
    rintro _ ⟨⟩
    exact ⟨shape, hshape, hlen⟩
  | defineShape shape =>
    intro c hc id hid
    obtain ⟨old, hold, hlen⟩ := hs c hc id hid
    have hlt := (List.getElem?_eq_some_iff.mp hold).1
    exact ⟨old, (List.getElem?_append_left hlt).trans hold, hlen⟩
  | append c v hc hv hplain hl =>
    refine (hs.gcBarrierArray c v).setArray ?_ (.inl hplain)
    rw [gcBarrierArray_data]
  | setItem c i v hc hv hl =>
    refine (hs.gcBarrierArray c v).setArray ?_ (.inr ?_)
    · rw [gcBarrierArray_data]
    · rw [gcBarrierArray_data]
      exact List.length_set
  | setEntry c key v hc hv hl =>
    change (m.heap.setEntry c key v).Sized
    unfold Heap.setEntry
    dsimp only
    split <;> exact (hs.gcBarrierDict c v).congr (fun _ => id) rfl rfl
  | deleteItem c i hc hplain => exact hs.setArray rfl (.inl hplain)
  | deleteEntry c key hc => exact hs.congr (fun _ => id) rfl rfl
  | sort c items hc hperm => exact hs.setArray rfl (.inr hperm.length_eq)
  | setRoots roots hr => exact hs
  | collect minor =>
    refine hs.congr (fun c hc => ((live_gcCollect _ _ _ (.array c)).mp hc).1)
      (gcCollect_data _ _ _).1 ?_
    exact (m.heap.marksOnly_markPhase m.roots minor).shapes

theorem Built.inv (hb : Built links m) : m.Inv := by
  induction hb with
  | init => exact inv_init
  | step _ hs ih => exact hs.inv ih

theorem Built.sized (hb : Built links m) : m.heap.Sized := by
  induction hb with
  | init => exact fun c hc => absurd hc.1 (Nat.not_lt_zero c)
  | step hb hs ih => exact hs.sized hb.inv ih

/-- Stores that close no cycle. -/
theorem Built.not_cycle (hapart : ∀ h w c, links h w c → h.Apart w c) (hb : Built links m)
    (a : AerVal) : ¬ TransGen (Child m.heap.inside) a a := by
  induction hb generalizing a with
  | init =>
    intro hcycle
    obtain ⟨b, hstep, -⟩ := TransGen.head'_iff.mp hcycle
    obtain ⟨n, -, -, hlive, -⟩ := mem_inside.mp hstep
    have := isCarved_of_live hlive
    cases n <;> cases this
  | step hb hs ih =>
    rcases hs.inside hb.inv with hsub | ⟨c, hlink, hfresh⟩ | ⟨w, c, hl, hlink⟩
    · exact fun hcycle => ih a (TransGen.mono hsub _ _ hcycle)
    · exact not_cycle_fresh hlink hfresh ih a
    · exact not_cycle_link hlink (hapart _ _ _ hl) ih a

end Builds

end Mutator

end Aer.Memory
