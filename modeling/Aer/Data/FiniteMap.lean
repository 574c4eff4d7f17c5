import Aer.Data.TableInvariant
import Mathlib.Data.Nat.Digits.Defs
import Mathlib.Data.Set.Card

set_option linter.all false

/-! The table against the finite map it stands for, over whole runs of its operations,
and how many keys it can take. -/
namespace Aer.Data.HashTable

open Aer.Lib Aer.Lib.Probing

variable {π : Type}

inductive Op (π : Type)
  | put (key : Bytes) (value : π)
  | get (key : Bytes)
  | remove (key : Bytes)
  | clear

namespace Op

def NulFree : Op π → Prop
  | put k _ | get k | remove k => ∀ c ∈ k, c ≠ 0
  | clear => True

instance : DecidablePred (NulFree : Op π → Prop)
  | put k _ | get k | remove k => inferInstanceAs (Decidable (∀ c ∈ k, c ≠ 0))
  | clear => inferInstanceAs (Decidable True)

def run (t : HashTable π) : Op π → HashTable π
  | put k v => t.put k v
  | get _ => t
  | remove k => t.remove k
  | clear => t.clear

/-- The operation settles what is bound to `k`. -/
def Settles (k : Bytes) : Op π → Prop
  | put j _ | remove j => j = k
  | get _ => False
  | clear => True

end Op

def runAll (ops : List (Op π)) : HashTable π :=
  ops.foldl Op.run empty

/-- The last operation to settle `k` put `v` there. -/
def LastPut (ops : List (Op π)) (k : Bytes) (v : π) : Prop :=
  ∃ before after, ops = before ++ .put k v :: after ∧ ∀ op ∈ after, ¬ op.Settles k

theorem runAll_append (ops : List (Op π)) (op : Op π) :
    runAll (ops ++ [op]) = op.run (runAll ops) := by
  simp [runAll]

theorem lastPut_append {ops : List (Op π)} {op : Op π} {k : Bytes} {v : π} :
    LastPut (ops ++ [op]) k v ↔ op = .put k v ∨ ¬ op.Settles k ∧ LastPut ops k v := by
  constructor
  · rintro ⟨before, after, heq, hafter⟩
    rcases List.eq_nil_or_concat after with rfl | ⟨after, last, rfl⟩
    · exact Or.inl (List.append_inj_right' heq rfl |> List.singleton_inj.mp)
    · rw [List.concat_eq_append, ← List.cons_append, ← List.append_assoc] at heq
      obtain ⟨rfl, hlast⟩ := List.append_inj' heq rfl
      obtain rfl := List.singleton_inj.mp hlast
      refine Or.inr ⟨hafter op (by simp), before, after, rfl, fun o ho => hafter o ?_⟩
      simp [ho]
  · rintro (rfl | ⟨hop, before, after, rfl, hafter⟩)
    · exact ⟨ops, [], rfl, by simp⟩
    · refine ⟨before, after ++ [op], by simp, fun o ho => ?_⟩
      rcases List.mem_append.mp ho with ho | ho
      · exact hafter o ho
      · exact List.mem_singleton.mp ho ▸ hop

/-- The entries of the table are the bindings of the map. -/
def Tracks (ops : List (Op π)) (t : HashTable π) : Prop :=
  WellFormed t ∧ ∀ k v, some (k, v) ∈ t.buckets ↔ LastPut ops k v

theorem tracks_nil : Tracks [] (empty : HashTable π) :=
  ⟨.empty, fun k v => by simp [empty, LastPut]⟩

/-- One operation. -/
theorem Tracks.run {ops : List (Op π)} {t : HashTable π} (h : Tracks ops t)
    (hc : t.count < maxCapacity) {op : Op π} (hop : op.NulFree) : Tracks (ops ++ [op]) (op.run t) := by
  obtain ⟨hwf, hmem⟩ := h
  cases op with
  | put key value =>
    have hst := hwf.put hc key value
    rw [cString_of_nulFree hop] at hst
    refine ⟨hst.wellFormed, fun k v => ?_⟩
    rw [lastPut_append, ← hmem]
    refine (hst.mem (k, v)).trans (or_congr ?_ ?_)
    · simp only [Prod.mk.injEq, Op.put.injEq, eq_comm]
    · simp only [Op.Settles, ne_comm, ne_eq]
  | get key =>
    refine ⟨hwf, fun k v => ?_⟩
    rw [lastPut_append, ← hmem]
    simp [Op.run, Op.Settles]
  | remove key =>
    have hrm := hwf.remove hc key
    rw [cString_of_nulFree hop] at hrm
    refine ⟨hrm.wellFormed, fun k v => ?_⟩
    rw [lastPut_append, ← hmem]
    refine (hrm.mem (k, v)).trans ?_
    simp only [Op.Settles, reduceCtorEq, false_or, ne_eq, eq_comm]
  | clear =>
    obtain ⟨hcl, hnone⟩ := hwf.clear
    refine ⟨hcl, fun k v => ?_⟩
    rw [lastPut_append]
    simp [Op.run, Op.Settles, hnone]

/-- Every run of which no state has a counter past the limit. -/
theorem tracks_runAll (ops : List (Op π)) (hkeys : ∀ op ∈ ops, op.NulFree)
    (hcount : ∀ n < ops.length, (runAll (ops.take n)).count < maxCapacity) :
    Tracks ops (runAll ops) := by
  induction ops using List.reverseRecOn with
  | nil => exact tracks_nil
  | append_singleton ops op ih =>
    rw [runAll_append]
    refine Tracks.run (ih (fun o ho => hkeys o (by simp [ho])) ?_) ?_ (hkeys op (by simp))
    · intro n hn
      have := hcount n (by simp; omega)
      rwa [List.take_append_of_le_length hn.le] at this
    · have := hcount ops.length (by simp)
      rwa [List.take_left] at this

/-- `k` occupies one bucket, and no bucket its probes pass before it is empty. -/
def OnePlace (t : HashTable π) (k : Bytes) : Prop :=
  ∃ d < t.capacity,
    (∃ v, t.buckets[probe (hashKey k) d t.capacity]? = some (some (k, v))) ∧
    (∀ j < d, t.buckets[probe (hashKey k) j t.capacity]? ≠ some none) ∧
    ∀ i v, t.buckets[i]? = some (some (k, v)) → i = probe (hashKey k) d t.capacity

theorem WellFormed.onePlace {t : HashTable π} (h : WellFormed t) {k : Bytes} {v : π}
    (hk : some (k, v) ∈ t.buckets) : OnePlace t k := by
  obtain ⟨m, -, hm, hcap⟩ := h.capacity.resolve_left (List.ne_nil_of_mem hk)
  obtain ⟨d, hd, hcell⟩ := h.placed.stops_of_mem hk
  have hs : 0 < t.buckets.length := Nat.zero_lt_of_lt hd.lt
  unfold OnePlace
  simp only [probe_eq hm hcap, getElem?_mod hs]
  refine ⟨d, hd.lt, ⟨v, by rw [hcell]⟩, ?_, ?_⟩
  · intro j hj hnone
    obtain ⟨e, he, -⟩ := hd.before j hj
    rw [he] at hnone
    cases hnone
  · intro i w hi
    obtain ⟨hlt, hget⟩ := List.getElem?_eq_some_iff.mp hi
    have := h.placed.unique i _ _ _ ((cell_of_lt hlt).trans hget) hcell rfl
    rwa [Nat.ModEq, Nat.mod_eq_of_lt hlt] at this

/-- The table `t` serves as the map that the operations make. -/
structure IsMap (ops : List (Op π)) (t : HashTable π) : Prop where
  get : ∀ k, (∀ c ∈ k, c ≠ 0) → ∀ v, t.get k = some v ↔ LastPut ops k v
  count : t.count = {k | ∃ v, LastPut ops k v}.ncard
  place : ∀ k v, LastPut ops k v → OnePlace t k
  room : t.buckets ≠ [] → none ∈ t.buckets
  mends : ∀ k idx e, t.lookupSlot (cString k) = some idx → t.buckets[idx]? = some (some e) →
    Reinserts t.capacity (t.taken idx) ((idx + 1) % t.capacity) (t.remove k)

theorem WellFormed.nodup_keys {t : HashTable π} (h : WellFormed t) :
    (t.entries.map Prod.fst).Nodup := by
  refine List.Pairwise.map _ (fun _ _ h => h) (List.Pairwise.filterMap _ ?_ (Placed.pairwise h.placed))
  exact fun a b hab e he f hf => hab e f he hf

theorem mem_entries {t : HashTable π} {e : Bytes × π} : e ∈ t.entries ↔ some e ∈ t.buckets := by
  simp [entries]

theorem WellFormed.ncard_keys {t : HashTable π} (h : WellFormed t) :
    {k | ∃ v, some (k, v) ∈ t.buckets}.ncard = t.count := by
  have hpair := h.nodup_keys
  have hset : {k | ∃ v, some (k, v) ∈ t.buckets} = {k | k ∈ t.entries.map Prod.fst} := by
    ext k
    simp [entries, List.mem_filterMap]
  classical
  rw [hset, ← List.coe_toFinset, Set.ncard_coe_finset, List.toFinset_card_of_nodup hpair,
    List.length_map, h.count]
  unfold entries used
  rw [List.length_filterMap_eq_countP]
  rfl

theorem lookupSlot_stored {t : HashTable π} (h : WellFormed t) (hc : t.count < maxCapacity)
    {k : Bytes} {idx : Nat} {e : Bytes × π} (hidx : t.lookupSlot k = some idx)
    (he : t.buckets[idx]? = some (some e)) : e.1 = k := by
  have hb : t.buckets ≠ [] := by
    rintro hb
    simp [hb] at he
  obtain ⟨m, -, hm, hcap⟩ := h.capacity.resolve_left hb
  obtain ⟨d, hd, -⟩ := h.exists_stops hb hc k
  rw [lookupSlot_of_stops hm hcap hd] at hidx
  cases hidx
  rw [getElem?_mod (Nat.zero_lt_of_lt hd.lt)] at he
  exact hd.here e (Option.some.inj he)

theorem Tracks.isMap {ops : List (Op π)} {t : HashTable π} (h : Tracks ops t)
    (hc : t.count < maxCapacity) : IsMap ops t := by
  obtain ⟨hwf, hmem⟩ := h
  constructor
  · intro k hk v
    rw [hwf.get_eq_some_iff hc, cString_of_nulFree hk, hmem]
  · rw [← hwf.ncard_keys]
    simp only [hmem]
  · exact fun k v hk => hwf.onePlace ((hmem k v).mpr hk)
  · exact fun hb => hwf.none_mem hb hc
  · intro k idx e hidx he
    obtain ⟨j, v⟩ := e
    obtain rfl : j = cString k := lookupSlot_stored hwf hc hidx he
    obtain ⟨idx', hidx', -, hrun, -⟩ := hwf.remove_stored hc (List.mem_of_getElem? he)
    rw [hidx] at hidx'
    cases hidx'
    exact hrun

/-- The table is a finite map as long as its counter stays below the code's bound. -/
theorem runAll_isMap (ops : List (Op π)) (hkeys : ∀ op ∈ ops, op.NulFree)
    (hcount : ∀ n ≤ ops.length, (runAll (ops.take n)).count < 42949672) :
    IsMap ops (runAll ops) := by
  have hlt : ∀ n ≤ ops.length, (runAll (ops.take n)).count < maxCapacity :=
    fun n hn => (hcount n hn).trans (by decide)
  refine (tracks_runAll ops hkeys fun n hn => hlt n hn.le).isMap ?_
  have := hlt ops.length (le_refl _)
  rwa [List.take_length] at this

def sampleOps : List (Op Nat) :=
  [.put (bytes "a") 1, .put (bytes "b") 2, .get (bytes "a"), .put (bytes "a") 3,
    .remove (bytes "b"), .clear, .put (bytes "c") 4]

theorem runAll_isMap_sample : IsMap sampleOps (runAll sampleOps) :=
  runAll_isMap sampleOps (by decide +kernel) (by decide +kernel)

end Aer.Data.HashTable
