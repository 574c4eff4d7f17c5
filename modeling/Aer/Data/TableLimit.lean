import Aer.Data.TableInvariant
import Mathlib.Data.Nat.Digits.Lemmas

set_option linter.all false

/-! How many keys the table takes: the load test is computed in 32 bits, so a table of
2^26 slots is never rebuilt and fills up. -/
namespace Aer.Data.HashTable

open Aer.Lib Aer.Lib.Probing

variable {π : Type}

def putAll (pairs : List (Bytes × π)) : HashTable π :=
  pairs.foldl (fun t e => t.put e.1 e.2) empty

/-- A rebuild of the table, if its next put makes one, ends with a larger capacity. -/
def RebuildGrows (t : HashTable π) : Prop :=
  t.buckets ≠ [] → high ≤ load t.count t.capacity →
    t.capacity < (rehash 31 t).capacity ∧ ¬ low ≤ load t.count (rehash 31 t).capacity

/-- Through all the puts no pair is lost, every earlier key is found, a bucket stays
empty and rebuilds grow the table. -/
structure KeepsAll (pairs : List (Bytes × π)) : Prop where
  stored : ∀ before e after, pairs = before ++ e :: after →
    some e ∈ ((putAll before).put e.1 e.2).buckets
  found : ∀ before after, pairs = before ++ after → ∀ e ∈ before,
    (putAll before).get e.1 = some e.2
  room : ∀ before after, pairs = before ++ after → before ≠ [] → none ∈ (putAll before).buckets
  grows : ∀ before e after, pairs = before ++ e :: after → RebuildGrows (putAll before)

/-- Distinct keys as the caller passes them. -/
structure DistinctKeys (pairs : List (Bytes × π)) : Prop where
  nulFree : ∀ e ∈ pairs, ∀ c ∈ e.1, c ≠ 0
  nodup : (pairs.map Prod.fst).Nodup

theorem DistinctKeys.left {before after : List (Bytes × π)} (h : DistinctKeys (before ++ after)) :
    DistinctKeys before where
  nulFree e he := h.nulFree e (List.mem_append_left _ he)
  nodup := by
    have := h.nodup
    rw [List.map_append] at this
    exact this.of_append_left

theorem putAll_append (pairs : List (Bytes × π)) (e : Bytes × π) :
    putAll (pairs ++ [e]) = (putAll pairs).put e.1 e.2 := by
  simp [putAll]

/-- The table holds the pairs put so far and counts them. -/
structure Filled (pairs : List (Bytes × π)) (t : HashTable π) : Prop where
  wellFormed : WellFormed t
  mem : ∀ e, some e ∈ t.buckets ↔ e ∈ pairs
  count : t.count = pairs.length
  ne_nil : pairs ≠ [] → t.buckets ≠ []

/-- One more put, below the limit. -/
theorem Filled.put {pairs : List (Bytes × π)} {t : HashTable π} (h : Filled pairs t)
    {e : Bytes × π} (hd : DistinctKeys (pairs ++ [e])) (hlen : pairs.length < maxCapacity) :
    Filled (pairs ++ [e]) (t.put e.1 e.2) := by
  have hst := h.wellFormed.put (h.count ▸ hlen) e.1 e.2
  rw [cString_of_nulFree (hd.nulFree e (by simp))] at hst
  have hnodup := hd.nodup
  rw [List.map_append, List.nodup_append] at hnodup
  have hnew : ∀ f ∈ pairs, f.1 ≠ e.1 :=
    fun f hf => hnodup.2.2 f.1 (List.mem_map_of_mem hf) e.1 (by simp)
  refine ⟨hst.wellFormed, fun f => ?_, ?_, fun _ => hst.ne_nil⟩
  · rw [hst.mem, h.mem, List.mem_append, List.mem_singleton]
    constructor
    · rintro (rfl | ⟨-, hf⟩)
      · exact Or.inr rfl
      · exact Or.inl hf
    · rintro (hf | rfl)
      · exact Or.inr ⟨hnew f hf, hf⟩
      · exact Or.inl rfl
  · rw [hst.count_new, h.count, List.length_append]
    · rfl
    · intro w hw
      exact hnew _ ((h.mem _).mp hw) rfl

theorem filled_putAll (pairs : List (Bytes × π)) (hd : DistinctKeys pairs)
    (hlen : pairs.length ≤ maxCapacity) : Filled pairs (putAll pairs) := by
  induction pairs using List.reverseRecOn with
  | nil => exact ⟨.empty, fun e => by simp [putAll, empty], rfl, fun h => absurd rfl h⟩
  | append_singleton pairs e ih =>
    rw [List.length_append, List.length_singleton] at hlen
    rw [putAll_append]
    exact (ih hd.left (by omega)).put hd (by omega)

/-- Keys may come again: the table holds some of the pairs, and one for every key. -/
structure Gathered (pairs : List (Bytes × π)) (t : HashTable π) : Prop where
  wellFormed : WellFormed t
  count : t.count ≤ pairs.length
  sub : ∀ e, some e ∈ t.buckets → e ∈ pairs
  key : ∀ e ∈ pairs, ∃ v, some (e.1, v) ∈ t.buckets

theorem gathered_putAll (pairs : List (Bytes × π)) (hnul : ∀ e ∈ pairs, ∀ c ∈ e.1, c ≠ 0)
    (hlen : pairs.length ≤ maxCapacity) : Gathered pairs (putAll pairs) := by
  induction pairs using List.reverseRecOn with
  | nil => exact ⟨.empty, le_refl _, fun e he => by simp [putAll, empty] at he, by simp⟩
  | append_singleton pairs e ih =>
    rw [List.length_append, List.length_singleton] at hlen
    have h := ih (fun f hf => hnul f (List.mem_append_left _ hf)) (by omega)
    have hst := h.wellFormed.put (h.count.trans_lt (by omega)) e.1 e.2
    rw [cString_of_nulFree (hnul e (by simp)), ← putAll_append] at hst
    refine ⟨hst.wellFormed, ?_, fun f hf => ?_, fun f hf => ?_⟩
    · rw [List.length_append, List.length_singleton]
      exact hst.count_le.trans (Nat.add_le_add_right h.count 1)
    · rcases (hst.mem f).mp hf with rfl | ⟨-, hf⟩
      · exact List.mem_append_right _ (List.mem_singleton_self _)
      · exact List.mem_append_left _ (h.sub f hf)
    · by_cases hkey : f.1 = e.1
      · exact ⟨e.2, (hst.mem _).mpr (.inl (Prod.ext hkey rfl))⟩
      · rcases List.mem_append.mp hf with hf | hf
        · obtain ⟨v, hv⟩ := h.key f hf
          exact ⟨v, (hst.mem _).mpr (.inr ⟨hkey, hv⟩)⟩
        · rw [List.mem_singleton.mp hf] at hkey
          exact absurd rfl hkey

theorem WellFormed.rebuildGrows {t : HashTable π} (h : WellFormed t) : RebuildGrows t := by
  intro hb hload
  obtain ⟨-, hlen, -⟩ := h.rehash hb hload 31
  obtain ⟨hlo, -⟩ := h.capacity_bounds hb
  obtain ⟨hlt, -⟩ := (h.high_le_load_iff hb).mp hload
  have hdouble := h.double_le hlt
  have hupper := h.load hlt
  unfold HashTable.capacity
  rw [hlen, HashTable.load, Nat.le_div_iff_mul_le (by omega)]
  have := Nat.mod_le (t.count * 100) (2 ^ 32)
  unfold high at hupper
  unfold low
  omega

/-- The table takes 2^26 keys; only the last of them takes the last empty bucket. -/
theorem keepsAll_of_lt {pairs : List (Bytes × π)} (hd : DistinctKeys pairs)
    (hlen : pairs.length < maxCapacity) : KeepsAll pairs := by
  have hfill : ∀ before after, pairs = before ++ after → Filled before (putAll before) := by
    rintro before after rfl
    rw [List.length_append] at hlen
    exact filled_putAll before hd.left (by omega)
  have hcount : ∀ before after, pairs = before ++ after → (putAll before).count < maxCapacity := by
    intro before after heq
    rw [(hfill before after heq).count]
    rw [heq, List.length_append] at hlen
    omega
  constructor
  · intro before e after heq
    have hst := (hfill before _ heq).wellFormed.put (hcount before _ heq) e.1 e.2
    rw [cString_of_nulFree (hd.nulFree e (by simp [heq]))] at hst
    exact (hst.mem e).mpr (Or.inl rfl)
  · intro before after heq e he
    have hf := hfill before after heq
    rw [hf.wellFormed.get_eq_some_iff (hcount before after heq),
      cString_of_nulFree (hd.nulFree e (by simp [heq, he]))]
    exact (hf.mem _).mpr he
  · intro before after heq hne
    have hf := hfill before after heq
    exact hf.wellFormed.none_mem (hf.ne_nil hne) (hcount before after heq)
  · intro before e after heq
    exact (hfill before _ heq).wellFormed.rebuildGrows

/-- At the limit every bucket is taken. -/
theorem WellFormed.none_not_mem {t : HashTable π} (h : WellFormed t) (hb : t.buckets ≠ [])
    (hc : maxCapacity ≤ t.count) : none ∉ t.buckets := by
  rw [none_mem_iff, ← h.count]
  have := (h.capacity_bounds hb).2
  omega

/-- The puts keep everything exactly as long as there are fewer than 2^26 keys. -/
theorem keepsAll_iff {pairs : List (Bytes × π)} (hd : DistinctKeys pairs) :
    KeepsAll pairs ↔ pairs.length < 2 ^ 26 := by
  constructor
  · intro hk
    by_contra hlen
    have hsplit := (List.take_append_drop maxCapacity pairs).symm
    have htake : (pairs.take maxCapacity).length = maxCapacity :=
      List.length_take_of_le (not_lt.mp hlen)
    have hne : pairs.take maxCapacity ≠ [] :=
      List.ne_nil_of_length_pos (by rw [htake]; decide)
    rw [hsplit] at hd
    have hf := filled_putAll _ hd.left htake.le
    exact hf.wellFormed.none_not_mem (hf.ne_nil hne) (by rw [hf.count, htake])
      (hk.room _ _ hsplit hne)
  · exact keepsAll_of_lt hd

theorem keepsAll_two : KeepsAll [(bytes "a", 1), (bytes "b", 2)] :=
  (keepsAll_iff ⟨by decide +kernel, by decide +kernel⟩).mpr (by decide)

/-- A put of a new key into the full table does nothing. -/
theorem put_full {t : HashTable π} (h : WellFormed t) (hb : t.buckets ≠ [])
    (hc : maxCapacity ≤ t.count) {key : Bytes} (hkey : ∀ v, some (cString key, v) ∉ t.buckets)
    (value : π) : t.put key value = t := by
  obtain ⟨m, -, hm, hcap⟩ := h.capacity.resolve_left hb
  have hload : ¬ high ≤ load t.count t.capacity := by
    rw [h.high_le_load_iff hb]
    rintro ⟨hlt, -⟩
    have := used_le t.buckets
    have := h.count
    omega
  unfold HashTable.put
  rw [putDepth_of_load_lt hb hload]
  unfold HashTable.insert lookupSlot
  rw [findSlot_of_full hm hcap hkey (h.none_not_mem hb hc)]

theorem get_full {t : HashTable π} (h : WellFormed t) (hb : t.buckets ≠ [])
    (hc : maxCapacity ≤ t.count) {key : Bytes} (hkey : ∀ v, some (cString key, v) ∉ t.buckets) :
    t.get key = none := by
  obtain ⟨m, -, hm, hcap⟩ := h.capacity.resolve_left hb
  unfold HashTable.get lookupSlot
  rw [findSlot_of_full hm hcap hkey (h.none_not_mem hb hc)]

/-- `get` reads the map the entries make up, also when the table is full. -/
theorem WellFormed.get_iff {t : HashTable π} (h : WellFormed t) (key : Bytes) (v : π) :
    t.get key = some v ↔ some (cString key, v) ∈ t.buckets := by
  by_cases hc : t.count < maxCapacity
  · exact h.get_eq_some_iff hc key v
  have hb : t.buckets ≠ [] := by
    intro hb
    have hcount := h.count
    rw [hb] at hcount
    rw [hcount] at hc
    exact hc (show 0 < maxCapacity by decide)
  by_cases hk : ∃ w, some (cString key, w) ∈ t.buckets
  · obtain ⟨w, hw⟩ := hk
    obtain ⟨m, -, hm, hcap⟩ := h.capacity.resolve_left hb
    obtain ⟨d, hd, hcell⟩ := h.placed.stops_of_mem hw
    rw [get_of_stops hm hcap hd, hcell]
    constructor
    · intro hv
      cases hv
      exact hw
    · intro hv
      rw [h.placed.eq_of_mem hv hw]
      rfl
  · have hnone : ∀ w, some (cString key, w) ∉ t.buckets := fun w hw => hk ⟨w, hw⟩
    rw [get_full h hb (not_lt.mp hc) hnone]
    constructor
    · intro hv
      cases hv
    · intro hv
      exact absurd hv (hnone v)

/-- The decimal digits of a number, least significant first. -/
def numberKey (n : Nat) : Bytes :=
  (Nat.digits 10 n).map fun d => (d + 48).toUInt8

def numbered (n : Nat) : List (Bytes × Unit) :=
  (List.range n).map fun i => (numberKey i, ())

theorem digit_toNat {d : Nat} (hd : d < 10) : (d + 48).toUInt8.toNat = d + 48 :=
  Nat.mod_eq_of_lt (by omega)

theorem numberKey_injective : Function.Injective numberKey := by
  apply Function.LeftInverse.injective (g := fun k => Nat.ofDigits 10 (k.map fun c => c.toNat - 48))
  intro n
  have hdigits : (numberKey n).map (fun c => c.toNat - 48) = Nat.digits 10 n := by
    unfold numberKey
    rw [List.map_map]
    refine (List.map_congr_left fun d hd => ?_).trans (List.map_id _)
    rw [Function.comp_apply, digit_toNat (Nat.digits_lt_base (by decide) hd), Nat.add_sub_cancel]
    rfl
  beta_reduce
  rw [hdigits, Nat.ofDigits_digits]

theorem numbered_distinctKeys (n : Nat) : DistinctKeys (numbered n) where
  nulFree e he c hc := by
    obtain ⟨i, -, rfl⟩ := List.mem_map.mp he
    obtain ⟨d, hd, rfl⟩ := List.mem_map.mp hc
    intro hzero
    have := digit_toNat (Nat.digits_lt_base (by decide) hd)
    rw [hzero] at this
    cases this
  nodup := by
    unfold numbered
    rw [List.map_map]
    exact List.nodup_range.map numberKey_injective

/-- Of 2^26 + 1 keys the last one is lost in silence. -/
theorem numbered_lost :
    ¬ KeepsAll (numbered (2 ^ 26 + 1)) ∧
      (putAll (numbered (2 ^ 26 + 1))).get (numberKey (2 ^ 26)) = none := by
  have hd := numbered_distinctKeys (2 ^ 26 + 1)
  have hlen : ∀ n, (numbered n).length = n := fun n => by rw [numbered, List.length_map, List.length_range]
  constructor
  · rw [keepsAll_iff hd, hlen]
    omega
  · have hsnoc : numbered (2 ^ 26 + 1) = numbered (2 ^ 26) ++ [(numberKey (2 ^ 26), ())] := by
      unfold numbered
      rw [List.range_succ, List.map_append]
      rfl
    rw [hsnoc] at hd ⊢
    have hf := filled_putAll _ hd.left (hlen _).le
    have hb := hf.ne_nil (List.ne_nil_of_length_pos (by rw [hlen]; decide))
    have hc : maxCapacity ≤ (putAll (numbered (2 ^ 26))).count := by
      rw [hf.count, hlen]
      rfl
    have hkey : ∀ v, some (cString (numberKey (2 ^ 26)), v) ∉ (putAll (numbered (2 ^ 26))).buckets := by
      intro v hv
      rw [cString_of_nulFree (hd.nulFree (numberKey (2 ^ 26), ()) (by simp)), hf.mem] at hv
      have hnodup := hd.nodup
      rw [List.map_append, List.nodup_append] at hnodup
      exact hnodup.2.2 _ (List.mem_map_of_mem hv) _ (by simp) rfl
    rw [putAll_append, put_full hf.wellFormed hb hc hkey]
    exact get_full hf.wellFormed hb hc hkey

end Aer.Data.HashTable
