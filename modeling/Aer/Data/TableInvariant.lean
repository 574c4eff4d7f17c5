import Aer.Data.HashTable
import Aer.Lib.Probing

set_option linter.all false

/-! What every operation of the table keeps: each key lies where its probes look, the
counter counts, and below 2^26 slots the load stays under its bound. -/
namespace Aer.Data.HashTable

open Aer.Lib Aer.Lib.Probing

variable {π : Type}

/-- From this capacity on the 32-bit load never reaches its bound. -/
def maxCapacity : Nat := 2 ^ 26

structure WellFormed (t : HashTable π) : Prop where
  placed : Placed hashKey t.buckets
  keys : ∀ k v, some (k, v) ∈ t.buckets → cString k = k
  count : t.count = used t.buckets
  capacity : t.buckets = [] ∨ ∃ m, 4 ≤ m ∧ m ≤ 26 ∧ t.buckets.length = 2 ^ m
  load : t.buckets.length < maxCapacity → t.count * 100 < high * t.buckets.length + 100

/-! The searches of the code are the probes of the library. -/

section Search
variable {t : HashTable π} {m : Nat} (hm : m ≤ 26) (hcap : t.buckets.length = 2 ^ m)
include hm hcap

theorem probe_eq (hash i : Nat) : probe hash i t.capacity = (hash + i) % t.buckets.length := by
  unfold probe capacity
  rw [hcap]
  exact Nat.mod_mod_of_dvd _ (Nat.pow_dvd_pow 2 (by omega))

theorem findSlot_of_stops {key : Bytes} {hash d : Nat} (hd : Stops t.buckets key hash d) {n i : Nat}
    (hi : i ≤ d) (hn : d < i + n) :
    findSlot t key hash n i = some ((hash + d) % t.buckets.length) := by
  have hs : 0 < t.buckets.length := Nat.zero_lt_of_lt hd.lt
  induction n generalizing i with
  | zero => omega
  | succ n ih =>
    simp only [findSlot, probe_eq hm hcap, getElem?_mod hs]
    rcases Nat.eq_or_lt_of_le hi with rfl | hlt
    · cases hc : cell t.buckets (hash + i) with
      | none => rfl
      | some e => exact if_pos (hd.here e hc)
    · obtain ⟨e, he, hne⟩ := hd.before i hlt
      rw [he]
      simp only [if_neg hne]
      exact ih hlt (by omega)

theorem findSlot_of_full {key : Bytes} (hkey : ∀ v, some (key, v) ∉ t.buckets)
    (hfull : none ∉ t.buckets) (hash n i : Nat) : findSlot t key hash n i = none := by
  have hs : 0 < t.buckets.length := by
    rw [hcap]
    exact Nat.two_pow_pos m
  induction n generalizing i with
  | zero => rfl
  | succ n ih =>
    simp only [findSlot, probe_eq hm hcap, getElem?_mod hs]
    cases hc : cell t.buckets (hash + i) with
    | none => exact absurd (mem_of_cell_eq_none hs hc) hfull
    | some e =>
      have hne : e.1 ≠ key := by
        rintro rfl
        exact hkey e.2 (mem_iff_cell.mpr ⟨_, hc⟩)
      simp only [if_neg hne]
      exact ih (i + 1)

theorem lookupSlot_of_stops {key : Bytes} {d : Nat} (hd : Stops t.buckets key (hashKey key) d) :
    t.lookupSlot key = some ((hashKey key + d) % t.buckets.length) :=
  findSlot_of_stops hm hcap hd (Nat.zero_le _) (by rw [Nat.zero_add]; exact hd.lt)

theorem insert_of_stops {key : Bytes} {value : π} {d : Nat}
    (hd : Stops t.buckets key (hashKey key) d) :
    t.insert key value =
      ⟨t.buckets.set ((hashKey key + d) % t.buckets.length) (some (key, value)),
        t.count + (cell t.buckets (hashKey key + d)).isNone.toNat⟩ := by
  have hs : 0 < t.buckets.length := Nat.zero_lt_of_lt hd.lt
  unfold HashTable.insert
  rw [lookupSlot_of_stops hm hcap hd]
  simp only [getElem?_mod hs]
  cases cell t.buckets (hashKey key + d) <;> rfl

end Search

theorem get_of_stops {t : HashTable π} {m : Nat} (hm : m ≤ 26) (hcap : t.buckets.length = 2 ^ m)
    {key : Bytes} {d : Nat} (hd : Stops t.buckets (cString key) (hashKey (cString key)) d) :
    t.get key = (cell t.buckets (hashKey (cString key) + d)).map Prod.snd := by
  have hs : 0 < t.buckets.length := Nat.zero_lt_of_lt hd.lt
  unfold HashTable.get
  rw [lookupSlot_of_stops hm hcap hd]
  simp only [getElem?_mod hs]
  cases cell t.buckets (hashKey (cString key) + d) <;> rfl

/-! Room in the table. -/

namespace WellFormed

variable {t : HashTable π}

theorem empty : WellFormed (empty : HashTable π) where
  placed := placed_replicate 0
  keys _ _ h := absurd h List.not_mem_nil
  count := rfl
  capacity := Or.inl rfl
  load _ := Nat.succ_pos _

theorem capacity_bounds (h : WellFormed t) (hb : t.buckets ≠ []) :
    16 ≤ t.buckets.length ∧ t.buckets.length ≤ maxCapacity := by
  obtain ⟨m, hm, hm', hcap⟩ := h.capacity.resolve_left hb
  rw [hcap]
  exact ⟨Nat.pow_le_pow_right (n := 2) (by decide) hm, Nat.pow_le_pow_right (by decide) hm'⟩

theorem double_le (h : WellFormed t) (hlt : t.buckets.length < maxCapacity) :
    t.buckets.length * 2 ≤ maxCapacity := by
  rcases h.capacity with hb | ⟨m, -, -, hcap⟩
  · simp [hb]
  · rw [hcap] at hlt ⊢
    rw [← Nat.pow_succ]
    exact Nat.pow_le_pow_right (by decide) ((Nat.pow_lt_pow_iff_right (by decide)).mp hlt)

theorem count_lt (h : WellFormed t) (hb : t.buckets ≠ []) (hc : t.count < maxCapacity) :
    t.count < t.buckets.length := by
  obtain ⟨hlo, hhi⟩ := h.capacity_bounds hb
  have hload := h.load
  unfold high at hload
  omega

theorem none_mem (h : WellFormed t) (hb : t.buckets ≠ []) (hc : t.count < maxCapacity) :
    none ∈ t.buckets :=
  none_mem_iff.mpr (h.count ▸ h.count_lt hb hc)

/-- The load test of the code fires exactly where the load is high; the largest
capacity is past it. -/
theorem high_le_load_iff (h : WellFormed t) (hb : t.buckets ≠ []) :
    high ≤ HashTable.load t.count t.capacity ↔
      t.buckets.length < maxCapacity ∧ high * t.buckets.length ≤ t.count * 100 := by
  obtain ⟨hlo, hhi⟩ := h.capacity_bounds hb
  have hload := h.load
  unfold HashTable.load HashTable.capacity
  rw [Nat.le_div_iff_mul_le (by omega)]
  have hmod := Nat.mod_lt (t.count * 100) (show 0 < 2 ^ 32 by decide)
  unfold high maxCapacity at *
  rcases Nat.lt_or_ge t.buckets.length (2 ^ 26) with hlt | hge
  · have hdouble := h.double_le hlt
    have := hload hlt
    unfold maxCapacity at hdouble
    rw [Nat.mod_eq_of_lt (by omega)]
    simp only [hlt, true_and]
  · omega

/-- The probes for any key stop at it or at an empty slot. -/
theorem exists_stops (h : WellFormed t) (hb : t.buckets ≠ []) (hc : t.count < maxCapacity)
    (k : Bytes) : ∃ d, Stops t.buckets k (hashKey k) d ∧
      ((∃ v, cell t.buckets (hashKey k + d) = some (k, v)) ∨
        cell t.buckets (hashKey k + d) = none ∧ ∀ v, some (k, v) ∉ t.buckets) := by
  by_cases hk : ∃ v, some (k, v) ∈ t.buckets
  · obtain ⟨v, hv⟩ := hk
    obtain ⟨d, hd, hcell⟩ := h.placed.stops_of_mem hv
    exact ⟨d, hd, Or.inl ⟨v, hcell⟩⟩
  · have hk : ∀ v, some (k, v) ∉ t.buckets := fun v hv => hk ⟨v, hv⟩
    obtain ⟨d, hd, hcell⟩ := exists_stops_of_not_mem hk (h.none_mem hb hc) (hashKey k)
    exact ⟨d, hd, Or.inr ⟨hcell, hk⟩⟩

end WellFormed

/-- `u` is `t` after `v` was stored under `k`. -/
structure Stored (t : HashTable π) (k : Bytes) (v : π) (u : HashTable π) : Prop where
  wellFormed : WellFormed u
  mem : ∀ e, some e ∈ u.buckets ↔ e = (k, v) ∨ e.1 ≠ k ∧ some e ∈ t.buckets
  count_le : u.count ≤ t.count + 1
  count_new : (∀ w, some (k, w) ∉ t.buckets) → u.count = t.count + 1
  length : t.buckets.length ≤ u.buckets.length
  ne_nil : u.buckets ≠ []

theorem WellFormed.insert {t : HashTable π} (h : WellFormed t) (hb : t.buckets ≠ [])
    (hc : t.count < maxCapacity)
    (hlow : t.buckets.length < maxCapacity → t.count * 100 < high * t.buckets.length)
    {k : Bytes} (hk : cString k = k) (v : π) :
    Stored t k v (t.insert k v) ∧ (t.insert k v).buckets.length = t.buckets.length := by
  obtain ⟨m, hm, hm', hcap⟩ := h.capacity.resolve_left hb
  obtain ⟨d, hd, hcell⟩ := h.exists_stops hb hc k
  have hs : 0 < t.buckets.length := Nat.zero_lt_of_lt hd.lt
  have hmem := h.placed.mem_store hd v
  have hused := used_set hs (hashKey k + d) (some (k, v))
  have hnew : (∀ w, some (k, w) ∉ t.buckets) → cell t.buckets (hashKey k + d) = none := by
    intro hnot
    rcases hcell with ⟨w, hw⟩ | ⟨hnone, -⟩
    · exact absurd (mem_iff_cell.mpr ⟨_, hw⟩) (hnot w)
    · exact hnone
  have hcount : t.count + (cell t.buckets (hashKey k + d)).isNone.toNat =
      used (t.buckets.set ((hashKey k + d) % t.buckets.length) (some (k, v))) := by
    rw [h.count]
    revert hused
    cases cell t.buckets (hashKey k + d) <;> simp only [Option.isSome_none, Option.isSome_some,
      Option.isNone_none, Option.isNone_some, Bool.toNat_true, Bool.toNat_false] <;> omega
  have hle := Bool.toNat_le (cell t.buckets (hashKey k + d)).isNone
  rw [insert_of_stops hm' hcap hd]
  refine ⟨⟨⟨h.placed.store hd v, ?_, hcount, Or.inr ⟨m, hm, hm', ?_⟩, ?_⟩, hmem, ?_, ?_, ?_, ?_⟩, ?_⟩
  · intro j w hj
    rcases (hmem (j, w)).mp hj with heq | ⟨-, hj⟩
    · cases heq
      exact hk
    · exact h.keys j w hj
  · rw [List.length_set, hcap]
  · intro hlt
    rw [List.length_set] at hlt ⊢
    have := hlow hlt
    simp only
    omega
  · exact Nat.add_le_add_left hle _
  · intro hnot
    rw [hnew hnot]
    rfl
  · rw [List.length_set]
  · exact List.ne_nil_of_length_pos (by rwa [List.length_set])
  · exact List.length_set

/-- Under the load bound no nesting rebuilds the table. -/
theorem putDepth_of_load_lt {t : HashTable π} (hb : t.buckets ≠ [])
    (hload : ¬ high ≤ load t.count t.capacity) (depth : Nat) (k : Bytes) (v : π) :
    putDepth depth t k v = t.insert k v := by
  cases depth with
  | zero => rfl
  | succ depth => rw [putDepth, if_neg hb, if_neg hload]

/-! The rebuild. -/

/-- What a rebuild leaves, before the new pair goes in. -/
def rehash (depth : Nat) (t : HashTable π) : HashTable π :=
  t.buckets.foldl
    (fun copy e => match e with
      | some (k, v) => putDepth depth copy k v
      | none => copy)
    ⟨List.replicate (grow t.count 32 t.capacity) none, 0⟩

theorem putDepth_succ (depth : Nat) (t : HashTable π) (key : Bytes) (value : π) :
    putDepth (depth + 1) t key value =
      if t.buckets = [] then
        ({ t with buckets := List.replicate initSize none } : HashTable π).insert key value
      else if high ≤ load t.count t.capacity then (rehash depth t).insert key value
      else t.insert key value :=
  rfl

/-- The doubling loop stops at the first capacity that brings the load down. -/
theorem grow_eq {count capacity : Nat} (hpos : 0 < capacity) (hcount : count * 100 < 2 ^ 32)
    (hle : low * capacity ≤ count * 100) (hlt : count * 100 < low * (capacity * 2)) (fuel : Nat) :
    grow count (fuel + 2) capacity = capacity * 2 := by
  have hload : ∀ c, 0 < c → (low ≤ load count c ↔ low * c ≤ count * 100) := by
    intro c hc
    rw [load, Nat.mod_eq_of_lt hcount, Nat.le_div_iff_mul_le hc]
  rw [grow, if_pos ((hload _ hpos).mpr hle), grow, if_neg]
  rw [hload _ (by omega)]
  omega

/-- Entries of pairwise different keys that the copy has room for all arrive there. -/
theorem foldl_putDepth (depth : Nat) {l : List (Option (Bytes × π))} {copy : HashTable π}
    (hcopy : WellFormed copy) (hb : copy.buckets ≠ [])
    (hroom : (copy.count + used l) * 100 < low * copy.buckets.length)
    (hkeys : ∀ k v, some (k, v) ∈ l → cString k = k)
    (hnew : ∀ k v w, some (k, v) ∈ l → some (k, w) ∉ copy.buckets)
    (hdistinct : l.Pairwise fun a b => ∀ e f, a = some e → b = some f → e.1 ≠ f.1) :
    let u := l.foldl (fun copy e => match e with
      | some (k, v) => putDepth depth copy k v
      | none => copy) copy
    WellFormed u ∧ u.buckets.length = copy.buckets.length ∧ u.count = copy.count + used l ∧
      ∀ e, some e ∈ u.buckets ↔ some e ∈ l ∨ some e ∈ copy.buckets := by
  induction l generalizing copy with
  | nil => exact ⟨hcopy, rfl, rfl, fun e => by simp⟩
  | cons x l ih =>
    rw [List.pairwise_cons] at hdistinct
    cases x with
    | none =>
      have hused : used (none :: l) = used l := List.countP_cons_of_neg (by simp)
      rw [hused] at hroom ⊢
      obtain ⟨hwf, hlen, hcount, hmem⟩ := ih hcopy hb hroom
        (fun k v hk => hkeys k v (List.mem_cons_of_mem _ hk))
        (fun k v w hk => hnew k v w (List.mem_cons_of_mem _ hk)) hdistinct.2
      refine ⟨hwf, hlen, hcount, fun e => (hmem e).trans ?_⟩
      simp only [List.mem_cons, reduceCtorEq, false_or]
    | some e =>
      obtain ⟨k, v⟩ := e
      have hused : used (some (k, v) :: l) = used l + 1 := List.countP_cons_of_pos rfl
      rw [hused] at hroom ⊢
      obtain ⟨hlo, hhi⟩ := hcopy.capacity_bounds hb
      have hlow : copy.count * 100 < high * copy.buckets.length := by
        unfold low at hroom
        unfold high
        omega
      have hmax : copy.count < maxCapacity := by
        unfold low at hroom
        omega
      have hput : putDepth depth copy k v = copy.insert k v := by
        apply putDepth_of_load_lt hb
        rw [hcopy.high_le_load_iff hb]
        omega
      obtain ⟨hst, hlen⟩ := hcopy.insert hb hmax (fun _ => hlow)
        (hkeys k v List.mem_cons_self) v
      have hcount := hst.count_new fun w => hnew k v w List.mem_cons_self
      simp only [List.foldl_cons, hput]
      obtain ⟨hwf, hlen', hcount', hmem⟩ := ih hst.wellFormed hst.ne_nil
        (by rw [hlen, hcount]; omega)
        (fun j w hj => hkeys j w (List.mem_cons_of_mem _ hj))
        (fun j w w' hj hj' => by
          rcases (hst.mem (j, w')).mp hj' with heq | ⟨-, hj'⟩
          · cases heq
            exact hdistinct.1 _ hj (k, v) (k, w) rfl rfl rfl
          · exact hnew j w w' (List.mem_cons_of_mem _ hj) hj')
        hdistinct.2
      refine ⟨hwf, hlen'.trans hlen, by omega, fun e => ?_⟩
      have hold : some e ∈ copy.buckets → e.1 ≠ k := by
        rintro he rfl
        exact hnew e.1 v e.2 List.mem_cons_self he
      rw [hmem, hst.mem]
      simp only [List.mem_cons, Option.some.injEq]
      tauto

theorem Placed.pairwise {s : Slots Bytes π} (hp : Placed hashKey s) :
    s.Pairwise fun a b => ∀ e f, a = some e → b = some f → e.1 ≠ f.1 := by
  rw [List.pairwise_iff_getElem]
  intro i j hi hj hij e f he hf hef
  have := hp.unique i j e f ((cell_of_lt hi).trans he) ((cell_of_lt hj).trans hf) hef
  have := Nat.ModEq.eq_of_lt_of_lt this hi hj
  omega

/-- A rebuild ends, with twice the capacity and the same entries. -/
theorem WellFormed.rehash {t : HashTable π} (h : WellFormed t) (hb : t.buckets ≠ [])
    (hload : high ≤ HashTable.load t.count t.capacity) (depth : Nat) :
    WellFormed (rehash depth t) ∧ (rehash depth t).buckets.length = t.buckets.length * 2 ∧
      (rehash depth t).count = t.count ∧
      ∀ e, some e ∈ (HashTable.rehash depth t).buckets ↔ some e ∈ t.buckets := by
  obtain ⟨m, hm, hm', hcap⟩ := h.capacity.resolve_left hb
  obtain ⟨hlt, hge⟩ := (h.high_le_load_iff hb).mp hload
  obtain ⟨hlo, -⟩ := h.capacity_bounds hb
  have hdouble := h.double_le hlt
  have hupper := h.load hlt
  unfold high at hge hupper
  have hgrow : grow t.count 32 t.capacity = t.buckets.length * 2 := by
    unfold HashTable.capacity
    apply grow_eq (by omega)
    · unfold maxCapacity at hdouble
      omega
    · unfold low
      omega
    · unfold low
      omega
  let copy : HashTable π := ⟨List.replicate (t.buckets.length * 2) none, 0⟩
  have hnone : ∀ e, some e ∉ copy.buckets := by
    intro e he
    cases List.eq_of_mem_replicate he
  have hm1 : m + 1 ≤ 26 := by
    rw [hcap] at hlt
    exact (Nat.pow_lt_pow_iff_right (by decide)).mp hlt
  have hcopy : WellFormed copy := by
    refine ⟨placed_replicate _, fun k v hk => absurd hk (hnone _), ?_,
      Or.inr ⟨m + 1, by omega, hm1, ?_⟩, fun _ => Nat.succ_le_of_lt (by simp [copy])⟩
    · symm
      exact List.countP_eq_zero.mpr fun e he => by simp [List.eq_of_mem_replicate he]
    · simp only [copy, List.length_replicate, hcap, Nat.pow_succ]
  have hlen : copy.buckets.length = t.buckets.length * 2 := List.length_replicate
  obtain ⟨hwf, hlen', hcount, hmem⟩ := foldl_putDepth depth hcopy
    (List.ne_nil_of_length_pos (by omega))
    (by
      rw [hlen, ← h.count, show copy.count = 0 from rfl]
      unfold low
      omega)
    h.keys (fun k v w _ => hnone _) (Placed.pairwise h.placed)
  unfold HashTable.rehash
  rw [hgrow]
  refine ⟨hwf, hlen'.trans hlen, ?_, fun e => ?_⟩
  · rw [hcount, h.count, show copy.count = 0 from rfl, Nat.zero_add]
  · rw [hmem]
    exact or_iff_left (hnone e)

/-- `put` stores its pair while the counter is below its limit. -/
theorem WellFormed.put {t : HashTable π} (h : WellFormed t) (hc : t.count < maxCapacity)
    (key : Bytes) (value : π) : Stored t (cString key) value (t.put key value) := by
  have hk := cString_idem key
  unfold HashTable.put
  rw [putDepth_succ]
  split
  · rename_i hb
    have hcount : t.count = 0 := by
      rw [h.count, hb]
      rfl
    let u : HashTable π := ⟨List.replicate initSize none, t.count⟩
    have hlen : u.buckets.length = initSize := List.length_replicate
    have hnone : ∀ e, some e ∉ u.buckets := by
      intro e he
      cases List.eq_of_mem_replicate he
    have hu : WellFormed u := by
      refine ⟨placed_replicate _, fun k v hk => absurd hk (hnone _), ?_,
        Or.inr ⟨4, by decide, by decide, rfl⟩, fun _ => ?_⟩
      · rw [show u.count = 0 from hcount]
        rfl
      · rw [show u.count = 0 from hcount, hlen]
        decide
    obtain ⟨hst, -⟩ := hu.insert (List.cons_ne_nil _ _) hc
      (fun _ => by rw [show u.count = 0 from hcount, hlen]; decide) hk value
    refine ⟨hst.wellFormed, ?_, hst.count_le, fun _ => hst.count_new fun w => hnone _, ?_,
      hst.ne_nil⟩
    · intro e
      rw [hst.mem, hb]
      simp only [hnone, List.not_mem_nil]
    · rw [hb]
      exact Nat.zero_le _
  · rename_i hb
    split
    · rename_i hload
      obtain ⟨hwf, hlen, hcount, hmem⟩ := h.rehash hb hload 31
      obtain ⟨hlt, hge⟩ := (h.high_le_load_iff hb).mp hload
      obtain ⟨hlo, -⟩ := h.capacity_bounds hb
      have hupper := h.load hlt
      have hne : (HashTable.rehash 31 t).buckets ≠ [] := List.ne_nil_of_length_pos (by omega)
      obtain ⟨hst, hlen'⟩ := hwf.insert hne (hcount ▸ hc)
        (fun _ => by rw [hlen, hcount]; unfold high at *; omega) hk value
      refine ⟨hst.wellFormed, ?_, hcount ▸ hst.count_le, ?_, by omega, hst.ne_nil⟩
      · intro e
        rw [hst.mem, hmem]
      · intro hnot
        rw [hst.count_new (fun w hw => hnot w ((hmem _).mp hw)), hcount]
    · rename_i hload
      rw [h.high_le_load_iff hb] at hload
      obtain ⟨hst, hlen⟩ := h.insert hb hc (by omega) hk value
      exact hst

theorem lookupSlot_nil {t : HashTable π} (hb : t.buckets = []) (k : Bytes) :
    t.lookupSlot k = none := by
  unfold lookupSlot capacity
  rw [hb]
  rfl

/-- `get` reads the map the entries make up. -/
theorem WellFormed.get_eq_some_iff {t : HashTable π} (h : WellFormed t) (hc : t.count < maxCapacity)
    (key : Bytes) (v : π) : t.get key = some v ↔ some (cString key, v) ∈ t.buckets := by
  by_cases hb : t.buckets = []
  · simp [HashTable.get, lookupSlot_nil hb, hb]
  · obtain ⟨m, -, hm, hcap⟩ := h.capacity.resolve_left hb
    obtain ⟨d, hd, ⟨w, hw⟩ | ⟨hnone, hnot⟩⟩ := h.exists_stops hb hc (cString key)
    · rw [get_of_stops hm hcap hd, hw]
      have hmem := mem_iff_cell.mpr ⟨_, hw⟩
      constructor
      · intro hv
        cases hv
        exact hmem
      · intro hv
        rw [h.placed.eq_of_mem hv hmem]
        rfl
    · rw [get_of_stops hm hcap hd, hnone]
      constructor
      · intro hv
        cases hv
      · intro hv
        exact absurd hv (hnot v)

theorem WellFormed.clear {t : HashTable π} (h : WellFormed t) :
    WellFormed t.clear ∧ ∀ e, some e ∉ t.clear.buckets := by
  unfold HashTable.clear
  split
  · rename_i hb
    exact ⟨h, by simp [hb]⟩
  · rename_i hb
    have hnone : ∀ e : Bytes × π, some e ∉ List.replicate t.capacity none := by
      intro e he
      cases List.eq_of_mem_replicate he
    refine ⟨⟨placed_replicate _, fun k v hk => absurd hk (hnone _), ?_, Or.inr ?_,
      fun _ => Nat.succ_le_of_lt (by simp)⟩, hnone⟩
    · symm
      exact List.countP_eq_zero.mpr fun e he => by simp [List.eq_of_mem_replicate he]
    · rw [List.length_replicate]
      exact h.capacity.resolve_left hb

/-! Removal. -/

/-- The table with a slot emptied. -/
def taken (t : HashTable π) (pos : Nat) : HashTable π :=
  ⟨t.buckets.set pos none, t.count - 1⟩

/-- Runs of the loop that takes out and puts back what follows an emptied slot, none of
whose puts rebuilds the table. -/
inductive Reinserts (cap : Nat) : HashTable π → Nat → HashTable π → Prop
  | done {t : HashTable π} {pos : Nat} : (∀ e, t.buckets[pos]? ≠ some (some e)) →
      Reinserts cap t pos t
  | next {t u : HashTable π} {pos : Nat} {k : Bytes} {v : π} :
      t.buckets[pos]? = some (some (k, v)) →
      ¬ high ≤ load (t.taken pos).count (t.taken pos).capacity →
      Reinserts cap ((t.taken pos).put k v) ((pos + 1) % cap) u → Reinserts cap t pos u

/-- The loop's invariant: the turn from the empty slot `e` is in order before `p`. -/
structure Mending (m e p : Nat) (t : HashTable π) : Prop where
  repairing : Repairing hashKey t.buckets e p
  exponent : 4 ≤ m ∧ m ≤ 26
  capacity : t.buckets.length = 2 ^ m
  keys : ∀ k v, some (k, v) ∈ t.buckets → cString k = k
  count : t.count = used t.buckets
  load : t.buckets.length < maxCapacity → t.count * 100 < high * t.buckets.length

theorem load_lt {count n : Nat} (hn : 0 < n) (hmax : n ≤ maxCapacity)
    (hlow : n < maxCapacity → count * 100 < high * n) : ¬ high ≤ load count n := by
  rw [load, Nat.le_div_iff_mul_le hn]
  have hlt := Nat.mod_lt (count * 100) (show 0 < 2 ^ 32 by decide)
  have hle := Nat.mod_le (count * 100) (2 ^ 32)
  unfold maxCapacity high at *
  omega

namespace Mending

variable {m e p : Nat} {t : HashTable π}

theorem wellFormed (h : Mending m e p t) (hp : p = e + t.buckets.length) : WellFormed t where
  placed := Repairing.placed (hp ▸ h.repairing)
  keys := h.keys
  count := h.count
  capacity := Or.inr ⟨m, h.exponent.1, h.exponent.2, h.capacity⟩
  load hlt := Nat.lt_add_right 100 (h.load hlt)

/-- At the turn's end the slot is the empty one it began with. -/
theorem at_end (h : Mending m e p t) (hp : p = e + t.buckets.length) :
    t.buckets[p % t.buckets.length]? = some none := by
  rw [hp, Nat.add_mod_right, getElem?_mod h.repairing.length_pos, h.repairing.start]

theorem put_taken (h : Mending m e p t) {k : Bytes} {v : π} {d : Nat}
    (hload : ¬ high ≤ HashTable.load (t.taken (p % t.buckets.length)).count
      (t.taken (p % t.buckets.length)).capacity)
    (hk : cString k = k) (hd : Stops (t.taken (p % t.buckets.length)).buckets k (hashKey k) d)
    (hnone : cell (t.taken (p % t.buckets.length)).buckets (hashKey k + d) = none) :
    (t.taken (p % t.buckets.length)).put k v =
      ⟨(t.buckets.set (p % t.buckets.length) none).set ((hashKey k + d) % t.buckets.length)
        (some (k, v)), t.count - 1 + 1⟩ := by
  have hlen : (t.taken (p % t.buckets.length)).buckets.length = t.buckets.length := List.length_set
  have hb : (t.taken (p % t.buckets.length)).buckets ≠ [] :=
    List.ne_nil_of_length_pos (by rw [hlen]; exact h.repairing.length_pos)
  unfold HashTable.put
  rw [hk, putDepth_of_load_lt hb hload, insert_of_stops h.exponent.2 (hlen.trans h.capacity) hd,
    hnone, hlen]
  rfl

/-- One round of the loop. -/
theorem step (h : Mending m e p t) (hp : p < e + t.buckets.length) :
    ∃ k v, t.buckets[p % t.buckets.length]? = some (some (k, v)) ∧
      ¬ high ≤ HashTable.load (t.taken (p % t.buckets.length)).count
        (t.taken (p % t.buckets.length)).capacity ∧
      Mending m e (p + 1) ((t.taken (p % t.buckets.length)).put k v) ∧
      ((t.taken (p % t.buckets.length)).put k v).buckets.length = t.buckets.length ∧
      ((t.taken (p % t.buckets.length)).put k v).count = t.count ∧
      ∀ f, some f ∈ ((t.taken (p % t.buckets.length)).put k v).buckets ↔ some f ∈ t.buckets := by
  have hr := h.repairing
  have hs := hr.length_pos
  obtain ⟨⟨k, v⟩, hk⟩ := Option.ne_none_iff_exists'.mp (hr.full p (le_refl p) hp)
  obtain ⟨d, hd, hnone, -⟩ := hr.exists_stops hp hk
  have hmax : t.buckets.length ≤ maxCapacity :=
    h.capacity ▸ Nat.pow_le_pow_right (by decide) h.exponent.2
  have hload : ¬ high ≤ HashTable.load (t.taken (p % t.buckets.length)).count
      (t.taken (p % t.buckets.length)).capacity := by
    unfold HashTable.capacity taken
    rw [List.length_set]
    apply load_lt hs hmax
    intro hlt
    have := h.load hlt
    simp only
    omega
  have hkv := h.keys k v (mem_iff_cell.mpr ⟨p, hk⟩)
  have hput := h.put_taken (v := v) hload hkv hd hnone
  have hpos : 0 < t.count := by
    rw [h.count]
    exact List.countP_pos_iff.mpr ⟨some (k, v), mem_iff_cell.mpr ⟨p, hk⟩, rfl⟩
  have hmem := hr.mem_step hk hnone
  have hused : used ((t.buckets.set (p % t.buckets.length) none).set
      ((hashKey k + d) % t.buckets.length) (some (k, v))) = used t.buckets := by
    have h1 := used_set hs p none
    have h2 := used_set (s := t.buckets.set (p % t.buckets.length) none)
      (by rwa [List.length_set]) (hashKey k + d) (some (k, v))
    rw [hk] at h1
    rw [hnone, List.length_set] at h2
    simp only [Option.isSome_none, Option.isSome_some, Bool.toNat_true, Bool.toNat_false] at h1 h2
    omega
  have hcount : t.count - 1 + 1 = t.count := Nat.sub_add_cancel hpos
  refine ⟨k, v, by rw [getElem?_mod hs, hk], hload, ?_⟩
  rw [hput, hcount]
  refine ⟨⟨hr.step hp hk hd, h.exponent, ?_, ?_, ?_, ?_⟩, ?_, rfl, hmem⟩
  · simp only [List.length_set, h.capacity]
  · exact fun j w hj => h.keys j w ((hmem _).mp hj)
  · exact h.count.trans hused.symm
  · simpa only [List.length_set] using h.load
  · simp only [List.length_set]

end Mending

/-- `u` is `t` with the same entries, all in place again. -/
structure Mended (t u : HashTable π) : Prop where
  wellFormed : WellFormed u
  mem : ∀ e, some e ∈ u.buckets ↔ some e ∈ t.buckets
  count : u.count = t.count

/-- From a turn under repair the loop ends with every entry in place. -/
theorem Mending.reinsert {m e p fuel : Nat} {t : HashTable π} (h : Mending m e p t)
    (hfuel : e + t.buckets.length - p ≤ fuel) :
    Reinserts t.buckets.length t (p % t.buckets.length)
        (reinsert t.buckets.length fuel t (p % t.buckets.length)) ∧
      Mended t (reinsert t.buckets.length fuel t (p % t.buckets.length)) := by
  induction fuel generalizing t p with
  | zero =>
    have hp : p = e + t.buckets.length := by
      have := h.repairing.upper
      omega
    exact ⟨.done (by simp [h.at_end hp]), h.wellFormed hp, fun _ => Iff.rfl, rfl⟩
  | succ fuel ih =>
    rcases Nat.eq_or_lt_of_le h.repairing.upper with hp | hp
    · unfold HashTable.reinsert
      rw [h.at_end hp]
      exact ⟨.done (by simp [h.at_end hp]), h.wellFormed hp, fun _ => Iff.rfl, rfl⟩
    · obtain ⟨k, v, hget, hload, hnext, hlen, hcount, hmem⟩ := h.step hp
      have hpos : (p % t.buckets.length + 1) % t.buckets.length = (p + 1) % t.buckets.length :=
        Nat.mod_add_mod p t.buckets.length 1
      have hunfold : HashTable.reinsert t.buckets.length (fuel + 1) t (p % t.buckets.length) =
          HashTable.reinsert t.buckets.length fuel ((t.taken (p % t.buckets.length)).put k v)
            ((p + 1) % t.buckets.length) := by
        rw [HashTable.reinsert, hget, ← hpos]
        rfl
      obtain ⟨hrun, hmended⟩ := ih hnext (by omega)
      rw [hlen] at hrun hmended
      rw [hunfold]
      refine ⟨.next hget hload (hpos.symm ▸ hrun), hmended.wellFormed, fun f => ?_,
        hmended.count.trans hcount⟩
      exact (hmended.mem f).trans (hmem f)

/-- `u` is `t` without the key `k`. -/
structure Removed (t : HashTable π) (k : Bytes) (u : HashTable π) : Prop where
  wellFormed : WellFormed u
  mem : ∀ e, some e ∈ u.buckets ↔ e.1 ≠ k ∧ some e ∈ t.buckets
  count_le : u.count ≤ t.count

/-- The removal of a stored key empties its slot and mends what follows. -/
theorem WellFormed.remove_stored {t : HashTable π} (h : WellFormed t) (hc : t.count < maxCapacity)
    {key : Bytes} {v : π} (hv : some (cString key, v) ∈ t.buckets) :
    ∃ idx, t.lookupSlot (cString key) = some idx ∧
      t.buckets[idx]? = some (some (cString key, v)) ∧
      Reinserts t.capacity (t.taken idx) ((idx + 1) % t.capacity) (t.remove key) ∧
      Removed t (cString key) (t.remove key) := by
  have hb : t.buckets ≠ [] := List.ne_nil_of_mem hv
  obtain ⟨m, hm, hm', hcap⟩ := h.capacity.resolve_left hb
  obtain ⟨d, hd, hcell⟩ := h.placed.stops_of_mem hv
  have hs : 0 < t.buckets.length := Nat.zero_lt_of_lt hd.lt
  obtain ⟨e, p, hp, he, hep, hpe, hfull⟩ := exists_turn (i := hashKey (cString key) + d)
    (by simp [hcell]) (h.none_mem hb hc)
  have hcellp : cell t.buckets p = some (cString key, v) := (cell_congr hp).trans hcell
  have hlookup : t.lookupSlot (cString key) = some (p % t.buckets.length) := by
    rw [hp]
    exact lookupSlot_of_stops hm' hcap hd
  have hget : t.buckets[p % t.buckets.length]? = some (some (cString key, v)) := by
    rw [getElem?_mod hs, hcellp]
  have hmem := mem_clear hs (fun i f hf hfk => h.placed.unique i p f _ hf hcellp hfk) hcellp
  have hused := used_set hs p none
  rw [hcellp] at hused
  simp only [Option.isSome_none, Option.isSome_some, Bool.toNat_true, Bool.toNat_false] at hused
  have hcount := h.count
  have hlen : (t.taken (p % t.buckets.length)).buckets.length = t.buckets.length := List.length_set
  have hmending : Mending m e (p + 1) (t.taken (p % t.buckets.length)) := by
    refine ⟨h.placed.repairing_of_clear he hep hpe hfull, ⟨hm, hm'⟩, hlen.trans hcap,
      fun j w hj => h.keys j w ((hmem _).mp hj).2, ?_, ?_⟩
    · unfold taken
      simp only
      omega
    · intro hlt
      rw [hlen] at hlt ⊢
      have := h.load hlt
      unfold taken
      simp only
      omega
  obtain ⟨hrun, hmended⟩ :=
    hmending.reinsert (show e + _ - (p + 1) ≤ t.buckets.length by omega)
  rw [hlen, ← Nat.mod_add_mod] at hrun hmended
  have hremove : t.remove key = reinsert t.buckets.length t.buckets.length
      (t.taken (p % t.buckets.length)) ((p % t.buckets.length + 1) % t.buckets.length) := by
    unfold HashTable.remove
    rw [hlookup]
    simp only [hget]
    rfl
  rw [← hremove] at hrun hmended
  refine ⟨p % t.buckets.length, hlookup, hget, hrun, hmended.wellFormed,
    fun f => (hmended.mem f).trans (hmem f), ?_⟩
  rw [hmended.count]
  exact Nat.sub_le _ _

theorem WellFormed.remove {t : HashTable π} (h : WellFormed t) (hc : t.count < maxCapacity)
    (key : Bytes) : Removed t (cString key) (t.remove key) := by
  by_cases hv : ∃ v, some (cString key, v) ∈ t.buckets
  · obtain ⟨v, hv⟩ := hv
    obtain ⟨_, _, _, _, hremoved⟩ := h.remove_stored hc hv
    exact hremoved
  · have hnot : ∀ v, some (cString key, v) ∉ t.buckets := fun v h => hv ⟨v, h⟩
    have hsame : t.remove key = t := by
      unfold HashTable.remove
      by_cases hb : t.buckets = []
      · rw [lookupSlot_nil hb]
      · obtain ⟨m, -, hm', hcap⟩ := h.capacity.resolve_left hb
        obtain ⟨d, hd, ⟨w, hw⟩ | ⟨hnone, -⟩⟩ := h.exists_stops hb hc (cString key)
        · exact absurd (mem_iff_cell.mpr ⟨_, hw⟩) (hnot w)
        · rw [lookupSlot_of_stops hm' hcap hd]
          simp only [getElem?_mod (Nat.zero_lt_of_lt hd.lt), hnone]
    rw [hsame]
    refine ⟨h, fun e => ⟨fun he => ⟨?_, he⟩, And.right⟩, le_refl _⟩
    rintro hek
    exact hnot e.2 (hek ▸ he)

end Aer.Data.HashTable
