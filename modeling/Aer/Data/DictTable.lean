import Aer.Data.FiniteMap
import Aer.Data.TableLimit

set_option linter.all false

/-! The table of a dict: an index assignment writes to a present key in place, the tables that
the program can make are those of literals, assignments and deletions, and a loop goes through
the entries bucket by bucket. -/
namespace Aer.Data.HashTable

open Aer.Lib Aer.Lib.Probing

variable {π : Type} {t : HashTable π}

/-- An index assignment. -/
def assign (t : HashTable π) (key : Bytes) (value : π) : HashTable π :=
  match t.get key with
  | some _ => t.insert (cString key) value
  | none => t.put key value

/-- `u` is `t` with `value` under `key`. -/
structure Assigned (t : HashTable π) (key : Bytes) (value : π) (u : HashTable π) : Prop where
  wellFormed : WellFormed u
  mem : ∀ e, some e ∈ u.buckets ↔ e = (cString key, value) ∨ e.1 ≠ cString key ∧ some e ∈ t.buckets

/-- A write in place needs no room. -/
theorem WellFormed.update (h : WellFormed t) {key : Bytes} {old : π}
    (hold : some (cString key, old) ∈ t.buckets) (value : π) :
    Assigned t key value (t.insert (cString key) value) := by
  obtain ⟨m, hm, hm', hcap⟩ := h.capacity.resolve_left (List.ne_nil_of_mem hold)
  obtain ⟨d, hd, hcell⟩ := h.placed.stops_of_mem hold
  have hs : 0 < t.buckets.length := Nat.zero_lt_of_lt hd.lt
  have hmem := h.placed.mem_store hd value
  have hused := used_set hs (hashKey (cString key) + d) (some (cString key, value))
  rw [hcell] at hused
  simp only [Option.isSome_some, Bool.toNat_true, Nat.add_right_cancel_iff] at hused
  rw [insert_of_stops hm' hcap hd, hcell]
  simp only [Option.isNone_some, Bool.toNat_false, Nat.add_zero]
  refine ⟨⟨h.placed.store hd value, ?_, h.count.trans hused.symm, Or.inr ⟨m, hm, hm', ?_⟩, ?_⟩, hmem⟩
  · intro j w hj
    rcases (hmem (j, w)).mp hj with heq | ⟨-, hj⟩
    · cases heq
      exact cString_idem key
    · exact h.keys j w hj
  · rw [List.length_set, hcap]
  · intro hlt
    rw [List.length_set] at hlt ⊢
    exact h.load hlt

theorem WellFormed.assign (h : WellFormed t) (hroom : t.count < maxCapacity) (key : Bytes)
    (value : π) : Assigned t key value (t.assign key value) := by
  unfold HashTable.assign
  cases hget : t.get key with
  | none => exact ⟨(h.put hroom key value).wellFormed, (h.put hroom key value).mem⟩
  | some old => exact h.update ((h.get_iff key old).mp hget) value

/-- The key has the value, and what is under any other key is the same. -/
theorem Assigned.get {u : HashTable π} {key : Bytes} {value : π} (hu : Assigned t key value u)
    (h : WellFormed t) (k : Bytes) :
    u.get k = if cString k = cString key then some value else t.get k := by
  ext w
  rw [hu.wellFormed.get_iff, hu.mem]
  split
  · next hk => simp [hk, eq_comm]
  · next hk => simp [hk, h.get_iff]

theorem WellFormed.get_assign (h : WellFormed t) (hroom : t.count < maxCapacity) (key k : Bytes)
    (value : π) :
    (t.assign key value).get k = if cString k = cString key then some value else t.get k :=
  (h.assign hroom key value).get h k

theorem WellFormed.get_remove (h : WellFormed t) (hroom : t.count < maxCapacity) (key k : Bytes) :
    (t.remove key).get k = if cString k = cString key then none else t.get k := by
  have hremoved := h.remove hroom key
  ext w
  rw [hremoved.wellFormed.get_iff, hremoved.mem]
  split
  · next hk => simp [hk]
  · next hk => simp [hk, h.get_iff]

/-- The tables that the literals, the assignments, the deletions and the decoder make of the
empty one, each with a bucket to spare. -/
inductive Built : HashTable π → Prop
  | empty : Built empty
  | put {t : HashTable π} (h : Built t) (hroom : t.count < maxCapacity) (key : Bytes) (value : π) :
      Built (t.put key value)
  | assign {t : HashTable π} (h : Built t) (hroom : t.count < maxCapacity) (key : Bytes)
      (value : π) : Built (t.assign key value)
  | remove {t : HashTable π} (h : Built t) (hroom : t.count < maxCapacity) (key : Bytes) :
      Built (t.remove key)

theorem Built.wellFormed (h : Built t) : WellFormed t := by
  induction h with
  | empty => exact .empty
  | put _ hroom key value ih => exact (ih.put hroom key value).wellFormed
  | assign _ hroom key value ih => exact (ih.assign hroom key value).wellFormed
  | remove _ hroom key ih => exact (ih.remove hroom key).wellFormed

/-- As many puts as there is room for, one after another. -/
theorem Built.puts (h : Built t) {pairs : List (Bytes × π)}
    (hroom : t.count + pairs.length ≤ maxCapacity) :
    Built (pairs.foldl (fun t e => t.put e.1 e.2) t) := by
  induction pairs generalizing t with
  | nil => exact h
  | cons e pairs ih =>
    rw [List.length_cons] at hroom
    have hlt : t.count < maxCapacity := by omega
    have hcount := (h.wellFormed.put hlt e.1 e.2).count_le
    refine ih (h.put hlt e.1 e.2) ?_
    beta_reduce
    omega

/-! The enumeration. -/

/-- The entries from a bucket on. -/
def entriesFrom (t : HashTable π) (i : Nat) : List (Bytes × π) :=
  (t.buckets.drop i).filterMap id

theorem entriesFrom_zero (t : HashTable π) : t.entriesFrom 0 = t.entries := rfl

/-- The search of the loop: it ends where no entry is left, else at the first of them. -/
theorem nextEntry_spec (t : HashTable π) (i : Nat) :
    (t.nextEntry i = none ∧ t.entriesFrom i = []) ∨
      ∃ j k v, t.nextEntry i = some (j, k, v) ∧ i ≤ j ∧ j < t.capacity ∧
        t.entriesFrom i = (k, v) :: t.entriesFrom (j + 1) := by
  induction hn : t.capacity - i generalizing i with
  | zero =>
    refine .inl ⟨?_, ?_⟩
    · unfold nextEntry
      rw [hn]
      rfl
    · unfold entriesFrom
      rw [List.drop_eq_nil_of_le (Nat.le_of_sub_eq_zero hn)]
      rfl
  | succ n ih =>
    have hi : i < t.buckets.length := Nat.lt_of_sub_eq_succ hn
    have hrest : t.capacity - (i + 1) = n := by omega
    have hdrop : t.entriesFrom i = (t.buckets[i].toList ++ t.entriesFrom (i + 1)) := by
      unfold entriesFrom
      rw [List.drop_eq_getElem_cons hi, List.filterMap_cons]
      cases t.buckets[i] <;> rfl
    have hnext : t.nextEntry i = (t.buckets[i].map (i, ·)).or (t.nextEntry (i + 1)) := by
      unfold nextEntry
      rw [hn, hrest, List.range'_succ, List.findSome?_cons, List.getElem?_eq_getElem hi]
      cases t.buckets[i] <;> rfl
    cases he : t.buckets[i] with
    | none =>
      rw [he] at hdrop hnext
      rcases ih (i + 1) hrest with ⟨hnone, hnil⟩ | ⟨j, k, v, hsome, hij, hj, hcons⟩
      · exact .inl ⟨hnext.trans hnone, hdrop.trans hnil⟩
      · exact .inr ⟨j, k, v, hnext.trans hsome, Nat.le_of_succ_le hij, hj, hdrop.trans hcons⟩
    | some e =>
      rw [he] at hdrop hnext
      exact .inr ⟨i, e.1, e.2, hnext, le_refl i, hi, hdrop⟩

theorem WellFormed.length_entries (h : WellFormed t) : t.entries.length = t.count := by
  rw [h.count]
  unfold entries used
  rw [List.length_filterMap_eq_countP]
  rfl

end Aer.Data.HashTable
