import Aer.Data.Bytes

set_option linter.all false

/-! The open-addressing table behind scopes, dicts and the name index. A key is
stored as the C string the code compares; its length is the length of that string. -/
namespace Aer.Data

structure HashTable (π : Type) where
  buckets : List (Option (Bytes × π))
  count : Nat
  deriving DecidableEq, Inhabited

namespace HashTable

variable {π : Type}

def initSize : Nat := 16
def high : Nat := 70
def low : Nat := 50

def empty : HashTable π := ⟨[], 0⟩

def capacity (t : HashTable π) : Nat := t.buckets.length

def hashKey (key : Bytes) : Nat :=
  (key.foldl (fun h c => (h ^^^ c.toNat) * 0x100000001b3 % 2 ^ 64) 0xcbf29ce484222325)

/-- The occupancy in percent, in 32-bit unsigned arithmetic. -/
def load (count capacity : Nat) : Nat :=
  count * 100 % 2 ^ 32 / capacity

def probe (hash i capacity : Nat) : Nat :=
  (hash + i) % 2 ^ 64 % capacity

/-- The first of the `n` probes from `i` on that holds the key or nothing. -/
def findSlot (t : HashTable π) (key : Bytes) (hash : Nat) : Nat → Nat → Option Nat
  | 0, _ => none
  | n + 1, i =>
      let idx := probe hash i t.capacity
      match t.buckets[idx]? with
      | some (some (k, _)) => if k = key then some idx else findSlot t key hash n (i + 1)
      | _ => some idx

def lookupSlot (t : HashTable π) (key : Bytes) : Option Nat :=
  findSlot t key (hashKey key) t.capacity 0

/-- Store at the slot a probe found; a table without such a slot is left alone. -/
def insert (t : HashTable π) (key : Bytes) (value : π) : HashTable π :=
  match t.lookupSlot key with
  | none => t
  | some idx =>
      match t.buckets[idx]? with
      | some (some _) => { t with buckets := t.buckets.set idx (some (key, value)) }
      | _ => { buckets := t.buckets.set idx (some (key, value)), count := t.count + 1 }

def grow (count : Nat) : Nat → Nat → Nat
  | 0, capacity => capacity
  | fuel + 1, capacity =>
      if low ≤ load count capacity then grow count fuel (capacity * 2) else capacity

/-- `put` with the nesting of table rebuilds bounded; a rebuild doubles the
capacity, and a table of 2^27 slots is never rebuilt again. -/
def putDepth : Nat → HashTable π → Bytes → π → HashTable π
  | 0, t, key, value => t.insert key value
  | depth + 1, t, key, value =>
      if t.buckets = [] then
        ({ t with buckets := List.replicate initSize none } : HashTable π).insert key value
      else if high ≤ load t.count t.capacity then
        let copy : HashTable π := ⟨List.replicate (grow t.count 32 t.capacity) none, 0⟩
        let copy := t.buckets.foldl
          (fun copy e => match e with
            | some (k, v) => putDepth depth copy k v
            | none => copy) copy
        copy.insert key value
      else t.insert key value

def put (t : HashTable π) (key : Bytes) (value : π) : HashTable π :=
  putDepth 32 t (cString key) value

def get (t : HashTable π) (key : Bytes) : Option π :=
  match t.lookupSlot (cString key) with
  | none => none
  | some idx =>
      match t.buckets[idx]? with
      | some (some (_, v)) => some v
      | _ => none

/-- Take out and put back the entries from `pos` to the next empty slot. -/
def reinsert (cap : Nat) : Nat → HashTable π → Nat → HashTable π
  | 0, t, _ => t
  | fuel + 1, t, pos =>
      match t.buckets[pos]? with
      | some (some (k, v)) =>
          let t : HashTable π := { buckets := t.buckets.set pos none, count := t.count - 1 }
          reinsert cap fuel (t.put k v) ((pos + 1) % cap)
      | _ => t

def remove (t : HashTable π) (key : Bytes) : HashTable π :=
  match t.lookupSlot (cString key) with
  | none => t
  | some idx =>
      match t.buckets[idx]? with
      | some (some _) =>
          let cap := t.capacity
          let t : HashTable π := { buckets := t.buckets.set idx none, count := t.count - 1 }
          reinsert cap cap t ((idx + 1) % cap)
      | _ => t

def clear (t : HashTable π) : HashTable π :=
  if t.buckets = [] then t else ⟨List.replicate t.capacity none, 0⟩

/-- The entries in bucket order. -/
def entries (t : HashTable π) : List (Bytes × π) :=
  t.buckets.filterMap id

def values (t : HashTable π) : List π :=
  t.entries.map Prod.snd

/-- The first occupied bucket at or after an index. -/
def nextEntry (t : HashTable π) (idx : Nat) : Option (Nat × Bytes × π) :=
  (List.range' idx (t.capacity - idx)).findSome? fun i =>
    match t.buckets[i]? with
    | some (some (k, v)) => some (i, k, v)
    | _ => none

example : ((empty.put (bytes "a") 1).put (bytes "b") 2).get (bytes "a") = some 1 := by decide

/-! No operation makes up a payload. -/

section Holds
variable {P : π → Prop}

def Holds (P : π → Prop) (t : HashTable π) : Prop :=
  ∀ k v, some (k, v) ∈ t.buckets → P v

theorem holds_values {t : HashTable π} : Holds P t ↔ ∀ v ∈ t.values, P v := by
  simp only [Holds, values, entries, List.mem_map, List.mem_filterMap, id]
  exact ⟨fun h v ⟨e, ⟨_, he, hs⟩, hv⟩ => hv ▸ h e.1 e.2 (hs ▸ he),
    fun h k v hv => h v ⟨(k, v), ⟨_, hv, rfl⟩, rfl⟩⟩

theorem holds_empty : Holds P (empty : HashTable π) := by
  simp [Holds, empty]

theorem holds_replicate (n count : Nat) : Holds P (⟨List.replicate n none, count⟩ : HashTable π) := by
  intro k v hv
  simpa using (List.mem_replicate.mp hv).2

theorem Holds.set {t : HashTable π} (h : Holds P t) {e : Option (Bytes × π)}
    (he : ∀ k v, e = some (k, v) → P v) (idx count : Nat) :
    Holds P ⟨t.buckets.set idx e, count⟩ := by
  intro k v hv
  rcases List.mem_or_eq_of_mem_set hv with hv | hv
  · exact h k v hv
  · exact he k v hv.symm

theorem Holds.insert {t : HashTable π} (h : Holds P t) (key : Bytes) {value : π} (hv : P value) :
    Holds P (t.insert key value) := by
  have hnew : ∀ k v, some (key, value) = some (k, v) → P v := by
    rintro k v ⟨⟩
    exact hv
  unfold HashTable.insert
  cases t.lookupSlot key with
  | none => exact h
  | some idx =>
    simp only
    split
    · exact h.set hnew idx _
    · exact h.set hnew idx _

theorem Holds.putDepth {depth : Nat} {t : HashTable π} (h : Holds P t) (key : Bytes) {value : π}
    (hv : P value) : Holds P (putDepth depth t key value) := by
  induction depth generalizing t key value with
  | zero => exact h.insert key hv
  | succ depth ih =>
    unfold HashTable.putDepth
    split
    · exact (holds_replicate _ _).insert key hv
    · split
      · refine Holds.insert ?_ key hv
        refine List.foldlRecOn _ _ (holds_replicate _ _) ?_
        intro copy hcopy e he
        cases e with
        | none => exact hcopy
        | some kv => exact ih hcopy kv.1 (h kv.1 kv.2 he)
      · exact h.insert key hv

theorem Holds.put {t : HashTable π} (h : Holds P t) (key : Bytes) {value : π} (hv : P value) :
    Holds P (t.put key value) :=
  h.putDepth _ hv

theorem Holds.reinsert {cap fuel : Nat} {t : HashTable π} (h : Holds P t) (pos : Nat) :
    Holds P (reinsert cap fuel t pos) := by
  induction fuel generalizing t pos with
  | zero => exact h
  | succ fuel ih =>
    unfold HashTable.reinsert
    split
    · rename_i k v hkv
      exact ih ((h.set (by simp) pos _).put k (h k v (List.mem_of_getElem? hkv))) _
    · exact h

theorem Holds.remove {t : HashTable π} (h : Holds P t) (key : Bytes) : Holds P (t.remove key) := by
  unfold HashTable.remove
  cases t.lookupSlot (cString key) with
  | none => exact h
  | some idx =>
    simp only
    split
    · exact (h.set (by simp) idx _).reinsert _
    · exact h

theorem Holds.get {t : HashTable π} (h : Holds P t) {key : Bytes} {v : π} (hg : t.get key = some v) :
    P v := by
  unfold HashTable.get at hg
  cases hs : t.lookupSlot (cString key) with
  | none => simp [hs] at hg
  | some idx =>
    rw [hs] at hg
    simp only at hg
    split at hg
    · rename_i k _ hkw
      cases hg
      exact h k v (List.mem_of_getElem? hkw)
    · cases hg

end Holds

end HashTable

end Aer.Data
