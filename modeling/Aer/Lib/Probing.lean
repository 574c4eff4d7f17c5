import Mathlib.Data.Int.ModEq
import Mathlib.Data.List.GetD
import Mathlib.Data.Nat.Find

set_option linter.all false

/-! Open addressing with linear probing: where the probes for a key stop, what a
store keeps, and how the cluster behind an emptied slot is repaired. A position
counts slots cyclically, so that a path around the end of the table is an interval. -/
namespace Aer.Lib.Probing

variable {κ ν : Type}

abbrev Slots (κ ν : Type) := List (Option (κ × ν))

/-- What the slot at a position, modulo the capacity, holds. -/
def cell (s : Slots κ ν) (i : Nat) : Option (κ × ν) :=
  s.getD (i % s.length) none

theorem cell_congr {s : Slots κ ν} {i j : Nat} (h : i ≡ j [MOD s.length]) :
    cell s i = cell s j := by
  unfold cell
  rw [h]

theorem cell_of_lt {s : Slots κ ν} {i : Nat} (hi : i < s.length) : cell s i = s[i] := by
  rw [cell, Nat.mod_eq_of_lt hi, List.getD_eq_getElem _ _ hi]

theorem cell_set {s : Slots κ ν} (hs : 0 < s.length) (i j : Nat) (e : Option (κ × ν)) :
    cell (s.set (i % s.length) e) j = if j % s.length = i % s.length then e else cell s j := by
  have hi : i % s.length < s.length := Nat.mod_lt _ hs
  simp only [cell, List.length_set, List.getD_eq_getElem?_getD, List.getElem?_set]
  by_cases h : i % s.length = j % s.length
  · rw [if_pos h, if_pos h.symm, if_pos hi]
    rfl
  · rw [if_neg h, if_neg (Ne.symm h)]

theorem mem_iff_cell {s : Slots κ ν} {e : κ × ν} :
    some e ∈ s ↔ ∃ i, cell s i = some e := by
  constructor
  · intro h
    obtain ⟨i, hi, he⟩ := List.mem_iff_getElem.mp h
    exact ⟨i, (cell_of_lt hi).trans he⟩
  · rintro ⟨i, hi⟩
    by_cases hlt : i % s.length < s.length
    · rw [cell, List.getD_eq_getElem _ _ hlt] at hi
      exact hi ▸ List.getElem_mem hlt
    · rw [cell, List.getD_eq_default _ _ (not_lt.mp hlt)] at hi
      cases hi

theorem exists_empty {s : Slots κ ν} (h : none ∈ s) : ∃ i < s.length, cell s i = none := by
  obtain ⟨i, hi, he⟩ := List.mem_iff_getElem.mp h
  exact ⟨i, hi, (cell_of_lt hi).trans he⟩

theorem mem_of_cell_eq_none {s : Slots κ ν} (hs : 0 < s.length) {i : Nat}
    (h : cell s i = none) : none ∈ s := by
  have hlt := Nat.mod_lt i hs
  rw [cell, List.getD_eq_getElem _ _ hlt] at h
  exact h ▸ List.getElem_mem hlt

theorem getElem?_mod {s : Slots κ ν} (hs : 0 < s.length) (i : Nat) :
    s[i % s.length]? = some (cell s i) := by
  have hlt := Nat.mod_lt i hs
  rw [cell, List.getD_eq_getElem _ _ hlt, List.getElem?_eq_getElem hlt]

/-- The number of occupied slots. -/
def used (s : Slots κ ν) : Nat :=
  s.countP Option.isSome

theorem used_set {s : Slots κ ν} (hs : 0 < s.length) (i : Nat) (e : Option (κ × ν)) :
    used (s.set (i % s.length) e) + (cell s i).isSome.toNat = used s + e.isSome.toNat := by
  have hlt := Nat.mod_lt i hs
  have hmem : (cell s i).isSome.toNat ≤ used s := by
    cases hc : cell s i with
    | none => exact Nat.zero_le _
    | some f => exact List.countP_pos_iff.mpr ⟨some f, mem_iff_cell.mpr ⟨i, hc⟩, rfl⟩
  have hset := List.countP_set (p := Option.isSome) (l := s) (a := e) hlt
  have hget : s[i % s.length] = cell s i := by
    rw [cell, List.getD_eq_getElem _ _ hlt]
  have hnat : ∀ b : Bool, (if b = true then 1 else 0) = b.toNat := by decide
  rw [hget, hnat, hnat] at hset
  unfold used at hmem ⊢
  rw [hset]
  omega

theorem used_le (s : Slots κ ν) : used s ≤ s.length :=
  List.countP_le_length

theorem mem_set_of_empty {s : Slots κ ν} (hs : 0 < s.length) {q : Nat} (hq : cell s q = none)
    (e f : κ × ν) : some f ∈ s.set (q % s.length) (some e) ↔ f = e ∨ some f ∈ s := by
  simp only [mem_iff_cell, cell_set hs]
  constructor
  · rintro ⟨i, hi⟩
    split at hi
    · cases hi
      exact Or.inl rfl
    · exact Or.inr ⟨i, hi⟩
  · rintro (rfl | ⟨i, hi⟩)
    · exact ⟨q, if_pos rfl⟩
    · refine ⟨i, ?_⟩
      rw [if_neg, hi]
      intro heq
      rw [cell_congr heq, hq] at hi
      cases hi

theorem none_mem_iff {s : Slots κ ν} : none ∈ s ↔ used s < s.length := by
  have hfull : used s = s.length ↔ ∀ e ∈ s, e.isSome = true := List.countP_eq_length
  constructor
  · intro hnone
    refine lt_of_le_of_ne (used_le s) fun h => ?_
    cases hfull.mp h none hnone
  · intro hlt
    by_contra hnone
    refine hlt.ne (hfull.mpr fun e he => ?_)
    cases e with
    | none => exact absurd he hnone
    | some e => rfl

/-! Positions in one turn around the table. -/

/-- Every slot has a position in the turn after `e`. -/
theorem exists_lift {n : Nat} (hn : 0 < n) (e i : Nat) : ∃ j, e ≤ j ∧ j < e + n ∧ j ≡ i [MOD n] := by
  refine ⟨e + (i + n * e - e) % n, by omega, Nat.add_lt_add_left (Nat.mod_lt _ hn) _, ?_⟩
  have hle : e ≤ i + n * e := Nat.le_trans (Nat.le_mul_of_pos_left e hn) (Nat.le_add_left _ _)
  calc e + (i + n * e - e) % n
      ≡ e + (i + n * e - e) [MOD n] := Nat.ModEq.add_left _ (Nat.mod_modEq _ _)
    _ = i + n * e := by omega
    _ ≡ i [MOD n] := by simp [Nat.ModEq]

theorem eq_of_modEq {n e i j : Nat} (hi : e ≤ i) (hi' : i < e + n) (hj : e ≤ j) (hj' : j < e + n)
    (h : i ≡ j [MOD n]) : i = j := by
  have h' : i - e ≡ j - e [MOD n] := by
    apply Nat.ModEq.add_left_cancel' e
    rwa [Nat.add_sub_cancel' hi, Nat.add_sub_cancel' hj]
  have := Nat.ModEq.eq_of_lt_of_lt h' (by omega) (by omega)
  omega

/-! The probes for a key. -/

/-- The probes for `k` from position `h` stop at distance `d`: all slots before
hold other keys, and this one holds `k` or nothing. -/
structure Stops (s : Slots κ ν) (k : κ) (h d : Nat) : Prop where
  lt : d < s.length
  before : ∀ i < d, ∃ e, cell s (h + i) = some e ∧ e.1 ≠ k
  here : ∀ e, cell s (h + d) = some e → e.1 = k

theorem Stops.unique {s : Slots κ ν} {k : κ} {h c d : Nat} (hc : Stops s k h c)
    (hd : Stops s k h d) : c = d := by
  rcases Nat.lt_trichotomy c d with hlt | rfl | hlt
  · obtain ⟨e, he, hne⟩ := hd.before c hlt
    exact absurd (hc.here e he) hne
  · rfl
  · obtain ⟨e, he, hne⟩ := hc.before d hlt
    exact absurd (hd.here e he) hne

/-- The probes for a key that is nowhere stop at the first empty slot. -/
theorem exists_stops_of_not_mem {s : Slots κ ν} {k : κ} (hk : ∀ v, some (k, v) ∉ s)
    (hempty : none ∈ s) (h : Nat) : ∃ d, Stops s k h d ∧ cell s (h + d) = none := by
  classical
  obtain ⟨i, hi, hnone⟩ := exists_empty hempty
  obtain ⟨j, hj, hj', hji⟩ := exists_lift (Nat.zero_lt_of_lt hi) h i
  have hex : ∃ d, cell s (h + d) = none :=
    ⟨j - h, by rw [Nat.add_sub_cancel' hj, cell_congr hji, hnone]⟩
  have hle : Nat.find hex ≤ j - h :=
    Nat.find_min' hex (by rw [Nat.add_sub_cancel' hj, cell_congr hji, hnone])
  refine ⟨Nat.find hex, ⟨by omega, ?_, ?_⟩, Nat.find_spec hex⟩
  · intro i hi
    obtain ⟨e, he⟩ := Option.ne_none_iff_exists'.mp (Nat.find_min hex hi)
    refine ⟨e, he, ?_⟩
    rintro rfl
    exact hk e.2 (mem_iff_cell.mpr ⟨_, he⟩)
  · intro e he
    rw [Nat.find_spec hex] at he
    cases he

/-! Tables every key of which its probes find. -/

/-- Every entry lies on its key's path with no empty slot before it, and no key
is there twice. -/
structure Placed (home : κ → Nat) (s : Slots κ ν) : Prop where
  path : ∀ i e, cell s i = some e → ∃ d < s.length, home e.1 + d ≡ i [MOD s.length] ∧
    ∀ j < d, cell s (home e.1 + j) ≠ none
  unique : ∀ i j e f, cell s i = some e → cell s j = some f → e.1 = f.1 → i ≡ j [MOD s.length]

variable {home : κ → Nat}

theorem placed_replicate (n : Nat) : Placed home (List.replicate n none : Slots κ ν) := by
  have hnone : ∀ i, cell (List.replicate n none : Slots κ ν) i = none := by
    intro i
    by_contra h
    obtain ⟨e, he⟩ := Option.ne_none_iff_exists'.mp h
    have := List.eq_of_mem_replicate (mem_iff_cell.mpr ⟨i, he⟩)
    cases this
  constructor
  · intro i e he
    simp [hnone] at he
  · intro i _ e _ he
    simp [hnone] at he

theorem Placed.eq_of_mem {s : Slots κ ν} (hp : Placed home s) {k : κ} {v w : ν}
    (hv : some (k, v) ∈ s) (hw : some (k, w) ∈ s) : v = w := by
  obtain ⟨i, hi⟩ := mem_iff_cell.mp hv
  obtain ⟨j, hj⟩ := mem_iff_cell.mp hw
  rw [cell_congr (hp.unique i j _ _ hi hj rfl), hj] at hi
  cases hi
  rfl

/-- The probes for a stored key stop at its entry. -/
theorem Placed.stops_of_mem {s : Slots κ ν} (hp : Placed home s) {k : κ} {v : ν}
    (hk : some (k, v) ∈ s) : ∃ d, Stops s k (home k) d ∧ cell s (home k + d) = some (k, v) := by
  obtain ⟨i, hi⟩ := mem_iff_cell.mp hk
  obtain ⟨d, hd, hid, hfull⟩ := hp.path i _ hi
  have hhere : cell s (home k + d) = some (k, v) := (cell_congr hid).trans hi
  refine ⟨d, ⟨hd, ?_, ?_⟩, hhere⟩
  · intro j hj
    obtain ⟨e, he⟩ := Option.ne_none_iff_exists'.mp (hfull j hj)
    refine ⟨e, he, fun heq => ?_⟩
    have := Nat.ModEq.add_left_cancel' _ (hp.unique _ _ _ _ he hhere heq)
    have := Nat.ModEq.eq_of_lt_of_lt this (by omega) hd
    omega
  · intro e he
    rw [hhere] at he
    cases he
    rfl

section Store
variable {s : Slots κ ν} {k : κ} {d : Nat}

/-- After a store where the probes stop, the table holds the new pair and the
entries of all other keys. -/
theorem Placed.mem_store (hp : Placed home s) (hd : Stops s k (home k) d) (v : ν) (e : κ × ν) :
    some e ∈ s.set ((home k + d) % s.length) (some (k, v)) ↔
      e = (k, v) ∨ e.1 ≠ k ∧ some e ∈ s := by
  have hs : 0 < s.length := Nat.zero_lt_of_lt hd.lt
  simp only [mem_iff_cell, cell_set hs]
  constructor
  · rintro ⟨i, hi⟩
    split at hi
    · cases hi
      exact Or.inl rfl
    · rename_i hne
      refine Or.inr ⟨?_, i, hi⟩
      rintro rfl
      obtain ⟨c, hc, hcell⟩ := hp.stops_of_mem (v := e.2) (mem_iff_cell.mpr ⟨i, hi⟩)
      cases hc.unique hd
      exact hne (hp.unique _ _ _ _ hi hcell rfl)
  · rintro (rfl | ⟨hne, i, hi⟩)
    · exact ⟨home k + d, if_pos rfl⟩
    · refine ⟨i, ?_⟩
      rw [if_neg, hi]
      intro heq
      rw [cell_congr heq] at hi
      exact hne (hd.here e hi)

theorem Placed.store (hp : Placed home s) (hd : Stops s k (home k) d) (v : ν) :
    Placed home (s.set ((home k + d) % s.length) (some (k, v))) := by
  have hs : 0 < s.length := Nat.zero_lt_of_lt hd.lt
  have hkeep : ∀ j, cell s j ≠ none →
      cell (s.set ((home k + d) % s.length) (some (k, v))) j ≠ none := by
    intro j hj
    rw [cell_set hs]
    split
    · exact Option.some_ne_none _
    · exact hj
  -- an entry of the new table under the stored key is the stored one
  have hkey : ∀ i e, cell (s.set ((home k + d) % s.length) (some (k, v))) i = some e →
      e.1 = k → i ≡ home k + d [MOD s.length] := by
    intro i e he hek
    rw [cell_set hs] at he
    split at he
    · rename_i h
      exact h
    · subst hek
      obtain ⟨c, hc, hcell⟩ := hp.stops_of_mem (v := e.2) (mem_iff_cell.mpr ⟨i, he⟩)
      cases hc.unique hd
      exact hp.unique _ _ _ _ he hcell rfl
  constructor
  · intro i e he
    rw [List.length_set]
    by_cases hek : e.1 = k
    · refine ⟨d, hd.lt, hek ▸ (hkey i e he hek).symm, ?_⟩
      intro j hj
      obtain ⟨f, hf, -⟩ := hd.before j hj
      rw [hek]
      exact hkeep _ (by simp [hf])
    · rw [cell_set hs] at he
      split at he
      · cases he
        exact absurd rfl hek
      · obtain ⟨c, hc, hci, hfull⟩ := hp.path i e he
        exact ⟨c, hc, hci, fun j hj => hkeep _ (hfull j hj)⟩
  · intro i j e f he hf hef
    rw [List.length_set]
    by_cases hek : e.1 = k
    · exact (hkey i e he hek).trans (hkey j f hf (hef ▸ hek)).symm
    · have hold : ∀ i e, e.1 ≠ k →
          cell (s.set ((home k + d) % s.length) (some (k, v))) i = some e → cell s i = some e := by
        intro i e hek he
        rw [cell_set hs] at he
        split at he
        · cases he
          exact absurd rfl hek
        · exact he
      exact hp.unique i j e f (hold i e hek he) (hold j f (hef ▸ hek) hf) hef

end Store

/-- The table without the entry of one key. -/
theorem mem_clear {s : Slots κ ν} {p : Nat} {k : κ} {v : ν} (hs : 0 < s.length)
    (hunique : ∀ i e, cell s i = some e → e.1 = k → i ≡ p [MOD s.length])
    (hk : cell s p = some (k, v)) (f : κ × ν) :
    some f ∈ s.set (p % s.length) none ↔ f.1 ≠ k ∧ some f ∈ s := by
  simp only [mem_iff_cell, cell_set hs]
  constructor
  · rintro ⟨i, hi⟩
    split at hi
    · cases hi
    · rename_i hne
      exact ⟨fun hfk => hne (hunique i f hi hfk), i, hi⟩
  · rintro ⟨hfk, i, hi⟩
    refine ⟨i, ?_⟩
    rw [if_neg, hi]
    intro heq
    rw [cell_congr heq, hk] at hi
    cases hi
    exact hfk rfl

/-- A turn in which a full slot is followed by full slots up to the turn's end. -/
theorem exists_turn {s : Slots κ ν} {i : Nat} (hi : cell s i ≠ none) (hempty : none ∈ s) :
    ∃ e p, p % s.length = i % s.length ∧ cell s e = none ∧ e < p ∧ p < e + s.length ∧
      ∀ j, p ≤ j → j < e + s.length → cell s j ≠ none := by
  classical
  obtain ⟨j, hj, hnone⟩ := exists_empty hempty
  obtain ⟨q, hq, hq', hqj⟩ := exists_lift (Nat.zero_lt_of_lt hj) i j
  have hq : cell s (i + (q - i)) = none := by
    rw [Nat.add_sub_cancel' hq, cell_congr hqj, hnone]
  have hex : ∃ r, cell s (i + r) = none := ⟨q - i, hq⟩
  have hle := Nat.find_min' hex hq
  have hpos : 0 < Nat.find hex := by
    rw [Nat.find_pos]
    exact hi
  refine ⟨i + Nat.find hex, i + s.length, Nat.add_mod_right _ _, Nat.find_spec hex, by omega,
    by omega, ?_⟩
  intro j hj hj'
  have hmin := Nat.find_min hex (m := j - s.length - i) (by omega)
  rw [cell_congr (show j ≡ i + (j - s.length - i) [MOD s.length] from ?_)]
  · exact hmin
  · rw [show i + (j - s.length - i) = j - s.length by omega]
    exact (Nat.modEq_iff_dvd' (Nat.sub_le _ _)).mpr ⟨1, by omega⟩ |>.symm

/-! Emptying a slot. A turn starts at an empty slot `e`, so that no path wraps
within it; the entries from `p` to the turn's end have yet to be put back. -/

structure Repairing (home : κ → Nat) (s : Slots κ ν) (e p : Nat) : Prop where
  start : cell s e = none
  lower : e < p
  upper : p ≤ e + s.length
  full : ∀ i, p ≤ i → i < e + s.length → cell s i ≠ none
  path : ∀ i f, e < i → i < e + s.length → cell s i = some f →
    ∃ h ≤ i, e < h ∧ h ≡ home f.1 [MOD s.length] ∧ (i < p → ∀ j, h ≤ j → j < i → cell s j ≠ none)
  unique : ∀ i j f g, cell s i = some f → cell s j = some g → f.1 = g.1 → i ≡ j [MOD s.length]

/-- Within the turn, the path of an entry of a placed table does not wrap. -/
theorem Placed.path_in_turn {s : Slots κ ν} (hp : Placed home s) {e : Nat} (he : cell s e = none)
    {i : Nat} {f : κ × ν} (hi : e < i) (hi' : i < e + s.length) (hf : cell s i = some f) :
    ∃ h ≤ i, e < h ∧ h ≡ home f.1 [MOD s.length] ∧ ∀ j, h ≤ j → j < i → cell s j ≠ none := by
  obtain ⟨d, hd, hdi, hfull⟩ := hp.path i f hf
  have hlift : ∀ j ≤ d, home f.1 + j + s.length ≡ i + s.length - d + j [MOD s.length] := by
    intro j hj
    apply Nat.ModEq.add_left_cancel' (d - j)
    calc d - j + (home f.1 + j + s.length)
        = home f.1 + d + s.length := by omega
      _ ≡ i + s.length [MOD s.length] := hdi.add_right _
      _ = d - j + (i + s.length - d + j) := by omega
  have hcell : ∀ j ≤ d, cell s (i + s.length - d + j) = cell s (home f.1 + j) := by
    intro j hj
    rw [← cell_congr (hlift j hj)]
    exact cell_congr (by simp [Nat.ModEq])
  -- the empty slot would lie on a path that starts at or before it
  have hlow : e + d < i := by
    by_contra hle
    have hj : e + s.length - (i + s.length - d) < d := by omega
    have := hfull _ hj
    rw [← hcell _ hj.le, Nat.add_sub_cancel' (by omega)] at this
    exact this ((cell_congr (by simp [Nat.ModEq])).trans he)
  refine ⟨i - d, by omega, by omega, ?_, ?_⟩
  · have := hlift 0 (Nat.zero_le _)
    rw [show i + s.length - d + 0 = i - d + s.length by omega, Nat.add_zero] at this
    exact (Nat.ModEq.add_right_cancel' _ this).symm
  · intro j hj hji
    have hjd : j - (i - d) < d := by omega
    have := hfull _ hjd
    rw [← hcell _ hjd.le, show i + s.length - d + (j - (i - d)) = j + s.length by omega] at this
    rwa [cell_congr (show j ≡ j + s.length [MOD s.length] by simp [Nat.ModEq])]

/-- A slot is emptied: what comes after it in its turn has to be put back. -/
theorem Placed.repairing_of_clear {s : Slots κ ν} (hp : Placed home s) {e p : Nat}
    (he : cell s e = none) (hep : e < p) (hpe : p < e + s.length)
    (hfull : ∀ i, p ≤ i → i < e + s.length → cell s i ≠ none) :
    Repairing home (s.set (p % s.length) none) e (p + 1) := by
  have hs : 0 < s.length := by omega
  have hne : ∀ {i}, e ≤ i → i < e + s.length → i ≠ p → ¬ i ≡ p [MOD s.length] :=
    fun hi hi' h hmod => h (eq_of_modEq hi hi' hep.le hpe hmod)
  have hkeep : ∀ {i}, e ≤ i → i < e + s.length → i ≠ p →
      cell (s.set (p % s.length) none) i = cell s i := by
    intro i hi hi' h
    rw [cell_set hs]
    exact if_neg (hne hi hi' h)
  have hold : ∀ {i f}, cell (s.set (p % s.length) none) i = some f →
      ¬ i ≡ p [MOD s.length] ∧ cell s i = some f := by
    intro i f hf
    rw [cell_set hs] at hf
    split at hf
    · cases hf
    · rename_i h
      exact ⟨h, hf⟩
  constructor
  · rw [hkeep (le_refl e) (by omega) (by omega), he]
  · omega
  · rw [List.length_set]
    omega
  · intro i hi hi'
    rw [List.length_set] at hi'
    rw [hkeep (by omega) hi' (by omega)]
    exact hfull i (by omega) hi'
  · intro i f hi hi' hf
    rw [List.length_set] at hi' ⊢
    have hip : i ≠ p := by
      rintro rfl
      exact (hold hf).1 rfl
    obtain ⟨h, hle, heh, hh, hpath⟩ := hp.path_in_turn he hi hi' (hold hf).2
    refine ⟨h, hle, heh, hh, ?_⟩
    intro hlt j hj hji
    rw [hkeep (by omega) (by omega) (by omega)]
    exact hpath j hj hji
  · intro i j f g hf hg hfg
    rw [List.length_set]
    exact hp.unique i j f g (hold hf).2 (hold hg).2 hfg

/-- Once the turn is done, every entry is where its probes find it. -/
theorem Repairing.placed {s : Slots κ ν} {e : Nat} (hr : Repairing home s e (e + s.length)) :
    Placed home s := by
  have hs : 0 < s.length := by
    have := hr.lower
    omega
  constructor
  · intro i f hf
    obtain ⟨j, hj, hj', hji⟩ := exists_lift hs e i
    rw [← cell_congr hji] at hf
    have hne : j ≠ e := by
      rintro rfl
      rw [hr.start] at hf
      cases hf
    obtain ⟨h, hle, heh, hh, hpath⟩ := hr.path j f (by omega) hj' hf
    refine ⟨j - h, by omega, ?_, ?_⟩
    · calc home f.1 + (j - h) ≡ h + (j - h) [MOD s.length] := hh.symm.add_right _
        _ = j := by omega
        _ ≡ i [MOD s.length] := hji
    · intro c hc
      rw [cell_congr (hh.symm.add_right c)]
      exact hpath hj' (h + c) (by omega) (by omega)
  · exact hr.unique

section Step
variable {s : Slots κ ν} {e p : Nat} {k : κ} {v : ν}

theorem Repairing.length_pos (hr : Repairing home s e p) : 0 < s.length := by
  have hl := hr.lower
  have hu := hr.upper
  omega

/-- The entry at `p`, taken out, is put back at or before `p`. -/
theorem Repairing.exists_stops (hr : Repairing home s e p) (hp : p < e + s.length)
    (hk : cell s p = some (k, v)) :
    ∃ d, Stops (s.set (p % s.length) none) k (home k) d ∧
      cell (s.set (p % s.length) none) (home k + d) = none ∧
      ∃ q, e < q ∧ q ≤ p ∧ q ≡ home k + d [MOD s.length] ∧
        ∃ h ≤ q, e < h ∧ h ≡ home k [MOD s.length] ∧
          ∀ j, h ≤ j → j < q → j ≠ p ∧ cell s j ≠ none := by
  classical
  have hs := hr.length_pos
  obtain ⟨h, hhp, heh, hh, -⟩ := hr.path p _ hr.lower hp hk
  let t := s.set (p % s.length) none
  have ht : ∀ i, cell t i = if i % s.length = p % s.length then none else cell s i :=
    fun i => cell_set hs p i none
  have hex : ∃ d, cell t (h + d) = none :=
    ⟨p - h, by rw [ht, Nat.add_sub_cancel' hhp, if_pos rfl]⟩
  have hle : Nat.find hex ≤ p - h :=
    Nat.find_min' hex (by rw [ht, Nat.add_sub_cancel' hhp, if_pos rfl])
  have hlen : t.length = s.length := List.length_set
  have hhome : ∀ i, cell t (home k + i) = cell t (h + i) :=
    fun i => cell_congr (hlen ▸ hh.symm.add_right i)
  have hother : ∀ i f, cell t i = some f → f.1 ≠ k := by
    intro i f hf hfk
    rw [ht] at hf
    split at hf
    · cases hf
    · rename_i hne
      exact hne (hr.unique i p f _ hf hk hfk)
  refine ⟨Nat.find hex, ⟨?_, ?_, ?_⟩, ?_, h + Nat.find hex, by omega, by omega, ?_, h, by omega,
    heh, hh, ?_⟩
  · change _ < t.length
    omega
  · intro i hi
    obtain ⟨f, hf⟩ := Option.ne_none_iff_exists'.mp (Nat.find_min hex hi)
    exact ⟨f, (hhome i).trans hf, hother _ f hf⟩
  · intro f hf
    rw [hhome, Nat.find_spec hex] at hf
    cases hf
  · rw [hhome, Nat.find_spec hex]
  · exact hh.add_right _
  · intro j hj hjq
    have hmin := Nat.find_min hex (m := j - h) (by omega)
    rw [ht, Nat.add_sub_cancel' hj] at hmin
    split at hmin
    · exact absurd rfl hmin
    · rename_i hne
      exact ⟨fun hjp => hne (hjp ▸ rfl), hmin⟩

/-- Putting the entry at `p` back loses nothing and adds nothing. -/
theorem Repairing.mem_step (hr : Repairing home s e p) (hk : cell s p = some (k, v)) {q : Nat}
    (hq : cell (s.set (p % s.length) none) q = none) (f : κ × ν) :
    some f ∈ (s.set (p % s.length) none).set (q % s.length) (some (k, v)) ↔ some f ∈ s := by
  have hmem := mem_set_of_empty (s := s.set (p % s.length) none)
    (by rw [List.length_set]; exact hr.length_pos) hq (k, v) f
  rw [List.length_set] at hmem
  rw [hmem, mem_clear hr.length_pos (fun i e he hek => hr.unique i p e _ he hk hek) hk]
  constructor
  · rintro (rfl | ⟨-, hf⟩)
    · exact mem_iff_cell.mpr ⟨p, hk⟩
    · exact hf
  · intro hf
    by_cases hfk : f.1 = k
    · obtain ⟨i, hi⟩ := mem_iff_cell.mp hf
      rw [cell_congr (hr.unique i p f _ hi hk hfk), hk] at hi
      cases hi
      exact Or.inl rfl
    · exact Or.inr ⟨hfk, hf⟩

/-- Putting the entry at `p` back moves the repair one slot on. -/
theorem Repairing.step (hr : Repairing home s e p) (hp : p < e + s.length)
    (hk : cell s p = some (k, v)) {d : Nat} (hd : Stops (s.set (p % s.length) none) k (home k) d) :
    Repairing home ((s.set (p % s.length) none).set ((home k + d) % s.length) (some (k, v)))
      e (p + 1) := by
  have hs := hr.length_pos
  obtain ⟨c, hc, -, q, heq, hqp, hq, h, hhq, heh, hh, hpath⟩ := hr.exists_stops hp hk
  cases hc.unique hd
  rw [show (home k + d) % s.length = q % s.length from hq.symm]
  have hcell : ∀ {i}, e ≤ i → i < e + s.length →
      cell ((s.set (p % s.length) none).set (q % s.length) (some (k, v))) i =
        if i = q then some (k, v) else if i = p then none else cell s i := by
    intro i hi hi'
    have h1 := cell_set (s := s.set (p % s.length) none) (by rwa [List.length_set]) q i (some (k, v))
    rw [List.length_set, cell_set hs] at h1
    rw [h1]
    have hiff : ∀ {r}, e < r → r < e + s.length → (i % s.length = r % s.length ↔ i = r) :=
      fun hr hr' => ⟨fun h => eq_of_modEq hi hi' hr.le hr' h, fun h => h ▸ rfl⟩
    simp only [hiff heq (by omega), hiff hr.lower hp]
  have hold : ∀ {i f}, e ≤ i → i < e + s.length → i ≠ q →
      cell ((s.set (p % s.length) none).set (q % s.length) (some (k, v))) i = some f →
      i ≠ p ∧ cell s i = some f := by
    intro i f hi hi' hiq hf
    rw [hcell hi hi', if_neg hiq] at hf
    split at hf
    · cases hf
    · rename_i hip
      exact ⟨hip, hf⟩
  constructor
  · rw [hcell (le_refl e) (by omega), if_neg (by omega), if_neg (by have := hr.lower; omega), hr.start]
  · have := hr.lower
    omega
  · simp only [List.length_set]
    omega
  · intro i hi hi'
    simp only [List.length_set] at hi'
    rw [hcell (by omega) hi', if_neg (by omega), if_neg (by omega)]
    exact hr.full i (by omega) hi'
  · intro i f hi hi' hf
    simp only [List.length_set] at hi' ⊢
    by_cases hiq : i = q
    · subst hiq
      rw [hcell (by omega) (by omega), if_pos rfl] at hf
      cases hf
      refine ⟨h, hhq, heh, hh, fun _ j hj hji => ?_⟩
      rw [hcell (by omega) (by omega), if_neg (by omega), if_neg (hpath j hj hji).1]
      exact (hpath j hj hji).2
    · obtain ⟨hip, hf⟩ := hold hi.le hi' hiq hf
      obtain ⟨g, hgi, heg, hg, hgpath⟩ := hr.path i f hi hi' hf
      refine ⟨g, hgi, heg, hg, fun hlt j hj hji => ?_⟩
      rw [hcell (by omega) (by omega)]
      split
      · exact Option.some_ne_none _
      · rw [if_neg (by omega)]
        exact hgpath (by omega) j hj hji
  · intro i j f g hf hg hfg
    simp only [List.length_set]
    obtain ⟨a, ha, ha', hai⟩ := exists_lift hs e i
    obtain ⟨b, hb, hb', hbj⟩ := exists_lift hs e j
    have hlen : s.length = ((s.set (p % s.length) none).set (q % s.length) (some (k, v))).length := by
      simp only [List.length_set]
    rw [← cell_congr (hlen ▸ hai)] at hf
    rw [← cell_congr (hlen ▸ hbj)] at hg
    suffices a ≡ b [MOD s.length] from hai.symm.trans (this.trans hbj)
    by_cases haq : a = q <;> by_cases hbq : b = q
    · rw [haq, hbq]
    · subst haq
      rw [hcell ha ha', if_pos rfl] at hf
      cases hf
      obtain ⟨hbp, hg⟩ := hold hb hb' hbq hg
      exact absurd (eq_of_modEq hb hb' hr.lower.le hp (hr.unique b p g _ hg hk hfg.symm)) hbp
    · subst hbq
      rw [hcell hb hb', if_pos rfl] at hg
      cases hg
      obtain ⟨hap, hf⟩ := hold ha ha' haq hf
      exact absurd (eq_of_modEq ha ha' hr.lower.le hp (hr.unique a p f _ hf hk hfg)) hap
    · exact hr.unique a b f g (hold ha ha' haq hf).2 (hold hb hb' hbq hg).2 hfg

end Step

end Aer.Lib.Probing
