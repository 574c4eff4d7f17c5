import Aer.Machine.Fused
import Aer.Machine.ScopeStore
import Aer.Machine.Constants

set_option linter.all false

/-! The address caches over assignments and scopes: a cache that is filled goes on holding what its
name is looked up to, because an assignment makes a new variable only of a name that has none, and
a scope that is left held nothing a cache could hold. -/
namespace Aer.Data.HashTable

open Aer.Lib

variable {π : Type} {t : HashTable π} {key k : Bytes}

/-- A put of a new key leaves the others alone, also when the table is full. -/
theorem WellFormed.put_new (h : WellFormed t) (hnew : t.get key = none) (v : π) :
    WellFormed (t.put key v) ∧ (cString k ≠ cString key → (t.put key v).get k = t.get k) := by
  have hkey (w : π) : some (cString key, w) ∉ t.buckets := fun hw => by
    rw [← h.get_iff, hnew] at hw
    cases hw
  by_cases hc : t.count < maxCapacity
  · have hst := h.put hc key v
    refine ⟨hst.wellFormed, fun hne => Option.ext fun w => ?_⟩
    simp [hst.wellFormed.get_iff, h.get_iff, hst.mem, hne]
  · have hb : t.buckets ≠ [] := fun hb => by
      have hcount := h.count
      simp only [hb] at hcount
      exact hc (hcount ▸ (by decide : 0 < maxCapacity))
    rw [put_full h hb (not_lt.mp hc) hkey]
    exact ⟨h, fun _ => rfl⟩

end Aer.Data.HashTable

namespace Aer.Machine

open Aer.Data Aer.Memory Aer.Lib.Interaction

namespace State

variable {s t : State} {n m i : Nat}

/-- What the lookup of a name rests on. -/
structure Tidy (s : State) : Prop where
  names : NamesLive s
  interned : s.Interned
  depth : 1 ≤ s.vm.scopeDepth
  tables : ∀ i < s.vm.scopeDepth, (s.vm.scopes i).map.WellFormed
  overflow : ∀ i < s.vm.scopeDepth, (s.vm.scopes i).overflow = false → (s.vm.scopes i).map = .empty

/-- The filled caches hold global variables. -/
def CachesGlobal (s : State) : Prop :=
  ∀ (c : Nat) (a : Addr), s.chunk.addrCache[c]? = some (some a) → ∃ j, a = .slot 0 j

/-! The scopes a name is looked up in. -/

theorem mem_scopeChain_lt (hd : 1 ≤ s.vm.scopeDepth) (hi : i ∈ s.vm.scopeChain) : i < s.vm.scopeDepth := by
  unfold Vm.scopeChain at hi
  rcases List.mem_append.mp hi with hi | hi
  · have := List.mem_range'_1.mp (List.mem_reverse.mp hi)
    omega
  · split at hi
    · cases hi
    · obtain rfl := List.mem_singleton.mp hi
      exact hd

/-- The chain of one scope more. -/
theorem scopeChain_succ (hfloor : t.vm.scopeFloor = s.vm.scopeFloor)
    (hdepth : t.vm.scopeDepth = s.vm.scopeDepth + 1) :
    t.vm.scopeChain =
      if s.vm.scopeFloor ≤ s.vm.scopeDepth then s.vm.scopeDepth :: s.vm.scopeChain else s.vm.scopeChain := by
  unfold Vm.scopeChain
  rw [hfloor, hdepth]
  by_cases hle : s.vm.scopeFloor ≤ s.vm.scopeDepth
  · have hlast : s.vm.scopeFloor + (s.vm.scopeDepth - s.vm.scopeFloor) = s.vm.scopeDepth := by omega
    rw [if_pos hle, Nat.succ_sub hle, List.range'_1_concat, List.reverse_append, hlast]
    rfl
  · have hzero : s.vm.scopeDepth + 1 - s.vm.scopeFloor = s.vm.scopeDepth - s.vm.scopeFloor := by omega
    rw [if_neg hle, hzero]

theorem findSome?_congr {α β : Type} {f g : α → Option β} {l : List α} (h : ∀ a ∈ l, f a = g a) :
    l.findSome? f = l.findSome? g := by
  induction l with
  | nil => rfl
  | cons a l ih =>
    rw [List.findSome?_cons, List.findSome?_cons, h a List.mem_cons_self,
      ih fun b hb => h b (List.mem_cons_of_mem a hb)]

/-- A name found in the same place has the same address, when the scopes on the chain keep theirs. -/
theorem vmScopeGet_of_locate (hlocate : t.locate n = s.locate n)
    (haddr : ∀ i ∈ s.vm.scopeChain, ∀ p, s.placeIn n i = some p → t.placeAddr p = s.placeAddr p) :
    t.vmScopeGet n = s.vmScopeGet n := by
  unfold vmScopeGet
  rw [hlocate]
  cases hp : s.locate n with
  | none => rfl
  | some p =>
    obtain ⟨i, hi, hpi⟩ := List.exists_of_findSome?_eq_some hp
    exact congrArg some (haddr i hi p hpi)

/-- The same scope holds the same names at the same addresses. -/
theorem placeIn_of_scope (hscope : t.vm.scopes i = s.vm.scopes i) (htext : t.nameText = s.nameText) :
    t.placeIn n i = s.placeIn n i ∧ ∀ p, s.placeIn n i = some p → t.placeAddr p = s.placeAddr p := by
  refine ⟨?_, fun p hp => ?_⟩
  · unfold placeIn
    rw [hscope, htext]
  · cases p with
    | entry k e => rfl
    | slot k j =>
      obtain ⟨rfl, -⟩ := placeIn_slot hp
      simp only [placeAddr, hscope]

/-! A scope more or less. -/

/-- An inner scope without the name makes no difference. -/
theorem vmScopeGet_deeper (hd : 1 ≤ s.vm.scopeDepth) (hfloor : t.vm.scopeFloor = s.vm.scopeFloor)
    (hdepth : t.vm.scopeDepth = s.vm.scopeDepth + 1)
    (hscopes : ∀ i < s.vm.scopeDepth, t.vm.scopes i = s.vm.scopes i) (htext : t.nameText = s.nameText)
    (hnone : s.vm.scopeFloor ≤ s.vm.scopeDepth → t.placeIn n s.vm.scopeDepth = none) :
    t.vmScopeGet n = s.vmScopeGet n := by
  have hkept {i : Nat} (hi : i ∈ s.vm.scopeChain) :
      t.placeIn n i = s.placeIn n i ∧ ∀ p, s.placeIn n i = some p → t.placeAddr p = s.placeAddr p :=
    placeIn_of_scope (hscopes i (mem_scopeChain_lt hd hi)) htext
  have hchain : s.vm.scopeChain.findSome? (t.placeIn n) = s.locate n :=
    findSome?_congr fun i hi => (hkept hi).1
  refine vmScopeGet_of_locate ?_ fun i hi => (hkept hi).2
  change t.vm.scopeChain.findSome? (t.placeIn n) = s.locate n
  rw [scopeChain_succ hfloor hdepth]
  split
  · next hle => rw [List.findSome?_cons, hnone hle, hchain]
  · exact hchain

theorem vmScopeGet_pushScope (hd : 1 ≤ s.vm.scopeDepth) (ht : s.pushScope = .done () t) (n : Nat) :
    t.vmScopeGet n = s.vmScopeGet n := by
  unfold pushScope at ht
  split at ht
  · cases ht
    refine vmScopeGet_deeper hd rfl rfl (fun i hi => Function.update_of_ne hi.ne _ _) rfl fun _ => ?_
    simp [placeIn, Vm.setScope, AerScope.findSlot]
  · cases ht

theorem popOneScope_scopes (hi : i ≠ s.vm.scopeDepth - 1) : s.popOneScope.vm.scopes i = s.vm.scopes i :=
  freeScope_scopes _ hi

/-- The innermost scope, if it is not the global one, holds no global variable. -/
theorem vmScopeGet_popOneScope (hd : 2 ≤ s.vm.scopeDepth) {j : Nat} (hg : s.vmScopeGet n = some (.slot 0 j)) :
    s.popOneScope.vmScopeGet n = some (.slot 0 j) := by
  obtain ⟨hdepth, hcall, hstack, -⟩ := popScopes_vm 1 s
  have hdepth : s.popOneScope.vm.scopeDepth = s.vm.scopeDepth - 1 := hdepth
  have hfloor : s.vm.scopeFloor = s.popOneScope.vm.scopeFloor := by
    unfold Vm.scopeFloor
    rw [show s.popOneScope.vm.callDepth = s.vm.callDepth from hcall,
      show s.popOneScope.vm.callStack = s.vm.callStack from hstack]
  have hsucc : s.vm.scopeDepth = s.popOneScope.vm.scopeDepth + 1 := by omega
  rw [← hg]
  symm
  refine vmScopeGet_deeper (by omega) hfloor hsucc (fun i hi => ?_) ?_ fun hle => ?_
  · have hne : i ≠ s.vm.scopeDepth - 1 := by omega
    exact (popOneScope_scopes hne).symm
  · exact (quiet_popScopes 1 s).toSameText.nameText.symm
  · by_contra hsome
    obtain ⟨p, hp⟩ := Option.ne_none_iff_exists'.mp hsome
    have hlocate : s.locate n = some p := by
      change s.vm.scopeChain.findSome? (s.placeIn n) = some p
      rw [scopeChain_succ hfloor hsucc, if_pos hle, List.findSome?_cons, hp]
    have haddr : s.placeAddr p = .slot 0 j := by simpa [vmScopeGet, hlocate] using hg
    obtain rfl := eq_of_placeAddr haddr
    have := (placeIn_slot hp).1
    omega

namespace Tidy

theorem of_text (h : s.Tidy) (ht : SameText s t) (hpools : t.heap.PoolsWf)
    (hdepth : 1 ≤ t.vm.scopeDepth) (htables : ∀ i < t.vm.scopeDepth, (t.vm.scopes i).map.WellFormed)
    (hoverflow : ∀ i < t.vm.scopeDepth, (t.vm.scopes i).overflow = false → (t.vm.scopes i).map = .empty) :
    t.Tidy where
  names := ⟨hpools, fun c hc => by
    rw [ht.strings]
    exact h.names.live c (ht.chunk ▸ hc)⟩
  interned := ht.interned h.interned
  depth := hdepth
  tables := htables
  overflow := hoverflow

theorem pushScope (h : s.Tidy) (ht : s.pushScope = .done () t) : t.Tidy := by
  unfold State.pushScope at ht
  split at ht
  · cases ht
    refine h.of_text ⟨rfl, rfl⟩ h.names.pools (Nat.succ_pos _) (fun i hi => ?_) fun i hi => ?_
    · by_cases hlast : i = s.vm.scopeDepth
      · subst hlast
        simpa [Vm.setScope] using HashTable.WellFormed.empty
      · have hlt : i < s.vm.scopeDepth := by
          have : i < s.vm.scopeDepth + 1 := hi
          omega
        simpa [Vm.setScope, hlast] using h.tables i hlt
    · by_cases hlast : i = s.vm.scopeDepth
      · subst hlast
        simp [Vm.setScope]
      · have hlt : i < s.vm.scopeDepth := by
          have : i < s.vm.scopeDepth + 1 := hi
          omega
        simpa [Vm.setScope, hlast] using h.overflow i hlt
  · cases ht

theorem popOneScope (h : s.Tidy) (hd : 2 ≤ s.vm.scopeDepth) : s.popOneScope.Tidy := by
  have hdepth : s.popOneScope.vm.scopeDepth = s.vm.scopeDepth - 1 := (popScopes_vm 1 s).1
  have hscope {i : Nat} (hi : i < s.popOneScope.vm.scopeDepth) : s.popOneScope.vm.scopes i = s.vm.scopes i :=
    popOneScope_scopes (by omega)
  refine h.of_text (quiet_popScopes 1 s).toSameText (((Keeps.popScopes 1 s).heap h.names.pools).wf h.names.pools)
    (by omega) (fun i hi => ?_) fun i hi => ?_
  · rw [hscope hi]
    exact h.tables i (by omega)
  · rw [hscope hi]
    exact h.overflow i (by omega)

end Tidy

/-! Assignments. -/

theorem vmScopeGet_writeAddr (a : Addr) (v : AerVal) (n : Nat) :
    (s.writeAddr a v).vmScopeGet n = s.vmScopeGet n := by
  have hsame := samePlaces_writeAddr s a v
  have hvm : (s.writeAddr a v).vm.scopeChain = s.vm.scopeChain := by cases a <;> rfl
  refine vmScopeGet_of_locate ?_ fun i _ p _ => placeAddr_writeAddr a v p
  unfold locate
  rw [hvm, funext (hsame.placeIn n)]

theorem Tidy.writeAddr (h : s.Tidy) (a : Addr) (v : AerVal) : (s.writeAddr a v).Tidy := by
  have hsame := samePlaces_writeAddr s a v
  refine h.of_text (quiet_writeAddr s a v).toSameText (((Keeps.writeAddr s a v).heap h.names.pools).wf h.names.pools)
    (hsame.depth ▸ h.depth) (fun i hi => ?_) fun i hi => ?_
  · rw [hsame.map]
    exact h.tables i (hsame.depth ▸ hi)
  · rw [hsame.map, hsame.overflow]
    exact h.overflow i (hsame.depth ▸ hi)

/-- What a definition in the innermost scope comes to. -/
theorem Tidy.define_cases (h : s.Tidy) (n : Nat) (v : AerVal) :
    (∃ a, s.vmScopeDefine n v = s.writeAddr a v) ∨
    (s.vm.scopes (s.vm.scopeDepth - 1)).findSlot n = none ∧
      (s.vmScopeDefine n v = s.addSlot (s.vm.scopeDepth - 1) ⟨n, v, none⟩ ∨
        (s.vm.scopes (s.vm.scopeDepth - 1)).map.get (s.nameText n) = none ∧
          s.vmScopeDefine n v = s.addEntry (s.vm.scopeDepth - 1) n v) := by
  have hdepth := h.depth
  unfold vmScopeDefine
  dsimp only
  cases hfind : (s.vm.scopes (s.vm.scopeDepth - 1)).findSlot n with
  | some j => exact .inl ⟨_, rfl⟩
  | none =>
    dsimp only
    split
    · exact .inr ⟨rfl, .inl rfl⟩
    · cases hget : (s.vm.scopes (s.vm.scopeDepth - 1)).map.get (s.nameText n) with
      | none => exact .inr ⟨rfl, .inr ⟨rfl, rfl⟩⟩
      | some e =>
        have hov : (s.vm.scopes (s.vm.scopeDepth - 1)).overflow = true := by
          by_contra hov
          rw [h.overflow _ (by omega) (Bool.eq_false_iff.mpr hov)] at hget
          cases hget
        have hsame : { s.vm.scopes (s.vm.scopeDepth - 1) with overflow := true } =
            s.vm.scopes (s.vm.scopeDepth - 1) := by rw [← hov]
        refine .inl ⟨.box (.spilled e), ?_⟩
        simp only [hsame, Vm.setScope, Function.update_eq_self]

section Define
variable (h : s.Tidy) (hn : s.IsName n)
include h

/-- The table of the innermost scope, once a new name has been put into it. -/
theorem Tidy.table (hget : (s.vm.scopes (s.vm.scopeDepth - 1)).map.get (s.nameText n) = none) (e : Nat) :
    ((s.vm.scopes (s.vm.scopeDepth - 1)).map.put (s.nameText n) e).WellFormed ∧
      ∀ m, s.nameText m ≠ s.nameText n →
        ((s.vm.scopes (s.vm.scopeDepth - 1)).map.put (s.nameText n) e).get (s.nameText m) =
          (s.vm.scopes (s.vm.scopeDepth - 1)).map.get (s.nameText m) := by
  have hdepth := h.depth
  have hput (k : Bytes) := HashTable.WellFormed.put_new (k := k) (h.tables _ (by omega)) hget e
  refine ⟨(hput []).1, fun m hm => (hput _).2 ?_⟩
  rw [s.nameText_cString, s.nameText_cString]
  exact hm

/-- A definition leaves the other names alone. -/
theorem Tidy.vmScopeGet_define (hn : s.IsName n) (v : AerVal) (hm : s.IsName m) (hmn : m ≠ n) :
    (s.vmScopeDefine n v).vmScopeGet m = s.vmScopeGet m := by
  have hdepth := h.depth
  obtain ⟨a, ha⟩ | ⟨hfind, hadd | ⟨hget, hadd⟩⟩ := h.define_cases n v
  · rw [ha, vmScopeGet_writeAddr]
  · rw [hadd]
    refine vmScopeGet_of_locate (findSome?_congr fun i _ => ?_) fun i hi p hp => ?_
    · by_cases hi : i = s.vm.scopeDepth - 1
      · subst hi
        have hslot := addSlot_findSlot (s.vm.scopeDepth - 1) ⟨n, v, none⟩ m hfind
        obtain ⟨-, hov, hmap⟩ := addSlot_scopes (s := s) (s.vm.scopeDepth - 1) ⟨n, v, none⟩ (s.vm.scopeDepth - 1)
        unfold placeIn
        dsimp only
        rw [hslot, if_neg hmn, hov, hmap]
        rfl
      · have hkept : (s.addSlot (s.vm.scopeDepth - 1) ⟨n, v, none⟩).vm.scopes i = s.vm.scopes i :=
          Function.update_of_ne hi _ _
        exact (placeIn_of_scope hkept rfl).1
    · rw [placeAddr_addSlot]
      refine placeAddr_withSlot_of_ne fun heq => ?_
      subst heq
      obtain ⟨hi, hj⟩ := placeIn_slot hp
      exact lt_irrefl _ (findSlot_some (hi ▸ hj)).1
  · rw [hadd]
    refine vmScopeGet_of_locate (findSome?_congr fun i _ => ?_) fun i _ p _ => placeAddr_addEntry _ n v p
    by_cases hi : i = s.vm.scopeDepth - 1
    · subst hi
      have htext : s.nameText m ≠ s.nameText n := fun heq => hmn (h.interned m n hm hn heq)
      have hkept := (h.table hget s.heap.entryCount).2 m htext
      have hempty := h.overflow (s.vm.scopeDepth - 1) (by omega)
      have hslot : ((s.addEntry (s.vm.scopeDepth - 1) n v).vm.scopes (s.vm.scopeDepth - 1)).findSlot m =
          (s.vm.scopes (s.vm.scopeDepth - 1)).findSlot m := by
        rw [addEntry_scopes, if_pos rfl]
        rfl
      unfold placeIn
      dsimp only
      rw [hslot, addEntry_scopes, if_pos rfl]
      cases (s.vm.scopes (s.vm.scopeDepth - 1)).findSlot m with
      | some j => rfl
      | none =>
        refine (congrArg (Option.map _) hkept).trans ?_
        by_cases hov : (s.vm.scopes (s.vm.scopeDepth - 1)).overflow = true
        · rw [hov]
          rfl
        · dsimp only
          rw [if_neg hov, hempty (Bool.eq_false_iff.mpr hov)]
          rfl
    · have hkept : (s.addEntry (s.vm.scopeDepth - 1) n v).vm.scopes i = s.vm.scopes i := by
        rw [addEntry_scopes, if_neg hi]
      exact (placeIn_of_scope hkept rfl).1

theorem Tidy.vmScopeDefine (n : Nat) (v : AerVal) : (s.vmScopeDefine n v).Tidy := by
  have hdepth := h.depth
  have hmake := h.of_text (quiet_vmScopeDefine s n v).toSameText
    (((Keeps.vmScopeDefine s n v).heap h.names.pools).wf h.names.pools)
  obtain ⟨a, ha⟩ | ⟨-, hadd | ⟨hget, hadd⟩⟩ := h.define_cases n v
  · rw [ha]
    exact h.writeAddr a v
  · rw [hadd] at hmake ⊢
    have hkept (i : Nat) := addSlot_scopes (s := s) (s.vm.scopeDepth - 1) ⟨n, v, none⟩ i
    refine hmake hdepth (fun i hi => ?_) fun i hi => ?_
    · rw [(hkept i).2.2]
      exact h.tables i hi
    · rw [(hkept i).2.2, (hkept i).2.1]
      exact h.overflow i hi
  · rw [hadd] at hmake ⊢
    refine hmake hdepth (fun i hi => ?_) fun i hi => ?_
    · rw [addEntry_scopes]
      split
      · exact (h.table hget _).1
      · exact h.tables i hi
    · rw [addEntry_scopes]
      split
      · exact fun hov => absurd hov (by simp)
      · exact h.overflow i hi

end Define

/-! Two states of one core. -/

theorem core_writeAddr (s : State) (a : Addr) (v : AerVal) : (s.writeAddr a v).core = s.core.writeAddr a v := by
  cases a <;> rfl

theorem core_vmScopeDefine (s : State) (n : Nat) (v : AerVal) :
    (s.vmScopeDefine n v).core = s.core.vmScopeDefine n v := by
  have hfind : (s.core.vm.scopes (s.core.vm.scopeDepth - 1)).findSlot n =
      (s.vm.scopes (s.vm.scopeDepth - 1)).findSlot n := rfl
  have hget : (s.core.vm.scopes (s.core.vm.scopeDepth - 1)).map.get (s.core.nameText n) =
      (s.vm.scopes (s.vm.scopeDepth - 1)).map.get (s.nameText n) := rfl
  unfold vmScopeDefine
  dsimp only
  rw [hfind, hget]
  cases (s.vm.scopes (s.vm.scopeDepth - 1)).findSlot n with
  | some j => exact core_writeAddr s _ v
  | none =>
    dsimp only
    by_cases hroom : (s.vm.scopes (s.vm.scopeDepth - 1)).count < scopeSlotMax
    · rw [if_pos hroom]
      exact (if_pos hroom).symm
    · rw [if_neg hroom]
      refine Eq.trans ?_ (if_neg hroom).symm
      cases (s.vm.scopes (s.vm.scopeDepth - 1)).map.get (s.nameText n) <;> rfl

theorem addErrors_chunk (s : State) (msgs : List Bytes) : (msgs.foldl State.addError s).chunk = s.chunk := by
  induction msgs generalizing s with
  | nil => rfl
  | cons msg msgs ih => exact (ih _).trans rfl

theorem core_freeScope (s : State) (i : Nat) : (s.freeScope i).core = s.core.freeScope i := by
  unfold freeScope
  dsimp only
  change _ = if (s.vm.scopes i).overflow && !(s.vm.scopes i).overflowHasCaptures then _ else _
  split <;> rfl

theorem core_popOneScope (s : State) : s.popOneScope.core = s.core.popOneScope := core_freeScope _ _

/-! What fills the caches. -/

/-- Only the resolution of a name fills a cache. -/
theorem exec_addrCache (cfg : Config) {o : Op} (ho : ∀ n c, o ≠ .resolve n c) {a : o.Ans}
    (h : exec cfg o s = .done a t) : t.chunk.addrCache = s.chunk.addrCache := by
  cases o with
  | resolve n c => exact absurd rfl (ho n c)
  | store a v =>
    simp only [exec, State.store] at h
    split at h <;> cases h
    cases a <;> rfl
  | storeUpvalue b v =>
    simp only [exec, State.store] at h
    split at h <;> cases h
    rfl
  | writeLocal slot v =>
    simp only [exec, State.store] at h
    split at h
    · next a _ =>
      split at h <;> cases h
      cases a <;> rfl
    · cases h
  | scopeDefine n v =>
    simp only [exec] at h
    split at h <;> cases h
    exact congrArg Chunk.addrCache (quiet_vmScopeDefine s n v).chunk
  | boxSlot n =>
    simp only [exec] at h
    split at h
    · next hb =>
      cases h
      unfold vmBoxSlot at hb
      split at hb
      · cases hb
      · cases hb
        rfl
      · dsimp only at hb
        split at hb <;> cases hb <;> rfl
    · cases h
      rfl
  | popScope =>
    simp only [exec, State.popScope] at h
    split at h <;> cases h
    exact congrArg Chunk.addrCache (quiet_popScopes 1 s).chunk
  | unwindScopes =>
    simp only [exec] at h
    split at h <;> cases h
    exact congrArg Chunk.addrCache (quiet_popScopes _ s).chunk
  | callNative m f n =>
    simp only [exec, State.callNative] at h
    split at h
    · split at h <;> cases h
      · rfl
      · exact congrArg Chunk.addrCache (addErrors_chunk _ _)
    · cases h
  | takeReturn =>
    simp only [exec, State.takeReturn] at h
    split at h
    · split at h <;> cases h
      rfl
    · cases h
  | _ =>
    first
    | (cases h; done)
    | (cases h; rfl)
    | (simp only [exec, orFault, State.push, State.pop, State.defineLocal, State.pushScope, State.pushFrame,
        State.pendUpvalue, State.takeUpvalues, State.updateFrame, State.popFrame] at h
       split at h <;> cases h <;> rfl)
    | (simp only [exec, orFault] at h
       split at h
       · split at h <;> cases h <;> rfl
       · cases h)

/-- The caches are filled with global variables. -/
theorem exec_globals (cfg : Config) (o : Op) (hs : s.CachesGlobal) {a : o.Ans} (h : exec cfg o s = .done a t) :
    t.CachesGlobal := by
  by_cases ho : ∃ n c, o = .resolve n c
  · obtain ⟨n, c, rfl⟩ := ho
    simp only [exec, State.resolve] at h
    split at h
    · split at h
      · cases h
        exact hs
      · split at h
        · cases h
          intro d a hd
          simp only [List.getElem?_set] at hd
          split at hd
          · obtain ⟨j, -, hj⟩ := Option.map_eq_some_iff.mp (Option.some.inj hd)
            exact ⟨j, hj.symm⟩
          · exact hs d a hd
        · cases h
          exact hs
    · cases h
  · have hkept : t.chunk.addrCache = s.chunk.addrCache :=
      exec_addrCache cfg (fun n c hc => ho ⟨n, c, hc⟩) h
    exact fun c a ha => hs c a (hkept ▸ ha)

end State

end Aer.Machine
