import Aer.Json.Meaning
import Aer.Machine.DictAccess
import Aer.Machine.RangeLoop
import Aer.Memory.Growth

set_option linter.all false

/-! Loops over a dict: what the iteration instructions yield, against what the accesses say of the
keys they yield. -/
namespace Aer.Machine

open Aer.Data Aer.Memory Aer.Lib.Interaction

theorem dictData_grows {s : State} {h : Heap} {c : Nat} {t : HashTable AerVal}
    (hgrows : s.heap.Grows h) (hd : s.dictData c = some t) :
    ({ s with heap := h } : State).dictData c = some t := by
  obtain ⟨hlive, ht⟩ := Option.ite_none_right_eq_some.mp hd
  have hdata : h.dicts.data c = s.heap.dicts.data c := hgrows.data (.dict c) hlive id
  exact (if_pos (hgrows.live (.dict c) hlive)).trans ((congrArg some hdata).trans ht)

theorem stringData_aerMakeString {s : State} (hw : s.heap.PoolsWf) (b : Bytes) :
    ({ s with heap := (s.heap.aerMakeString b).2 } : State).stringData
      (s.heap.strings.alloc b).1 = some b := by
  have hfresh := hw.strings.alloc_fresh b
  exact (if_pos ((hfresh.live _).mpr (.inl rfl))).trans (congrArg some hfresh.data_self)

/-- A loop between `top` and `endAddr` over the dict that is on the stack at `base`, with its
cursor above. -/
structure DictLoop (pair : Bool) (top endAddr base dict : Nat) (s : State) (t : HashTable AerVal)
    (cursor : Nat) : Prop where
  opcode : s.chunk.code[top]? =
    some (if pair then Opcode.iterNextPair.word else Opcode.iterNext.word)
  operand : s.chunk.code[top + 1]? = some (.ofNat endAddr)
  room : base + 7 ≤ vmStackMax
  collection : s.vm.stack base = .dict dict
  cursor : s.asInt (s.vm.stack (base + 1)) = some (cursor : Int)
  table : s.dictData dict = some t
  pools : s.heap.PoolsWf

/-- The loop is about to fetch its iteration instruction. -/
structure AtDict (pair : Bool) (top endAddr base dict : Nat) (s : State) (t : HashTable AerVal)
    (cursor : Nat) : Prop extends DictLoop pair top endAddr base dict s t cursor where
  ip : s.vm.ip = top
  stackTop : s.vm.stackTop = base + 2

/-- The loop has entered its body with a key, and in a loop over pairs its value. -/
structure InDict (pair : Bool) (top endAddr base dict : Nat) (s : State) (t : HashTable AerVal)
    (e : Bytes × AerVal) (cursor : Nat) : Prop
    extends DictLoop pair top endAddr base dict s t cursor where
  ip : s.vm.ip = top + 2
  stackTop : s.vm.stackTop = base + 3 + pair.toNat
  key : ∃ c, s.vm.stack (base + 2) = .string c ∧ s.stringData c = some e.1
  value : pair = true → s.vm.stack (base + 3) = e.2

section Step
variable (cfg : Config) {pair : Bool} {top endAddr base dict : Nat} {s : State}
  {t : HashTable AerVal} {cursor : Nat}

theorem AtDict.leave (h : AtDict pair top endAddr base dict s t cursor)
    (hnext : t.nextEntry cursor = none) :
    ∃ w, instruction.run (exec cfg) s = .done () w ∧ w.vm.stackTop = base ∧ w.vm.ip = endAddr := by
  have htable (vm : Vm) : State.dictData { s with vm } dict = some t := h.table
  have hcursor (vm : Vm) : State.asInt { s with vm } (s.vm.stack (base + 1)) = some (cursor : Int) :=
    (asInt_congr rfl _).trans h.cursor
  have hcode := h.opcode
  rw [← h.ip] at hcode
  refine ⟨{ s with vm := { s.vm with ip := endAddr, stackTop := base } }, ?_, rfl, rfl⟩
  cases pair with
  | false =>
    rw [run_fetched hcode]
    change lblIterNext.run (exec cfg) _ = _
    simp [lblIterNext, run_bind, perform, Outcome.andThen, exec, h.ip, h.operand, h.stackTop, hcursor,
      h.collection, htable, orFault, hnext, leaveLoop]
  | true =>
    rw [run_fetched hcode]
    change lblIterNextPair.run (exec cfg) _ = _
    simp [lblIterNextPair, run_bind, perform, Outcome.andThen, exec, h.ip, h.operand, h.stackTop,
      hcursor, h.collection, htable, orFault, hnext, leaveLoop]

theorem AtDict.next (h : AtDict pair top endAddr base dict s t cursor) {j : Nat} {k : Bytes}
    {v : AerVal} (hnext : t.nextEntry cursor = some (j, k, v)) (hj : IsInt47 (j + 1)) :
    ∃ u, instruction.run (exec cfg) s = .done () u ∧
      InDict pair top endAddr base dict u t (k, v) (j + 1) := by
  have htable (vm : Vm) : State.dictData { s with vm } dict = some t := h.table
  have hcursor (vm : Vm) : State.asInt { s with vm } (s.vm.stack (base + 1)) = some (cursor : Int) :=
    (asInt_congr rfl _).trans h.cursor
  have hint : s.heap.aerInt (j + 1) = (.integer ⟨j + 1, hj⟩, s.heap) := dif_pos hj
  have hgrows := Heap.grows_aerMakeString h.pools k
  have hroom := h.room
  let stack := Function.update (Function.update s.vm.stack (base + 1) (.integer ⟨j + 1, hj⟩))
    (base + 2) (.string (s.heap.strings.alloc k).1)
  let u : State := { s with
    heap := (s.heap.aerMakeString k).2
    vm := { s.vm with
      ip := top + 2
      stackTop := base + 3 + pair.toNat
      stack := if pair then Function.update stack (base + 3) v else stack } }
  have hstack {i : Nat} (hi : i < base + 3) : u.vm.stack i = stack i := by
    change (if pair then Function.update stack (base + 3) v else stack) i = stack i
    split
    · exact Function.update_of_ne hi.ne _ _
    · rfl
  refine ⟨u, ?_, ⟨⟨h.opcode, h.operand, h.room, ?_, ?_, ?_, hgrows.wf h.pools⟩, rfl, rfl,
    ⟨(s.heap.strings.alloc k).1, ?_, ?_⟩, ?_⟩⟩
  · have h1 : base + 2 < vmStackMax := by omega
    have h2 : base + 2 + 1 < vmStackMax := by omega
    have hcode := h.opcode
    rw [← h.ip] at hcode
    cases pair with
    | false =>
      rw [run_fetched hcode]
      change lblIterNext.run (exec cfg) _ = _
      simp [lblIterNext, run_bind, perform, Outcome.andThen, exec, h.ip, h.operand, h.stackTop,
        hcursor, h.collection, htable, orFault, hnext, advance, push, State.push, State.gain, hint,
        Heap.aerMakeString, Vm.setStack, h1, u, stack]
    | true =>
      rw [run_fetched hcode]
      change lblIterNextPair.run (exec cfg) _ = _
      simp [lblIterNextPair, run_bind, perform, Outcome.andThen, exec, h.ip, h.operand, h.stackTop,
        hcursor, h.collection, htable, orFault, hnext, advance, push, State.push, State.gain, hint,
        Heap.aerMakeString, Vm.setStack, h1, h2, u, stack]
  · rw [hstack (by omega)]
    exact (Function.update_of_ne (by omega) _ _).trans
      ((Function.update_of_ne (by omega) _ _).trans h.collection)
  · rw [hstack (by omega), show stack (base + 1) = .integer ⟨j + 1, hj⟩ from
      (Function.update_of_ne (by omega) _ _).trans (Function.update_self ..)]
    rfl
  · exact dictData_grows (s := s) hgrows h.table
  · rw [hstack (by omega)]
    exact Function.update_self ..
  · exact stringData_aerMakeString (s := s) h.pools k
  · rintro rfl
    exact Function.update_self ..

/-- `length(d)`. -/
def lengthOf (dict : Nat) : Handler AerVal := do
  pushAll [.dict dict]
  callUnbound (bytes "length") 1
  pop

theorem answer_lengthOf (hd : s.dictData dict = some t) (hroom : s.vm.stackTop < vmStackMax)
    (hcount : IsInt47 t.count) :
    s.answer cfg (lengthOf dict) = some (.integer ⟨t.count, hcount⟩) := by
  let w := (s.withOperands [.dict dict]).dropped 1
  have hpop : pop.run (exec cfg) (s.withOperands [.dict dict]) = .done (.dict dict) w :=
    run_pop_operand cfg [.dict dict] (n := 0) (i := 0) rfl rfl
  have hargs : (popArgs 1).run (exec cfg) (s.withOperands [.dict dict]) =
      .done [.dict dict] w := by
    unfold popArgs
    rw [run_bind, hpop]
    rfl
  have hlength (failed : AerVal) : (runBuiltin failed (bytes "length") [.dict dict]).run (exec cfg) w =
      .done (.integer ⟨t.count, hcount⟩) w := by
    have hchain : runBuiltin failed (bytes "length") [.dict dict] =
        builtinLength failed (.dict dict) := by
      unfold runBuiltin
      exact if_pos rfl
    rw [hchain, builtinLength, run_bind, run_dict cfg (s := w) hd, Outcome.done_andThen]
    unfold perform
    rw [run_perform]
    change w.gain (w.heap.aerInt t.count) = _
    rw [show w.heap.aerInt t.count = _ from dif_pos hcount]
    rfl
  have hcall : (callUnbound (bytes "length") 1).run (exec cfg) (s.withOperands [.dict dict]) =
      (push (.integer ⟨t.count, hcount⟩)).run (exec cfg) w := by
    have hzero : (perform (.newInt 0)).run (exec cfg) w = .done (.integer ⟨0, by decide⟩) w := rfl
    unfold callUnbound
    rw [if_pos (by decide), run_bind, hargs, Outcome.done_andThen, run_bind, hzero,
      Outcome.done_andThen, run_bind, hlength, Outcome.done_andThen]
  obtain ⟨stack, hrun⟩ := run_operands cfg (show s.vm.stackTop + 1 ≤ vmStackMax from hroom) hcall hroom
  unfold State.answer lengthOf
  rw [hrun]

/-- A key that is too long for `in` is not found by it. -/
theorem answer_isIn_long (dict : Nat) {key : Nat} {text : Bytes} (hk : s.stringData key = some text)
    (hlen : vmKeyMax < text.length) (hroom : s.vm.stackTop + 2 ≤ vmStackMax) :
    s.answer cfg ((Access.isIn key).program dict) = some (.boolean false) := by
  let vs : List AerVal := [.string key, .dict dict]
  let w := (s.withOperands vs).dropped 2
  have hb : pop.run (exec cfg) (s.withOperands vs) =
      .done (.dict dict) ((s.withOperands vs).dropped 1) :=
    run_pop_operand cfg vs (n := 0) (i := 1) rfl rfl
  have ha : pop.run (exec cfg) ((s.withOperands vs).dropped 1) = .done (.string key) w :=
    run_pop_operand cfg vs (i := 0) rfl rfl
  have hin : (vmBinary (.string key) (.dict dict) .isIn).run (exec cfg) w =
      .done (.boolean false) (w.addError keyTooLong) := by
    change (vmIn (.string key) (.dict dict)).run (exec cfg) w = _
    unfold vmIn
    dsimp only
    rw [run_bind, run_string cfg (s := w) hk, Outcome.done_andThen, if_pos hlen]
    rfl
  have hbinary : (lblBinary .isIn).run (exec cfg) (s.withOperands vs) =
      (push (.boolean false)).run (exec cfg) (w.addError keyTooLong) := by
    unfold lblBinary
    rw [run_bind, hb, Outcome.done_andThen, run_bind, ha, Outcome.done_andThen, run_bind, hin,
      Outcome.done_andThen]
  obtain ⟨stack, hrun⟩ := run_operands cfg hroom hbinary
    (show s.vm.stackTop < vmStackMax by omega)
  unfold State.answer Access.program
  rw [hrun]

end Step

/-- The runs of a loop, with the states in which its body begins. -/
inductive DictRun (cfg : Config) (body : State → State) (base : Nat) :
    State → List State → State → Prop
  | leave {s w : State} (hrun : instruction.run (exec cfg) s = .done () w)
      (htop : w.vm.stackTop = base) : DictRun cfg body base s [] w
  | next {s u w : State} {us : List State} (hrun : instruction.run (exec cfg) s = .done () u)
      (htop : base + 2 < u.vm.stackTop) (hrest : DictRun cfg body base (body u) us w) :
      DictRun cfg body base s (u :: us) w

/-- A loop body that does not modify the dict, leaves the iterator slots as they are and comes back
to the head. -/
def KeepsDict (pair : Bool) (top endAddr base dict : Nat) (t : HashTable AerVal)
    (body : State → State) : Prop :=
  ∀ u e cursor, InDict pair top endAddr base dict u t e cursor →
    AtDict pair top endAddr base dict (body u) t cursor

/-- The key that a loop binds. -/
def boundKey (base : Nat) (u : State) : Option Bytes :=
  match u.vm.stack (base + 2) with
  | .string c => u.stringData c
  | _ => none

/-- The key that the loop has bound is found by `in`, the index gives the value bound with it, and
`delete` takes out its entry and no other, all without an error. -/
structure Agrees (cfg : Config) (pair : Bool) (base dict : Nat) (u : State) (c : Nat) (k : Bytes)
    (t : HashTable AerVal) : Prop where
  slot : u.vm.stack (base + 2) = .string c
  text : u.stringData c = some k
  table : u.dictData dict = some t
  found : ∃ w, ((Access.isIn c).program dict).run (exec cfg) u = .done (.boolean true) w ∧
    w.runtimeHadError = u.runtimeHadError
  read : ∃ v w, ((Access.get c).program dict).run (exec cfg) u = .done v w ∧
    w.runtimeHadError = u.runtimeHadError ∧ (k, v) ∈ t.entries ∧
    (pair = true → u.vm.stack (base + 3) = v)
  deleted : ∃ w t', ((Access.delete c).program dict).run (exec cfg) u = .done (.dict dict) w ∧
    w.runtimeHadError = u.runtimeHadError ∧ w.dictData dict = some t' ∧
    ∀ e, e ∈ t'.entries ↔ e ∈ t.entries ∧ e.1 ≠ k

section Loop
variable (cfg : Config) {body : State → State} {pair : Bool} {top endAddr base dict : Nat}
  {s : State} {t : HashTable AerVal} {cursor : Nat}

theorem isInt47_capacity (ht : t.WellFormed) {n : Nat} (hn : n ≤ t.capacity) : IsInt47 n := by
  have hcap : t.capacity ≤ 2 ^ 26 := by
    by_cases hb : t.buckets = []
    · unfold HashTable.capacity
      rw [hb]
      exact Nat.zero_le _
    · exact (ht.capacity_bounds hb).2
  unfold IsInt47
  omega

/-- A run binds the entries from the cursor on, one after another. -/
theorem DictRun.binds (hbody : KeepsDict pair top endAddr base dict t body) (ht : t.WellFormed)
    {us : List State} {w : State} (hr : DictRun cfg body base s us w)
    (h : AtDict pair top endAddr base dict s t cursor) :
    List.Forall₂ (fun u e => ∃ c, InDict pair top endAddr base dict u t e c) us
      (t.entriesFrom cursor) := by
  induction hr generalizing cursor with
  | leave hrun htop =>
    rcases t.nextEntry_spec cursor with ⟨-, hnil⟩ | ⟨j, k, v, hsome, -, hj, -⟩
    · rw [hnil]
      exact .nil
    · obtain ⟨u, hu, hin⟩ := h.next cfg hsome (isInt47_capacity ht hj)
      rw [hu] at hrun
      cases hrun
      have := hin.stackTop
      omega
  | next hrun htop _ ih =>
    rcases t.nextEntry_spec cursor with ⟨hnone, -⟩ | ⟨j, k, v, hsome, -, hj, hcons⟩
    · obtain ⟨u, hu, htop', -⟩ := h.leave cfg hnone
      rw [hu] at hrun
      cases hrun
      omega
    · obtain ⟨u, hu, hin⟩ := h.next cfg hsome (isInt47_capacity ht hj)
      rw [hu] at hrun
      cases hrun
      rw [hcons]
      exact .cons ⟨_, hin⟩ (ih (hbody _ _ _ hin))

/-- The loop comes to its end. -/
theorem DictRun.complete (hbody : KeepsDict pair top endAddr base dict t body) (ht : t.WellFormed)
    (h : AtDict pair top endAddr base dict s t cursor) :
    ∃ us w, DictRun cfg body base s us w ∧ w.vm.stackTop = base ∧ w.vm.ip = endAddr := by
  induction hn : (t.entriesFrom cursor).length generalizing s cursor with
  | zero =>
    rcases t.nextEntry_spec cursor with ⟨hnone, -⟩ | ⟨j, k, v, -, -, -, hcons⟩
    · obtain ⟨w, hw, htop, hip⟩ := h.leave cfg hnone
      exact ⟨[], w, .leave hw htop, htop, hip⟩
    · rw [hcons] at hn
      cases hn
  | succ n ih =>
    rcases t.nextEntry_spec cursor with ⟨-, hnil⟩ | ⟨j, k, v, hsome, -, hj, hcons⟩
    · rw [hnil] at hn
      cases hn
    · obtain ⟨u, hu, hin⟩ := h.next cfg hsome (isInt47_capacity ht hj)
      rw [hcons] at hn
      obtain ⟨us, w, hw, htop, hip⟩ := ih (hbody u _ _ hin) (Nat.succ.inj hn)
      have hlt : base + 2 < u.vm.stackTop := by
        rw [hin.stackTop]
        omega
      exact ⟨u :: us, w, .next hu hlt hw, htop, hip⟩

theorem InDict.boundKey {u : State} {e : Bytes × AerVal} {c : Nat}
    (h : InDict pair top endAddr base dict u t e c) : boundKey base u = some e.1 := by
  obtain ⟨d, hslot, htext⟩ := h.key
  unfold Machine.boundKey
  rw [hslot]
  exact htext

theorem InDict.agrees {u : State} {k : Bytes} {v : AerVal} {n : Nat}
    (h : InDict pair top endAddr base dict u t (k, v) n) (ht : t.WellFormed)
    (hroom : t.count < HashTable.maxCapacity) (hmem : some (k, v) ∈ t.buckets)
    (hlen : k.length ≤ vmKeyMax) : ∃ c, Agrees cfg pair base dict u c k t := by
  obtain ⟨c, hslot, htext⟩ := h.key
  have hkey := ht.keys k v hmem
  have hget : t.get k = some v := (ht.get_iff k v).mpr (hkey.symm ▸ hmem)
  have hstack : u.vm.stackTop + 3 ≤ vmStackMax := by
    have := h.room
    have := Bool.toNat_le pair
    rw [h.stackTop]
    omega
  obtain ⟨w, hin, hw⟩ := run_isIn cfg h.table htext hlen hstack
  obtain ⟨x, hread, hx⟩ := run_get cfg h.table htext hlen hstack
  obtain ⟨y, hdelete, hy⟩ := run_delete cfg h.table htext hlen hstack
  rw [hget] at hin hread
  refine ⟨c, hslot, htext, h.table, ⟨w, hin, hw.hadError⟩,
    ⟨v, x, hread, hx.hadError, HashTable.mem_entries.mpr hmem, h.value⟩,
    ⟨y, t.remove k, hdelete, hy.hadError, hy.table, fun e => ?_⟩⟩
  rw [HashTable.mem_entries, HashTable.mem_entries, (ht.remove hroom k).mem, hkey]
  exact and_comm

/-- Every key is bound, by a state of the run. -/
theorem bound_of_binds {us : List State} {es : List (Bytes × AerVal)}
    (h : List.Forall₂ (fun u e => ∃ c, InDict pair top endAddr base dict u t e c) us es) :
    us.map (boundKey base) = es.map (some ∘ Prod.fst) := by
  have hkeys : List.Forall₂ Eq (us.map (Machine.boundKey base)) (es.map (some ∘ Prod.fst)) := by
    rw [List.forall₂_map_left_iff, List.forall₂_map_right_iff]
    exact h.imp fun u e ⟨c, hin⟩ => hin.boundKey
  rwa [List.forall₂_eq_eq_eq] at hkeys

end Loop

/-! Literals and decoded objects make such tables. -/

theorem popEntries_built {cfg : Config} {n : Nat} {d d' : HashTable AerVal} {s w : State}
    (h : (popEntries n d).run (exec cfg) s = .done d' w) (hd : d.Built)
    (hroom : d.count + n ≤ HashTable.maxCapacity) : d'.Built := by
  induction n generalizing d s with
  | zero =>
    cases h
    exact hd
  | succ n ih =>
    unfold popEntries at h
    rw [run_bind] at h
    obtain ⟨v, s₁, -, h⟩ := Outcome.andThen_eq_done.mp h
    rw [run_bind] at h
    obtain ⟨key, s₂, -, h⟩ := Outcome.andThen_eq_done.mp h
    split at h
    · next c =>
      rw [run_bind] at h
      obtain ⟨text, s₃, -, h⟩ := Outcome.andThen_eq_done.mp h
      have hlt : d.count < HashTable.maxCapacity := by omega
      have hcount := (hd.wellFormed.put hlt text v).count_le
      exact ih h (hd.put hlt text v) (by omega)
    · rw [run_bind] at h
      obtain ⟨-, s₃, -, h⟩ := Outcome.andThen_eq_done.mp h
      exact ih h hd (by omega)

theorem decoded_built {p q : Json.JsonParser} {c : Nat} {ms : List (Bytes × Json.Tree)} {r : Bytes}
    (h : Json.MakesMembers p c ms r q) (hd : (p.heap.dicts.data c).Built)
    (hroom : (p.heap.dicts.data c).count + ms.length ≤ HashTable.maxCapacity) :
    (q.heap.dicts.data c).Built := by
  obtain ⟨vs, hlen, -, hdata⟩ := h.members
  rw [hdata]
  refine hd.puts ?_
  rw [List.length_zip, List.length_map, hlen, Nat.min_self]
  exact hroom

section Sample

/-- The code of a loop over a dict whose body drops the key it binds. -/
def dictLoopCode : List Int :=
  [Opcode.iterNext.word, 5, Opcode.pop.word, Opcode.jump.word, 0, Opcode.halt.word]

/-- The loop `for k in d:` before its first iteration. -/
def loopOver (t : HashTable AerVal) : State :=
  let stack : Nat → AerVal
    | 0 => .dict 0
    | _ => .integer ⟨0, isInt47_zero⟩
  { State.init with
    chunk := { Chunk.init with code := dictLoopCode }
    heap := (Heap.init.newDict t).2
    vm := { Vm.init with stack, stackTop := 2 } }

def dropKey (u : State) : State :=
  { u with vm := { u.vm with ip := 0, stackTop := u.vm.stackTop - 1 } }

theorem keepsDict_dropKey (t : HashTable AerVal) : KeepsDict false 0 5 0 0 t dropKey := by
  intro u e cursor h
  refine ⟨⟨h.opcode, h.operand, h.room, h.collection, ?_, h.table, h.pools⟩, rfl, ?_⟩
  · exact (asInt_congr rfl _).trans h.cursor
  · change u.vm.stackTop - 1 = 0 + 2
    rw [h.stackTop]
    rfl

theorem atDict_loopOver (t : HashTable AerVal) : AtDict false 0 5 0 0 (loopOver t) t 0 := by
  have hfresh := Heap.poolsWf_init.dicts.alloc_fresh t
  refine ⟨⟨rfl, rfl, by decide, rfl, rfl, ?_, (Heap.grows_newDict Heap.poolsWf_init t).wf
    Heap.poolsWf_init⟩, rfl, rfl⟩
  exact (if_pos ((hfresh.live _).mpr (.inl rfl))).trans (congrArg some hfresh.data_self)

/-- A key of 4097 bytes, as a literal takes it. -/
def longKey : Bytes := List.replicate 4097 (byte 'a')

def longTable : HashTable AerVal := HashTable.empty.put longKey (.integer ⟨1, isInt47_one⟩)

end Sample

end Aer.Machine
