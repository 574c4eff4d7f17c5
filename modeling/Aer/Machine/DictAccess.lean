import Aer.Data.DictTable
import Aer.Machine.Calls
import Aer.Machine.Equality

set_option linter.all false

/-! The accesses to a dict by a key: index assignment, index, `in` and `delete`. The key is a
string with a length, and the table stores what comes before its first NUL. -/
namespace Aer.Machine

open Aer.Data Aer.Memory Aer.Lib.Interaction

/-- An access with the string of a cell as its key. -/
inductive Access
  | set (key : Nat) (v : AerVal)
  | get (key : Nat)
  | isIn (key : Nat)
  | delete (key : Nat)

namespace Access

def key : Access → Nat
  | set key _ | get key | isIn key | delete key => key

/-- The access as the program makes it: the operands are pushed, and the result is popped. -/
def program (dict : Nat) : Access → Handler AerVal
  | set key v => do
      pushAll [.dict dict, .string key, v]
      lblIndexSet
      return .null
  | get key => do
      pushAll [.dict dict, .string key]
      lblIndexGet
      pop
  | isIn key => do
      pushAll [.string key, .dict dict]
      lblBinary .isIn
      pop
  | delete key => do
      pushAll [.dict dict, .string key]
      callUnbound (bytes "delete") 2
      pop

/-- The answer for a key with the given text. -/
def answer (dict : Nat) (text : Bytes) (t : HashTable AerVal) : Access → AerVal
  | set _ _ => .null
  | get _ => (t.get text).getD .null
  | isIn _ => .boolean (t.get text).isSome
  | delete _ => .dict dict

def table (text : Bytes) (t : HashTable AerVal) : Access → HashTable AerVal
  | set _ v => t.assign text v
  | get _ | isIn _ => t
  | delete _ => t.remove text

end Access

theorem gcBarrierDict_same (h : Heap) (c : Nat) (v : AerVal) :
    (∀ d, (h.gcBarrierDict c v).dicts.Live d ↔ h.dicts.Live d) ∧
      (h.gcBarrierDict c v).dicts.data = h.dicts.data ∧
      (h.gcBarrierDict c v).strings = h.strings := by
  have hrefl : (∀ d, h.dicts.Live d ↔ h.dicts.Live d) ∧ h.dicts.data = h.dicts.data ∧
      h.strings = h.strings := ⟨fun _ => Iff.rfl, rfl, rfl⟩
  unfold Heap.gcBarrierDict
  split
  · exact hrefl
  · split
    · exact hrefl
    · unfold Heap.gcRemember
      dsimp only
      split
      · exact hrefl
      · exact ⟨fun d => by simp [Pool.Live], rfl, rfl⟩

/-- The state behind an access: the dict has the table `t`, and the strings, the height of the
stack and the error flag are as they were. -/
structure Accessed (s : State) (dict : Nat) (t : HashTable AerVal) (u : State) : Prop where
  table : u.dictData dict = some t
  strings : ∀ c, u.stringData c = s.stringData c
  stackTop : u.vm.stackTop = s.vm.stackTop
  hadError : u.runtimeHadError = s.runtimeHadError

section Runs
variable (cfg : Config) {s : State} {dict key : Nat} {t : HashTable AerVal} {text : Bytes}

theorem run_dict (h : s.dictData dict = some t) :
    (perform (.dict dict)).run (exec cfg) s = .done t s := by
  have hread : exec cfg (.dict dict) s = .done t s := by
    change orFault (s.dictData dict) s = _
    rw [h]
    rfl
  unfold perform
  rw [run_perform, hread]

/-- The operands come off the stack, the last one first. -/
theorem run_pop_operand (vs : List AerVal) {n i : Nat} {x : AerVal} (hx : vs[i]? = some x)
    (hn : n + i + 1 = vs.length) : pop.run (exec cfg) ((s.withOperands vs).dropped n) =
      .done x ((s.withOperands vs).dropped (n + 1)) := by
  obtain ⟨hi, rfl⟩ := List.getElem?_eq_some_iff.mp hx
  have htop : ((s.withOperands vs).dropped n).vm.stackTop = s.vm.stackTop + i + 1 := by
    change s.vm.stackTop + vs.length - n = _
    omega
  exact run_pop cfg htop (s.withOperands_stack vs hi)

theorem run_pushAll_self (vs : List AerVal) (hroom : s.vm.stackTop + vs.length ≤ vmStackMax) :
    (pushAll vs).run (exec cfg) s = .done () (s.withOperands vs) := by
  have h := run_pushAll cfg s [] vs hroom
  rwa [s.withOperands_nil] at h

/-- Operands are pushed, and the result that an instruction leaves in their place is popped. -/
theorem run_operands {p : Handler Unit} {vs : List AerVal} {x : AerVal} {w : State}
    (hroom : s.vm.stackTop + vs.length ≤ vmStackMax)
    (hp : p.run (exec cfg) (s.withOperands vs) = (push x).run (exec cfg) w)
    (hw : w.vm.stackTop < vmStackMax) :
    ∃ stack, (do pushAll vs; p; pop : Handler AerVal).run (exec cfg) s =
      .done x { w with vm := { w.vm with stack } } := by
  have hpush : (push x).run (exec cfg) w = .done () { w with vm :=
      { w.vm.setStack w.vm.stackTop x with stackTop := w.vm.stackTop + 1 } } :=
    (run_perform _ _ _).trans (if_pos hw)
  refine ⟨Function.update w.vm.stack w.vm.stackTop x, ?_⟩
  rw [run_bind, run_pushAll_self cfg vs hroom, Outcome.done_andThen, run_bind, hp, hpush,
    Outcome.done_andThen]
  exact run_pop cfg rfl (Function.update_self ..)

theorem dictData_setEntry (h : s.dictData dict = some t) (text : Bytes) (v : AerVal) :
    ({ s with heap := s.heap.setEntry dict text v } : State).dictData dict =
        some (t.assign text v) ∧
      (s.heap.setEntry dict text v).strings = s.heap.strings := by
  obtain ⟨hlive, ht⟩ := Option.ite_none_right_eq_some.mp h
  cases ht
  obtain ⟨hlives, hdata, hstrings⟩ := gcBarrierDict_same s.heap dict v
  have hset (d : HashTable AerVal) : State.dictData
      { s with heap := (s.heap.gcBarrierDict dict v).setDict dict d } dict = some d :=
    (if_pos ((hlives dict).mpr hlive)).trans (congrArg some (Function.update_self ..))
  unfold Heap.setEntry HashTable.assign
  dsimp only
  cases (s.heap.dicts.data dict).get text with
  | none => exact ⟨hset _, hstrings⟩
  | some old => exact ⟨hset _, hstrings⟩

theorem dictData_deleteEntry (h : s.dictData dict = some t) :
    ({ s with heap := s.heap.deleteEntry dict text } : State).dictData dict =
      some (t.remove text) := by
  obtain ⟨hlive, ht⟩ := Option.ite_none_right_eq_some.mp h
  cases ht
  exact (if_pos hlive).trans (congrArg some (Function.update_self ..))

variable (hd : s.dictData dict = some t) (hk : s.stringData key = some text)
  (hlen : text.length ≤ vmKeyMax) (hroom : s.vm.stackTop + 3 ≤ vmStackMax)
include hd hk hlen hroom

theorem run_set (v : AerVal) : ∃ u, ((Access.set key v).program dict).run (exec cfg) s =
    .done .null u ∧ Accessed s dict (t.assign text v) u := by
  let vs : List AerVal := [.dict dict, .string key, v]
  let w := (s.withOperands vs).dropped 3
  have hv : pop.run (exec cfg) (s.withOperands vs) = .done v ((s.withOperands vs).dropped 1) :=
    run_pop_operand cfg vs (n := 0) (i := 2) rfl rfl
  have hidx : pop.run (exec cfg) ((s.withOperands vs).dropped 1) =
      .done (.string key) ((s.withOperands vs).dropped 2) :=
    run_pop_operand cfg vs (i := 1) rfl rfl
  have hobj : pop.run (exec cfg) ((s.withOperands vs).dropped 2) = .done (.dict dict) w :=
    run_pop_operand cfg vs (i := 0) rfl rfl
  have hset : lblIndexSet.run (exec cfg) (s.withOperands vs) =
      .done () { w with heap := s.heap.setEntry dict text v } := by
    unfold lblIndexSet
    rw [run_bind, hv, Outcome.done_andThen, run_bind, hidx, Outcome.done_andThen, run_bind, hobj,
      Outcome.done_andThen]
    dsimp only
    rw [run_bind, run_string cfg (s := w) hk, Outcome.done_andThen, if_neg (Nat.not_lt.mpr hlen)]
    rfl
  obtain ⟨htable, hstrings⟩ := dictData_setEntry hd text v
  refine ⟨{ w with heap := s.heap.setEntry dict text v }, ?_, htable, fun c => ?_, rfl, rfl⟩
  · unfold Access.program
    rw [run_bind, run_pushAll_self cfg _ hroom, Outcome.done_andThen, run_bind, hset]
    rfl
  · unfold State.stringData
    rw [hstrings]

theorem run_get : ∃ u, ((Access.get key).program dict).run (exec cfg) s =
    .done ((t.get text).getD .null) u ∧ Accessed s dict t u := by
  let vs : List AerVal := [.dict dict, .string key]
  let w := (s.withOperands vs).dropped 2
  have hidx : pop.run (exec cfg) (s.withOperands vs) =
      .done (.string key) ((s.withOperands vs).dropped 1) :=
    run_pop_operand cfg vs (n := 0) (i := 1) rfl rfl
  have hobj : pop.run (exec cfg) ((s.withOperands vs).dropped 1) = .done (.dict dict) w :=
    run_pop_operand cfg vs (i := 0) rfl rfl
  have hget : (vmIndexGetCompute (.dict dict) (.string key)).run (exec cfg) w =
      .done ((t.get text).getD .null) w := by
    unfold vmIndexGetCompute
    dsimp only
    rw [run_bind, run_string cfg (s := w) hk, Outcome.done_andThen, if_neg (Nat.not_lt.mpr hlen),
      run_bind, run_dict cfg (s := w) hd]
    rfl
  have hindex : lblIndexGet.run (exec cfg) (s.withOperands vs) =
      (push ((t.get text).getD .null)).run (exec cfg) w := by
    unfold lblIndexGet
    rw [run_bind, hidx, Outcome.done_andThen, run_bind, hobj, Outcome.done_andThen, run_bind, hget,
      Outcome.done_andThen]
  obtain ⟨stack, hrun⟩ := run_operands cfg (show s.vm.stackTop + 2 ≤ vmStackMax by omega) hindex
    (show s.vm.stackTop < vmStackMax by omega)
  exact ⟨_, hrun, hd, fun c => rfl, rfl, rfl⟩

theorem run_isIn : ∃ u, ((Access.isIn key).program dict).run (exec cfg) s =
    .done (.boolean (t.get text).isSome) u ∧ Accessed s dict t u := by
  let vs : List AerVal := [.string key, .dict dict]
  let w := (s.withOperands vs).dropped 2
  have hb : pop.run (exec cfg) (s.withOperands vs) =
      .done (.dict dict) ((s.withOperands vs).dropped 1) :=
    run_pop_operand cfg vs (n := 0) (i := 1) rfl rfl
  have ha : pop.run (exec cfg) ((s.withOperands vs).dropped 1) = .done (.string key) w :=
    run_pop_operand cfg vs (i := 0) rfl rfl
  have hin : (vmBinary (.string key) (.dict dict) .isIn).run (exec cfg) w =
      .done (.boolean (t.get text).isSome) w := by
    change (vmIn (.string key) (.dict dict)).run (exec cfg) w = _
    unfold vmIn
    dsimp only
    rw [run_bind, run_string cfg (s := w) hk, Outcome.done_andThen, if_neg (Nat.not_lt.mpr hlen),
      run_bind, run_dict cfg (s := w) hd]
    rfl
  have hbinary : (lblBinary .isIn).run (exec cfg) (s.withOperands vs) =
      (push (.boolean (t.get text).isSome)).run (exec cfg) w := by
    unfold lblBinary
    rw [run_bind, hb, Outcome.done_andThen, run_bind, ha, Outcome.done_andThen, run_bind, hin,
      Outcome.done_andThen]
  obtain ⟨stack, hrun⟩ := run_operands cfg (show s.vm.stackTop + 2 ≤ vmStackMax by omega) hbinary
    (show s.vm.stackTop < vmStackMax by omega)
  exact ⟨_, hrun, hd, fun c => rfl, rfl, rfl⟩

theorem run_delete : ∃ u, ((Access.delete key).program dict).run (exec cfg) s =
    .done (.dict dict) u ∧ Accessed s dict (t.remove text) u := by
  let vs : List AerVal := [.dict dict, .string key]
  let w := (s.withOperands vs).dropped 2
  have hkey : pop.run (exec cfg) (s.withOperands vs) =
      .done (.string key) ((s.withOperands vs).dropped 1) :=
    run_pop_operand cfg vs (n := 0) (i := 1) rfl rfl
  have hobj : pop.run (exec cfg) ((s.withOperands vs).dropped 1) = .done (.dict dict) w :=
    run_pop_operand cfg vs (i := 0) rfl rfl
  have hargs : (popArgs 2).run (exec cfg) (s.withOperands vs) = .done vs w := by
    unfold popArgs
    rw [run_bind, hkey, Outcome.done_andThen, run_bind]
    unfold popArgs
    rw [run_bind, hobj]
    rfl
  have hdelete : (builtinDelete (.dict dict) (.string key)).run (exec cfg) w =
      .done (.dict dict) { w with heap := s.heap.deleteEntry dict text } := by
    unfold builtinDelete
    dsimp only
    rw [run_bind, run_string cfg (s := w) hk, Outcome.done_andThen, if_neg (Nat.not_lt.mpr hlen)]
    rfl
  have hcall : (callUnbound (bytes "delete") 2).run (exec cfg) (s.withOperands vs) =
      (push (.dict dict)).run (exec cfg) { w with heap := s.heap.deleteEntry dict text } := by
    have hzero : (perform (.newInt 0)).run (exec cfg) w = .done (.integer ⟨0, by decide⟩) w := rfl
    have hchain (v : AerVal) : runBuiltin v (bytes "delete") vs =
        builtinDelete (.dict dict) (.string key) := by
      unfold runBuiltin
      exact if_pos rfl
    unfold callUnbound
    rw [if_pos (by decide), run_bind, hargs, Outcome.done_andThen, run_bind, hzero,
      Outcome.done_andThen, run_bind, hchain, hdelete, Outcome.done_andThen]
  obtain ⟨stack, hrun⟩ := run_operands cfg (show s.vm.stackTop + 2 ≤ vmStackMax by omega) hcall
    (show s.vm.stackTop < vmStackMax by omega)
  exact ⟨_, hrun, dictData_deleteEntry hd, fun c => rfl, rfl, rfl⟩

/-- What an access answers and does. -/
theorem run_access (a : Access) (ha : a.key = key) :
    ∃ u, (a.program dict).run (exec cfg) s = .done (a.answer dict text t) u ∧
      Accessed s dict (a.table text t) u := by
  subst ha
  cases a with
  | set key v => exact run_set cfg hd hk hlen hroom v
  | get key => exact run_get cfg hd hk hlen hroom
  | isIn key => exact run_isIn cfg hd hk hlen hroom
  | delete key => exact run_delete cfg hd hk hlen hroom

end Runs

/-! Two keys. -/

/-- The answer of a program, if it comes to one. -/
def State.answer (s : State) (cfg : Config) (p : Handler AerVal) : Option AerVal :=
  match p.run (exec cfg) s with
  | .done v _ => some v
  | .stop _ _ => none

/-- What `d[k]` and `k in d` report. -/
def State.reports (s : State) (cfg : Config) (dict key : Nat) : Option AerVal × Option AerVal :=
  (s.answer cfg ((Access.get key).program dict), s.answer cfg ((Access.isIn key).program dict))

/-- The table of the dict is below the size at which it can fill up. -/
def State.Unfilled (s : State) (dict : Nat) : Prop :=
  ∀ t, s.dictData dict = some t → t.count < HashTable.maxCapacity

/-- Any sequence of accesses with the two keys. -/
inductive Accesses (cfg : Config) (dict j k : Nat) : State → State → Prop
  | refl (s : State) : Accesses cfg dict j k s s
  | step {s u w : State} {a : Access} {v : AerVal} (h : Accesses cfg dict j k s u)
      (hroom : u.Unfilled dict) (ha : a.key = j ∨ a.key = k)
      (hrun : (a.program dict).run (exec cfg) u = .done v w) : Accesses cfg dict j k s w

/-- Every access with the key `j` goes through, leaves what is reported for `k`, and a value set is
the one read. -/
def Independent (cfg : Config) (dict j k : Nat) (s : State) : Prop :=
  ∀ a : Access, a.key = j → ∃ v u, (a.program dict).run (exec cfg) s = .done v u ∧
    u.reports cfg dict k = s.reports cfg dict k ∧
    ∀ w, a = .set j w → (u.reports cfg dict j).1 = some w

/-- The dict has the table `t`, and the strings of the keys have the texts. -/
structure Keyed (dict j k : Nat) (x y : Bytes) (t : HashTable AerVal) (s : State) : Prop where
  table : s.dictData dict = some t
  first : s.stringData j = some x
  second : s.stringData k = some y
  room : s.vm.stackTop + 3 ≤ vmStackMax

section Keys
variable (cfg : Config) {s : State} {dict j k : Nat} {t : HashTable AerVal} {x y : Bytes}

theorem Keyed.symm (h : Keyed dict j k x y t s) : Keyed dict k j y x t s :=
  ⟨h.table, h.second, h.first, h.room⟩

theorem Keyed.accessed (h : Keyed dict j k x y t s) {t' : HashTable AerVal} {u : State}
    (hu : Accessed s dict t' u) : Keyed dict j k x y t' u :=
  ⟨hu.table, (hu.strings j).trans h.first, (hu.strings k).trans h.second, hu.stackTop ▸ h.room⟩

theorem Keyed.reports (h : Keyed dict j k x y t s) (hx : x.length ≤ vmKeyMax) :
    s.reports cfg dict j = (some ((t.get x).getD .null), some (.boolean (t.get x).isSome)) := by
  obtain ⟨u, hget, -⟩ := run_get cfg h.table h.first hx h.room
  obtain ⟨w, hin, -⟩ := run_isIn cfg h.table h.first hx h.room
  unfold State.reports State.answer
  rw [hget, hin]

theorem Keyed.unfilled (h : Keyed dict j k x y t s) : s.Unfilled dict ↔ t.count < HashTable.maxCapacity := by
  unfold State.Unfilled
  rw [h.table]
  constructor
  · intro hroom
    exact hroom t rfl
  · rintro hroom _ ⟨⟩
    exact hroom

/-- What an access with `x` leaves under any key. -/
theorem get_table (ht : t.WellFormed) (hroom : t.count < HashTable.maxCapacity) (a : Access)
    (hxy : cString y ≠ cString x) : (a.table x t).get y = t.get y := by
  cases a with
  | set key v => exact (ht.get_assign hroom x y v).trans (if_neg hxy)
  | get _ => rfl
  | isIn _ => rfl
  | delete _ => exact (ht.get_remove hroom x y).trans (if_neg hxy)

theorem Access.built_table (ht : t.Built) (hroom : t.count < HashTable.maxCapacity) (a : Access) :
    (a.table x t).Built := by
  cases a with
  | set key v => exact ht.assign hroom x v
  | get _ => exact ht
  | isIn _ => exact ht
  | delete _ => exact ht.remove hroom x

theorem Keyed.independent (h : Keyed dict j k x y t s) (ht : t.WellFormed)
    (hroom : t.count < HashTable.maxCapacity) (hx : x.length ≤ vmKeyMax) (hy : y.length ≤ vmKeyMax)
    (hxy : cString x ≠ cString y) : Independent cfg dict j k s := by
  intro a ha
  obtain ⟨u, hrun, hu⟩ := run_access cfg h.table h.first hx h.room a ha
  have hkeyed := h.accessed hu
  refine ⟨_, u, hrun, ?_, ?_⟩
  · rw [hkeyed.symm.reports cfg hy, h.symm.reports cfg hy, get_table ht hroom a hxy.symm]
  · rintro w rfl
    rw [hkeyed.reports cfg hx]
    change some (((t.assign x w).get x).getD .null) = some w
    rw [ht.get_assign hroom, if_pos rfl]
    rfl

/-- A sequence of accesses keeps the dict a table and the keys. -/
theorem Accesses.keyed {u : State} (hrun : Accesses cfg dict j k s u) (h : Keyed dict j k x y t s)
    (ht : t.Built) (hx : x.length ≤ vmKeyMax) (hy : y.length ≤ vmKeyMax) :
    ∃ t', Keyed dict j k x y t' u ∧ t'.Built := by
  induction hrun with
  | refl => exact ⟨t, h, ht⟩
  | @step _ _ a _ _ hroom ha hstep ih =>
    obtain ⟨t', h', ht'⟩ := ih
    have hcount := h'.unfilled.mp hroom
    rcases ha with ha | ha
    · obtain ⟨w', hrun, hw⟩ := run_access cfg h'.table h'.first hx h'.room a ha
      rw [hstep] at hrun
      cases hrun
      exact ⟨_, h'.accessed hw, Access.built_table ht' hcount a⟩
    · obtain ⟨w', hrun, hw⟩ := run_access cfg h'.table h'.second hy h'.room a ha
      rw [hstep] at hrun
      cases hrun
      exact ⟨_, h'.accessed hw, Access.built_table ht' hcount a⟩

/-- Keys that the table does not tell apart: a value set under the one is read under the other. -/
theorem Keyed.not_independent (h : Keyed dict j k x y t s) (ht : t.WellFormed)
    (hroom : t.count < HashTable.maxCapacity) (hx : x.length ≤ vmKeyMax) (hy : y.length ≤ vmKeyMax)
    (hxy : cString x = cString y) : ¬ Independent cfg dict j k s := by
  intro hind
  -- One of the two booleans is not what is read now.
  obtain ⟨b, hb⟩ : ∃ b, (t.get y).getD .null ≠ AerVal.boolean b := by
    by_cases htrue : (t.get y).getD .null = .boolean true
    · exact ⟨false, by rw [htrue]; decide⟩
    · exact ⟨true, htrue⟩
  obtain ⟨v, u, hrun, hsame, -⟩ := hind (.set j (.boolean b)) rfl
  obtain ⟨u', hrun', hu⟩ := run_set cfg h.table h.first hx h.room (.boolean b)
  rw [hrun] at hrun'
  cases hrun'
  rw [(h.accessed hu).symm.reports cfg hy, h.symm.reports cfg hy, ht.get_assign hroom,
    if_pos hxy.symm] at hsame
  exact hb (Option.some.inj (congrArg Prod.fst hsame)).symm

/-- The accesses with one key never change what is reported for the other exactly when the two
differ before their first NUL. -/
theorem keys_independent_iff (h : Keyed dict j k x y t s) (ht : t.Built)
    (hroom : t.count < HashTable.maxCapacity) (hx : x.length ≤ vmKeyMax)
    (hy : y.length ≤ vmKeyMax) :
    (∀ u, Accesses cfg dict j k s u → u.Unfilled dict →
        Independent cfg dict j k u ∧ Independent cfg dict k j u) ↔ cString x ≠ cString y := by
  constructor
  · intro hind hxy
    exact h.not_independent cfg ht.wellFormed hroom hx hy hxy
      (hind s (.refl s) (h.unfilled.mpr hroom)).1
  · intro hxy u hu huroom
    obtain ⟨t', h', ht'⟩ := hu.keyed cfg h ht hx hy
    have hcount := h'.unfilled.mp huroom
    exact ⟨h'.independent cfg ht'.wellFormed hcount hx hy hxy,
      h'.symm.independent cfg ht'.wellFormed hcount hy hx hxy.symm⟩

end Keys

/-- An empty dict and two strings. -/
def holdingKeys (x y : Bytes) : State :=
  { State.init with
    heap := (((Heap.init.aerMakeString x).2.aerMakeString y).2.newDict .empty).2 }

theorem keys_independent_iff_letters :
    (∀ u, Accesses {} 0 0 1 (holdingKeys (bytes "a") (bytes "b")) u → u.Unfilled 0 →
        Independent {} 0 0 1 u ∧ Independent {} 0 1 0 u) ↔ cString (bytes "a") ≠ cString (bytes "b") :=
  keys_independent_iff {} (t := .empty)
    ⟨by decide +kernel, by decide +kernel, by decide +kernel, by decide⟩ .empty (by decide) (by decide)
    (by decide)

/-- `d["a\0b"] = 1` and then `d["a\0c"] = 2`: the first key has the second value. -/
theorem keys_cut :
    let s := holdingKeys (bytes "a\x00b") (bytes "a\x00c")
    let first := (Access.set 0 (.integer ⟨1, by decide⟩)).program 0
    let second := (Access.set 1 (.integer ⟨2, by decide⟩)).program 0
    let read := (Access.get 0).program 0
    bytes "a\x00b" ≠ bytes "a\x00c" ∧
      s.answer {} (do let _ ← first; read) = some (.integer ⟨1, by decide⟩) ∧
      s.answer {} (do let _ ← first; let _ ← second; read) = some (.integer ⟨2, by decide⟩) := by
  decide +kernel

end Aer.Machine
