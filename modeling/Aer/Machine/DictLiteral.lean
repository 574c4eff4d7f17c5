import Aer.Machine.DictAccess
import Aer.Memory.Growth

set_option linter.all false

/-! A dict literal against the assignments it stands for. The literal pops its pairs from
the last to the first, and a put overwrites, so the first pair with a key stays; of the
assignments it is the last. -/
namespace Aer.Machine

open Aer.Data Aer.Memory Aer.Lib.Interaction

/-- A pair of a literal, the expressions evaluated: the cell of its key and its value. -/
abbrev Pair := Nat × AerVal

/-! The tables. -/

section Tables
variable (text : Nat → Bytes)

/-- The value of the first pair with a key. -/
def firstValue (ps : List Pair) (x : Bytes) : Option AerVal :=
  (ps.find? fun p => cString (text p.1) == cString x).map Prod.snd

/-- The value of the last pair with a key. -/
def lastValue (ps : List Pair) (x : Bytes) : Option AerVal := firstValue text ps.reverse x

def putAll (ps : List Pair) : HashTable AerVal :=
  ps.foldr (fun p t => t.put (text p.1) p.2) .empty

def assignAll (ps : List Pair) (t : HashTable AerVal) : HashTable AerVal :=
  ps.foldl (fun t p => t.assign (text p.1) p.2) t

theorem firstValue_cons (p : Pair) (ps : List Pair) (x : Bytes) :
    firstValue text (p :: ps) x =
      if cString x = cString (text p.1) then some p.2 else firstValue text ps x := by
  unfold firstValue
  rw [List.find?_cons]
  by_cases h : cString x = cString (text p.1)
  · rw [if_pos h, beq_iff_eq.mpr h.symm]
    rfl
  · rw [if_neg h, beq_eq_false_iff_ne.mpr (Ne.symm h)]

theorem lastValue_append (ps : List Pair) (p : Pair) (x : Bytes) :
    lastValue text (ps ++ [p]) x =
      if cString x = cString (text p.1) then some p.2 else lastValue text ps x := by
  unfold lastValue
  rw [List.reverse_append, List.reverse_singleton, List.singleton_append, firstValue_cons]

theorem assignAll_append (ps : List Pair) (p : Pair) (t : HashTable AerVal) :
    assignAll text (ps ++ [p]) t = (assignAll text ps t).assign (text p.1) p.2 := by
  unfold assignAll
  rw [List.foldl_append]
  rfl

/-- A table holds what a function says, in at most `n` entries. -/
structure Holds (t : HashTable AerVal) (n : Nat) (value : Bytes → Option AerVal) : Prop where
  wellFormed : t.WellFormed
  count : t.count ≤ n
  get : ∀ x, t.get x = value x

theorem holds_empty : Holds .empty 0 fun _ => none :=
  ⟨.empty, Nat.le_refl _, fun _ => rfl⟩

theorem count_assign_le {t : HashTable AerVal} (h : t.WellFormed)
    (hroom : t.count < HashTable.maxCapacity) (key : Bytes) (v : AerVal) :
    (t.assign key v).count ≤ t.count + 1 := by
  unfold HashTable.assign
  cases t.get key with
  | none => exact (h.put hroom key v).count_le
  | some old =>
    dsimp only
    unfold HashTable.insert
    split
    · exact Nat.le_succ _
    · split
      · exact Nat.le_succ _
      · exact Nat.le_refl _

theorem holds_putAll {ps : List Pair} (hroom : ps.length ≤ HashTable.maxCapacity) :
    Holds (putAll text ps) ps.length (firstValue text ps) := by
  induction ps with
  | nil => exact holds_empty
  | cons p ps ih =>
    rw [List.length_cons] at hroom ⊢
    obtain ⟨hwf, hcount, hget⟩ := ih (by omega)
    have hput := hwf.put (by omega) (text p.1) p.2
    have hassigned : HashTable.Assigned (putAll text ps) (text p.1) p.2 (putAll text (p :: ps)) :=
      ⟨hput.wellFormed, hput.mem⟩
    refine ⟨hput.wellFormed, hput.count_le.trans (by omega), fun x => ?_⟩
    rw [hassigned.get hwf, firstValue_cons, hget]

theorem holds_assignAll {ps : List Pair} (hroom : ps.length ≤ HashTable.maxCapacity) :
    Holds (assignAll text ps .empty) ps.length (lastValue text ps) := by
  induction ps using List.reverseRecOn with
  | nil => exact holds_empty
  | append_singleton ps p ih =>
    rw [List.length_append, List.length_singleton] at hroom ⊢
    obtain ⟨hwf, hcount, hget⟩ := ih (by omega)
    have hlt : (assignAll text ps .empty).count < HashTable.maxCapacity := by omega
    rw [assignAll_append]
    refine ⟨(hwf.assign hlt _ _).wellFormed, (count_assign_le hwf hlt _ _).trans (by omega), fun x => ?_⟩
    rw [hwf.get_assign hlt, lastValue_append, hget]

end Tables

/-! The programs. -/

def operands (ps : List Pair) : List AerVal := ps.flatMap fun p => [.string p.1, p.2]

/-- `OP_DICT_NEW` behind its operand. -/
def dictNew (count : Nat) : Handler Unit := do
  push (← perform (.newDict (← popEntries count .empty)))

theorem lblDictNew_eq : lblDictNew = (do dictNew (← perform .readIdx)) := rfl

/-- The literal, with its dict as the answer. -/
def dictLiteral (ps : List Pair) : Handler AerVal := do
  pushAll (operands ps)
  dictNew ps.length
  pop

/-- One assignment after another; the machine stops at the first that reports an error. -/
def dictAssign (dict : Nat) : List Pair → Handler Unit
  | [] => return
  | p :: ps => do
      let _ ← (Access.set p.1 p.2).program dict
      unless ← perform .hadError do dictAssign dict ps

/-- `d = {}` and the assignments to it. -/
def dictAssigned (ps : List Pair) : Handler AerVal := do
  match ← dictLiteral [] with
  | .dict d => do
      dictAssign d ps
      return .dict d
  | v => return v

/-- The table of the dict that a program answers; `none` where it raises an error. -/
def State.made (s : State) (cfg : Config) (p : Handler AerVal) : Option (HashTable AerVal) :=
  match p.run (exec cfg) s with
  | .done (.dict d) u => if u.runtimeHadError then none else u.dictData d
  | _ => none

/-- The literal and the assignments make dicts with the same entries, or both raise an
error. -/
def LiteralAssigns (cfg : Config) (same : AerVal → AerVal → Prop) (s : State) (ps : List Pair) : Prop :=
  Option.Rel (fun t t' => ∀ x, Option.Rel same (t.get x) (t'.get x))
    (s.made cfg (dictLiteral ps)) (s.made cfg (dictAssigned ps))

/-- The operands of the literal find room on the stack. -/
def LiteralFits (s : State) (ps : List Pair) : Prop :=
  s.vm.stackTop + max 1 (2 * ps.length) ≤ vmStackMax

/-- Each assignment finds room on the stack, and no key is too long. -/
def AssignmentsFit (text : Nat → Bytes) (s : State) (ps : List Pair) : Prop :=
  s.vm.stackTop + 1 ≤ vmStackMax ∧
    ∀ p ∈ ps, s.vm.stackTop + 3 ≤ vmStackMax ∧ (text p.1).length ≤ vmKeyMax

instance (s : State) (ps : List Pair) : Decidable (LiteralFits s ps) :=
  inferInstanceAs (Decidable (_ ≤ _))

instance (text : Nat → Bytes) (s : State) (ps : List Pair) : Decidable (AssignmentsFit text s ps) :=
  inferInstanceAs (Decidable (_ ∧ _))

/-! The runs. -/

section Operands

theorem length_operands (ps : List Pair) : (operands ps).length = 2 * ps.length := by
  induction ps with
  | nil => rfl
  | cons p ps ih =>
    change (operands ps).length + 2 = 2 * (ps.length + 1)
    omega

theorem operands_getElem? (ps : List Pair) (j : Nat) :
    (operands ps)[2 * j]? = ps[j]?.map (fun p => AerVal.string p.1) ∧
      (operands ps)[2 * j + 1]? = ps[j]?.map Prod.snd := by
  induction ps generalizing j with
  | nil => exact ⟨rfl, rfl⟩
  | cons p ps ih =>
    cases j with
    | zero => exact ⟨rfl, rfl⟩
    | succ j => exact ih j

end Operands

section Runs
variable (cfg : Config) {s : State} {text : Nat → Bytes} {ps : List Pair}
  (hkeys : ∀ p ∈ ps, s.stringData p.1 = some (text p.1))
include hkeys

/-- The pairs come off the stack from the last to the first. -/
theorem run_popEntries {j k : Nat} (d : HashTable AerVal) (hj : j + k = ps.length) :
    (popEntries j d).run (exec cfg) ((s.withOperands (operands ps)).dropped (2 * k)) =
      .done ((ps.take j).foldr (fun p t => t.put (text p.1) p.2) d)
        ((s.withOperands (operands ps)).dropped (2 * ps.length)) := by
  induction j generalizing k d with
  | zero =>
    rw [show k = ps.length by omega]
    rfl
  | succ j ih =>
    have hlt : j < ps.length := by omega
    have hlen := length_operands ps
    obtain ⟨hkey, hval⟩ := operands_getElem? ps j
    rw [List.getElem?_eq_getElem hlt] at hkey hval
    have htext := hkeys ps[j] (List.getElem_mem hlt)
    have hrest := ih (k := k + 1) (d.put (text ps[j].1) ps[j].2) (by omega)
    unfold popEntries
    rw [run_bind, run_pop_operand cfg _ hval (by omega), Outcome.done_andThen, run_bind,
      run_pop_operand cfg _ hkey (by omega), Outcome.done_andThen]
    dsimp only
    rw [run_bind, run_string cfg (s := (s.withOperands (operands ps)).dropped (2 * k + 1 + 1)) htext,
      Outcome.done_andThen]
    rw [List.take_succ_eq_append_getElem hlt, List.foldr_append]
    exact hrest

/-- A literal that fits makes its dict. -/
theorem run_dictLiteral (hw : s.heap.PoolsWf) (hfits : LiteralFits s ps) :
    ∃ d u, (dictLiteral ps).run (exec cfg) s = .done (.dict d) u ∧
      Accessed s d (putAll text ps) u := by
  let w := (s.withOperands (operands ps)).dropped (2 * ps.length)
  let t := putAll text ps
  have hlen := length_operands ps
  unfold LiteralFits at hfits
  have htop : w.vm.stackTop = s.vm.stackTop := by
    change s.vm.stackTop + (operands ps).length - 2 * ps.length = _
    omega
  have hentries := run_popEntries cfg hkeys (j := ps.length) (k := 0) .empty (Nat.add_zero _)
  rw [List.take_length] at hentries
  have hnew : (dictNew ps.length).run (exec cfg) (s.withOperands (operands ps)) =
      (push (s.heap.newDict t).1).run (exec cfg) { w with heap := (s.heap.newDict t).2 } := by
    unfold dictNew
    rw [run_bind]
    change ((popEntries ps.length .empty).run (exec cfg)
      ((s.withOperands (operands ps)).dropped (2 * 0))).andThen _ = _
    rw [hentries]
    rfl
  obtain ⟨stack, hrun⟩ := run_operands cfg (by omega) hnew
    (show w.vm.stackTop < vmStackMax by omega)
  have hfresh := hw.dicts.alloc_fresh t
  refine ⟨(s.heap.dicts.alloc t).1, _, hrun, ?_, fun c => rfl, htop, rfl⟩
  exact (if_pos ((hfresh.live _).mpr (.inl rfl))).trans (congrArg some hfresh.data_self)

omit hkeys in
/-- A literal that does not fit stops the machine. -/
theorem run_dictLiteral_full (hfits : ¬ LiteralFits s ps) (htop : s.vm.stackTop ≤ vmStackMax) :
    ∃ u, (dictLiteral ps).run (exec cfg) s = .stop .failed u := by
  have hlen := length_operands ps
  unfold LiteralFits at hfits
  unfold dictLiteral
  rw [run_bind]
  cases ps with
  | nil =>
    refine ⟨({ s with heap := (s.heap.newDict .empty).2 } : State).addError (bytes "Stack overflow"), ?_⟩
    have hfull : ¬ s.vm.stackTop < vmStackMax := fun h => hfits h
    have hpush : (push (s.heap.newDict .empty).1).run (exec cfg)
        { s with heap := (s.heap.newDict .empty).2 } = .stop .failed
          (({ s with heap := (s.heap.newDict .empty).2 } : State).addError (bytes "Stack overflow")) :=
      (run_perform _ _ _).trans (if_neg hfull)
    have hnew : (dictNew 0).run (exec cfg) s = (push (s.heap.newDict .empty).1).run (exec cfg)
        { s with heap := (s.heap.newDict .empty).2 } := by
      unfold dictNew
      rw [run_bind]
      rfl
    change ((dictNew 0 >>= fun _ => pop).run (exec cfg) s) = _
    rw [run_bind, hnew, hpush]
    rfl
  | cons p ps =>
    rw [List.length_cons] at hfits hlen
    obtain ⟨u, hu⟩ := run_pushAll_full cfg s [] (operands (p :: ps)) (by simpa using htop)
      (by rw [List.length_nil]; omega)
    rw [s.withOperands_nil] at hu
    rw [hu]
    exact ⟨u, rfl⟩

omit hkeys in
/-- A long key is refused. -/
theorem run_set_long {dict key : Nat} {x : Bytes} (v : AerVal) (hk : s.stringData key = some x)
    (hlen : vmKeyMax < x.length) (hroom : s.vm.stackTop + 3 ≤ vmStackMax) :
    ∃ u, ((Access.set key v).program dict).run (exec cfg) s = .done .null u ∧
      u.runtimeHadError = true := by
  let vs : List AerVal := [.dict dict, .string key, v]
  let w := (s.withOperands vs).dropped 3
  have hv : pop.run (exec cfg) (s.withOperands vs) = .done v ((s.withOperands vs).dropped 1) :=
    run_pop_operand cfg vs (n := 0) (i := 2) rfl rfl
  have hidx : pop.run (exec cfg) ((s.withOperands vs).dropped 1) =
      .done (.string key) ((s.withOperands vs).dropped 2) :=
    run_pop_operand cfg vs (i := 1) rfl rfl
  have hobj : pop.run (exec cfg) ((s.withOperands vs).dropped 2) = .done (.dict dict) w :=
    run_pop_operand cfg vs (i := 0) rfl rfl
  have hset : ∃ u, lblIndexSet.run (exec cfg) (s.withOperands vs) = .done () u ∧
      u.runtimeHadError = true := by
    unfold lblIndexSet
    rw [run_bind, hv, Outcome.done_andThen, run_bind, hidx, Outcome.done_andThen, run_bind, hobj,
      Outcome.done_andThen]
    dsimp only
    rw [run_bind, run_string cfg (s := w) hk, Outcome.done_andThen, if_pos hlen]
    exact ⟨_, run_perform _ _ _, rfl⟩
  obtain ⟨u, hset, hu⟩ := hset
  refine ⟨u, ?_, hu⟩
  unfold Access.program
  rw [run_bind, run_pushAll_self cfg _ hroom, Outcome.done_andThen, run_bind, hset]
  rfl

/-- Assignments that fit write their pairs one after another. -/
theorem run_dictAssign {dict : Nat} {t : HashTable AerVal} {u : State} (hu : Accessed s dict t u)
    (hclear : s.runtimeHadError = false)
    (hfit : ∀ p ∈ ps, s.vm.stackTop + 3 ≤ vmStackMax ∧ (text p.1).length ≤ vmKeyMax) :
    ∃ w, (dictAssign dict ps).run (exec cfg) u = .done () w ∧
      Accessed s dict (assignAll text ps t) w := by
  induction ps generalizing t u with
  | nil => exact ⟨u, rfl, hu⟩
  | cons p ps ih =>
    obtain ⟨⟨hroom, hlen⟩, hfit⟩ := List.forall_mem_cons.mp hfit
    obtain ⟨hkey, hkeys⟩ := List.forall_mem_cons.mp hkeys
    obtain ⟨w, hset, hw⟩ := run_set cfg hu.table ((hu.strings _).trans hkey) hlen
      (hu.stackTop ▸ hroom) p.2
    have hnext : Accessed s dict (t.assign (text p.1) p.2) w :=
      ⟨hw.table, fun c => (hw.strings c).trans (hu.strings c), hw.stackTop.trans hu.stackTop,
        hw.hadError.trans hu.hadError⟩
    have hflag : w.runtimeHadError = false := hnext.hadError.trans hclear
    obtain ⟨z, hrun, hz⟩ := ih hkeys hnext hfit
    refine ⟨z, ?_, hz⟩
    unfold dictAssign
    rw [run_bind, hset, Outcome.done_andThen, run_bind]
    change (Outcome.done w.runtimeHadError w).andThen _ = _
    rw [Outcome.done_andThen, hflag]
    exact hrun

/-- Of assignments that do not fit one raises an error. -/
theorem run_dictAssign_failed {dict : Nat} {t : HashTable AerVal} {u : State}
    (hu : Accessed s dict t u) (hclear : s.runtimeHadError = false) (htop : s.vm.stackTop ≤ vmStackMax)
    (hfit : ¬ ∀ p ∈ ps, s.vm.stackTop + 3 ≤ vmStackMax ∧ (text p.1).length ≤ vmKeyMax) :
    (∃ w, (dictAssign dict ps).run (exec cfg) u = .done () w ∧ w.runtimeHadError = true) ∨
      ∃ w, (dictAssign dict ps).run (exec cfg) u = .stop .failed w := by
  induction ps generalizing t u with
  | nil => exact absurd (fun p hp => by cases hp) hfit
  | cons p ps ih =>
    obtain ⟨hkey, hkeys⟩ := List.forall_mem_cons.mp hkeys
    have hkey' := (hu.strings _).trans hkey
    unfold dictAssign
    rw [run_bind]
    by_cases hroom : s.vm.stackTop + 3 ≤ vmStackMax
    · have hroom' : u.vm.stackTop + 3 ≤ vmStackMax := hu.stackTop ▸ hroom
      by_cases hlen : (text p.1).length ≤ vmKeyMax
      · obtain ⟨w, hset, hw⟩ := run_set cfg hu.table hkey' hlen hroom' p.2
        have hnext : Accessed s dict (t.assign (text p.1) p.2) w :=
          ⟨hw.table, fun c => (hw.strings c).trans (hu.strings c), hw.stackTop.trans hu.stackTop,
            hw.hadError.trans hu.hadError⟩
        have hflag : w.runtimeHadError = false := hnext.hadError.trans hclear
        rw [hset, Outcome.done_andThen, run_bind]
        change (∃ z, (Outcome.done w.runtimeHadError w).andThen _ = _ ∧ _) ∨
          ∃ z, (Outcome.done w.runtimeHadError w).andThen _ = _
        rw [Outcome.done_andThen, hflag]
        exact ih hkeys hnext fun h => hfit (List.forall_mem_cons.mpr ⟨⟨hroom, hlen⟩, h⟩)
      · obtain ⟨w, hset, hflag⟩ := run_set_long cfg p.2 hkey' (Nat.not_le.mp hlen) hroom'
        refine .inl ⟨w, ?_, hflag⟩
        rw [hset, Outcome.done_andThen, run_bind]
        change (Outcome.done w.runtimeHadError w).andThen _ = _
        rw [Outcome.done_andThen, hflag]
        rfl
    · obtain ⟨w, hw⟩ := run_pushAll_full cfg u [] [.dict dict, .string p.1, p.2]
        (by simpa [hu.stackTop] using htop)
        (by
          rw [hu.stackTop]
          simp only [List.length_cons, List.length_nil]
          omega)
      rw [u.withOperands_nil] at hw
      refine .inr ⟨w, ?_⟩
      unfold Access.program
      rw [run_bind, hw]
      rfl

end Runs

/-! What they make. -/

section Made
variable (cfg : Config) {s : State} {text : Nat → Bytes} {ps : List Pair}
  (hkeys : ∀ p ∈ ps, s.stringData p.1 = some (text p.1)) (hw : s.heap.PoolsWf)
  (hclear : s.runtimeHadError = false) (htop : s.vm.stackTop ≤ vmStackMax)
include hkeys hw hclear htop

theorem made_dictLiteral : s.made cfg (dictLiteral ps) =
    if LiteralFits s ps then some (putAll text ps) else none := by
  unfold State.made
  split_ifs with hfits
  · obtain ⟨d, u, hrun, hu⟩ := run_dictLiteral cfg hkeys hw hfits
    rw [hrun]
    dsimp only
    rw [hu.hadError, hclear]
    exact hu.table
  · obtain ⟨u, hrun⟩ := run_dictLiteral_full cfg hfits htop
    rw [hrun]

theorem made_dictAssigned : s.made cfg (dictAssigned ps) =
    if AssignmentsFit text s ps then some (assignAll text ps .empty) else none := by
  unfold State.made dictAssigned
  rw [run_bind]
  by_cases hempty : LiteralFits s []
  · have hnone : ∀ p ∈ ([] : List Pair), s.stringData p.1 = some (text p.1) := fun p hp => nomatch hp
    obtain ⟨d, u, hrun, hu⟩ := run_dictLiteral cfg hnone hw hempty
    rw [hrun, Outcome.done_andThen]
    dsimp only
    rw [run_bind]
    by_cases hfit : ∀ p ∈ ps, s.vm.stackTop + 3 ≤ vmStackMax ∧ (text p.1).length ≤ vmKeyMax
    · obtain ⟨w, hassign, hw⟩ := run_dictAssign cfg hkeys hu hclear hfit
      rw [hassign, if_pos ⟨hempty, hfit⟩]
      change (if w.runtimeHadError = true then none else w.dictData d) = _
      rw [hw.hadError, hclear]
      exact hw.table
    · rw [if_neg fun h => hfit h.2]
      rcases run_dictAssign_failed cfg hkeys hu hclear htop hfit with ⟨w, hassign, hflag⟩ | ⟨w, hassign⟩
      · rw [hassign]
        exact if_pos hflag
      · rw [hassign]
        rfl
  · obtain ⟨u, hrun⟩ := run_dictLiteral_full cfg hempty htop
    rw [hrun, if_neg fun h => hempty h.1]
    rfl

/-- The literal is its assignments if and only if it fits on the stack just when they can be
made, and for each key the first pair and the last have the same value. -/
theorem literal_assigns_iff (same : AerVal → AerVal → Prop) :
    LiteralAssigns cfg same s ps ↔
      (LiteralFits s ps ↔ AssignmentsFit text s ps) ∧
        (LiteralFits s ps → ∀ x, Option.Rel same (firstValue text ps x) (lastValue text ps x)) := by
  unfold LiteralAssigns
  rw [made_dictLiteral cfg hkeys hw hclear htop, made_dictAssigned cfg hkeys hw hclear htop]
  by_cases hfits : LiteralFits s ps
  · have hroom : ps.length ≤ HashTable.maxCapacity := by
      have hmax : vmStackMax ≤ HashTable.maxCapacity := by decide
      unfold LiteralFits at hfits
      omega
    have hput := (holds_putAll text hroom).get
    have hassign := (holds_assignAll text hroom).get
    rw [if_pos hfits]
    by_cases hfit : AssignmentsFit text s ps
    · rw [if_pos hfit]
      constructor
      · rintro ⟨h⟩
        exact ⟨iff_of_true hfits hfit, fun _ x => hput x ▸ hassign x ▸ h x⟩
      · rintro ⟨-, h⟩
        exact .some fun x => (hput x).symm ▸ (hassign x).symm ▸ h hfits x
    · rw [if_neg hfit]
      constructor
      · rintro ⟨⟩
      · rintro ⟨h, -⟩
        exact absurd (h.mp hfits) hfit
  · rw [if_neg hfits]
    by_cases hfit : AssignmentsFit text s ps
    · rw [if_pos hfit]
      constructor
      · rintro ⟨⟩
      · rintro ⟨h, -⟩
        exact absurd (h.mpr hfit) hfits
    · rw [if_neg hfit]
      exact iff_of_true .none ⟨iff_of_false hfits hfit, fun h => absurd h hfits⟩

end Made

theorem poolsWf_holdingKeys (x y : Bytes) : (holdingKeys x y).heap.PoolsWf := by
  have hx := (Heap.grows_aerMakeString Heap.poolsWf_init x).wf Heap.poolsWf_init
  have hy := (Heap.grows_aerMakeString hx y).wf hx
  exact (Heap.grows_newDict hy .empty).wf hy

theorem literal_assigns_iff_letters :
    let s := holdingKeys (bytes "a") (bytes "b")
    let ps : List Pair := [(0, .integer ⟨1, by decide⟩), (1, .integer ⟨2, by decide⟩)]
    let text : Nat → Bytes := fun c => if c = 0 then bytes "a" else bytes "b"
    LiteralAssigns {} (· = ·) s ps ↔
      (LiteralFits s ps ↔ AssignmentsFit text s ps) ∧
        (LiteralFits s ps → ∀ x, Option.Rel (· = ·) (firstValue text ps x) (lastValue text ps x)) :=
  literal_assigns_iff {} (by decide +kernel) (poolsWf_holdingKeys _ _) (by decide) (by decide) _

/-- What dicts with the same entries hold under a key. -/
theorem LiteralAssigns.get {cfg : Config} {s : State} {ps : List Pair}
    (h : LiteralAssigns cfg (· = ·) s ps) (x : Bytes) :
    (s.made cfg (dictLiteral ps)).bind (·.get x) = (s.made cfg (dictAssigned ps)).bind (·.get x) := by
  unfold LiteralAssigns at h
  generalize s.made cfg (dictLiteral ps) = o at h ⊢
  generalize s.made cfg (dictAssigned ps) = q at h ⊢
  cases h with
  | @some t t' h =>
    have hx := h x
    change t.get x = t'.get x
    generalize t.get x = v at hx ⊢
    generalize t'.get x = v' at hx ⊢
    cases hx with
    | some hx => exact congrArg some hx
    | none => rfl
  | none => rfl

/-- `{"a": 1, "a": 2}` has 1 under its key, and the assignments leave 2. -/
theorem literal_first_wins :
    let s := holdingKeys (bytes "a") (bytes "b")
    let ps : List Pair := [(0, .integer ⟨1, by decide⟩), (0, .integer ⟨2, by decide⟩)]
    (s.made {} (dictLiteral ps)).bind (·.get (bytes "a")) = some (.integer ⟨1, by decide⟩) ∧
      (s.made {} (dictAssigned ps)).bind (·.get (bytes "a")) = some (.integer ⟨2, by decide⟩) ∧
      ¬ LiteralAssigns {} (· = ·) s ps := by
  intro s ps
  have hliteral : (s.made {} (dictLiteral ps)).bind (·.get (bytes "a")) =
      some (.integer ⟨1, by decide⟩) := by decide +kernel
  have hassigned : (s.made {} (dictAssigned ps)).bind (·.get (bytes "a")) =
      some (.integer ⟨2, by decide⟩) := by decide +kernel
  refine ⟨hliteral, hassigned, fun h => ?_⟩
  have hsame := h.get (bytes "a")
  rw [hliteral, hassigned] at hsame
  exact absurd hsame (by decide)

end Aer.Machine
