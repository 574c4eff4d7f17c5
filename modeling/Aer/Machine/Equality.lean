import Aer.Machine.FloorDivision

set_option linter.all false

/-! The two equalities: the operator `==`, which promotes integers and refuses some pairs, and the
one by which `in` scans an array. -/
namespace Aer.Machine

open Aer.Data Aer.Memory Aer.Lib.Interaction

namespace State

/-- The cell behind a value that equality looks into is in use; integers have 64 bits. -/
def Readable (s : State) : AerVal → Prop
  | .long c => ∃ n, s.asInt (.long c) = some n ∧ IsLong n
  | .string c => (s.stringData c).isSome = true
  | .function c => (s.functionData c).isSome = true
  | _ => True

/-- Equal in type and content, arrays and dicts by identity, functions by their code. -/
def alike (s : State) (a b : AerVal) : Bool :=
  match a, b with
  | .null, .null => true
  | .boolean x, .boolean y => x == y
  | .real x, .real y => x.beq y
  | .string x, .string y =>
      sameBytes ((s.stringData x).getD []) ((s.stringData y).getD [])
  | .function x, .function y =>
      (s.functionData x).map (·.codeOffset) == (s.functionData y).map (·.codeOffset)
  | .array x, .array y => x == y
  | .dict x, .dict y => x == y
  | _, _ => a.type == .integer && b.type == .integer && s.asInt a == s.asInt b

/-- An integer and a real that are equal once the integer is promoted. -/
def promoted (s : State) (a b : AerVal) : Bool :=
  match a, b with
  | .real x, b => b.type == .integer && x.beq (.ofInt ((s.asInt b).getD 0))
  | a, .real y => a.type == .integer && (Double.ofInt ((s.asInt a).getD 0)).beq y
  | _, _ => false

end State

section Runs
variable (cfg : Config) {s : State} {a b : AerVal}

theorem run_string {c : Nat} {x : Bytes} (h : s.stringData c = some x) :
    (perform (.string c)).run (exec cfg) s = .done x s := by
  have hread : exec cfg (.string c) s = .done x s := by
    change orFault (s.stringData c) s = _
    rw [h]
    rfl
  unfold perform
  rw [run_perform, hread]

theorem run_array {c : Nat} {x : AerArray} (h : s.arrayData c = some x) :
    (perform (.array c)).run (exec cfg) s = .done x s := by
  have hread : exec cfg (.array c) s = .done x s := by
    change orFault (s.arrayData c) s = _
    rw [h]
    rfl
  unfold perform
  rw [run_perform, hread]

theorem run_function {c : Nat} {f : AerFunction} (h : s.functionData c = some f) :
    (perform (.function c)).run (exec cfg) s = .done f s := by
  have hread : exec cfg (.function c) s = .done f s := by
    change orFault (s.functionData c) s = _
    rw [h]
    rfl
  unfold perform
  rw [run_perform, hread]

/-- A readable integer holds one. -/
theorem State.Readable.asInt (h : s.Readable a) (ht : a.type = .integer) :
    ∃ n, s.asInt a = some n ∧ IsLong n := by
  cases a with
  | integer n =>
    obtain ⟨n, hn⟩ := n
    refine ⟨n, rfl, ?_⟩
    unfold IsInt47 at hn
    unfold IsLong
    omega
  | long c => exact h
  | _ => cases ht

theorem run_asInts {α : Type} (ha : s.Readable a) (hb : s.Readable b) (hat : a.type = .integer)
    (hbt : b.type = .integer) (f : Int → Int → α) :
    (do return f (← perform (.asInt a)) (← perform (.asInt b)) : Handler α).run (exec cfg) s =
      .done (f ((s.asInt a).getD 0) ((s.asInt b).getD 0)) s := by
  obtain ⟨m, hm, -⟩ := ha.asInt hat
  obtain ⟨n, hn, -⟩ := hb.asInt hbt
  rw [run_bind, run_asInt cfg hm, Outcome.done_andThen, run_bind, run_asInt cfg hn, hm, hn]
  rfl

theorem run_valuesEqual (ha : s.Readable a) (hb : s.Readable b) :
    (valuesEqual a b).run (exec cfg) s = .done (s.alike a b) s := by
  by_cases hints : a.type = .integer ∧ b.type = .integer
  · obtain ⟨hat, hbt⟩ := hints
    obtain ⟨m, hm, -⟩ := ha.asInt hat
    obtain ⟨n, hn, -⟩ := hb.asInt hbt
    have hequal : valuesEqual a b = do return (← perform (.asInt a)) == (← perform (.asInt b)) := by
      cases a <;> cases hat <;> cases b <;> cases hbt <;> rfl
    have halike : s.alike a b = (s.asInt a == s.asInt b) := by
      cases a <;> cases hat <;> cases b <;> cases hbt <;> rfl
    rw [hequal, run_asInts cfg ha hb hat hbt, halike, hm, hn]
    rfl
  · cases a <;> cases b <;> try rfl
    case string.string c d =>
      obtain ⟨x, hx⟩ := Option.isSome_iff_exists.mp ha
      obtain ⟨y, hy⟩ := Option.isSome_iff_exists.mp hb
      change (do return sameBytes (← perform (.string c)) (← perform (.string d)) : Handler Bool).run
        (exec cfg) s = .done (sameBytes ((s.stringData c).getD []) ((s.stringData d).getD [])) s
      rw [run_bind, run_string cfg hx, Outcome.done_andThen, run_bind, run_string cfg hy, hx, hy]
      rfl
    case function.function c d =>
      obtain ⟨f, hf⟩ := Option.isSome_iff_exists.mp ha
      obtain ⟨g, hg⟩ := Option.isSome_iff_exists.mp hb
      change (do return (← perform (.function c)).codeOffset == (← perform (.function d)).codeOffset :
        Handler Bool).run (exec cfg) s = .done ((s.functionData c).map (·.codeOffset) ==
          (s.functionData d).map (·.codeOffset)) s
      rw [run_bind, run_function cfg hf, Outcome.done_andThen, run_bind, run_function cfg hg, hf, hg]
      rfl
    all_goals exact absurd ⟨rfl, rfl⟩ hints

/-- The values that `==` finds equal. -/
def State.isEqual (s : State) (a b : AerVal) : Bool :=
  s.promoted a b || (s.alike a b && !(a.type == .function))

theorem run_containsEqual (ha : s.Readable a) {items : List AerVal}
    (hitems : ∀ e ∈ items, s.Readable e) :
    (containsEqual a items).run (exec cfg) s = .done (items.any (s.alike a)) s := by
  induction items with
  | nil => rfl
  | cons e items ih =>
    have hrest := ih fun e he => hitems e (List.mem_cons_of_mem _ he)
    unfold containsEqual
    rw [run_bind, run_valuesEqual cfg ha (hitems e List.mem_cons_self), Outcome.done_andThen,
      List.any_cons]
    cases s.alike a e with
    | true => rfl
    | false => exact hrest

theorem run_in (ha : s.Readable a) {c : Nat} {arr : AerArray} (harr : s.arrayData c = some arr)
    (hitems : ∀ e ∈ arr.items, s.Readable e) :
    (vmBinary a (.array c) .isIn).run (exec cfg) s =
      .done (.boolean (arr.items.any (s.alike a))) s := by
  change (do return aerBool (← containsEqual a (← perform (.array c)).items) :
    Handler AerVal).run (exec cfg) s = _
  rw [run_bind, run_array cfg harr, Outcome.done_andThen, run_bind,
    run_containsEqual cfg ha hitems]
  rfl

theorem run_vmPromoteReal (ha : s.Readable a) (ht : a.type = .integer) :
    (vmPromoteReal a).run (exec cfg) s = .done (.real (.ofInt ((s.asInt a).getD 0))) s := by
  obtain ⟨n, hn, hlong⟩ := ha.asInt ht
  have hfinite : (Double.ofInt n).isNaN = false := by
    refine Double.isNaN_of_expo (Double.expo_ofInt_lt ?_)
    unfold IsLong at hlong
    omega
  have hreal : aerReal (Double.ofInt n) = .real (.ofInt n) := by
    unfold aerReal
    rw [hfinite, if_neg Bool.false_ne_true]
  unfold vmPromoteReal
  rw [ht]
  dsimp only
  rw [run_bind, run_asInt cfg hn, Outcome.done_andThen, hreal, hn]
  rfl

theorem exists_real {v : AerVal} (h : v.type = .real) : ∃ x, v = .real x := by
  cases v <;> first | exact ⟨_, rfl⟩ | cases h

/-- A pair with a real goes through the promotion of both. -/
theorem run_eq_real (hreal : a.type = .real ∨ b.type = .real)
    (hints : ¬ (a.type = .integer ∧ b.type = .integer)) (hnull : ¬ (a = .null ∨ b = .null)) :
    (vmBinary a b .eq).run (exec cfg) s =
      (do vmBinaryOther (← vmPromoteReal a) (← vmPromoteReal b) .eq : Handler AerVal).run
        (exec cfg) s := by
  unfold vmBinary
  simp only [reduceCtorEq, if_false, hints, hnull, hreal, if_true]

theorem run_eq_strings {c d : Nat} {x y : Bytes} (hx : s.stringData c = some x)
    (hy : s.stringData d = some y) :
    (vmBinary (.string c) (.string d) .eq).run (exec cfg) s = .done (.boolean (sameBytes x y)) s := by
  change (do
    let l ← perform (.string c)
    let r ← perform (.string d)
    vmEquality (sameBytes l r) .eq (bytes "Operator not valid for strings") : Handler AerVal).run
      (exec cfg) s = _
  rw [run_bind, run_string cfg hx, Outcome.done_andThen, run_bind, run_string cfg hy]
  rfl

theorem run_vmPromoteReal_self (ht : a.type ≠ .integer) :
    (vmPromoteReal a).run (exec cfg) s = .done a s := by
  unfold vmPromoteReal
  split
  · next h => exact absurd h ht
  · rfl

theorem run_eq_reals (x y : Double) :
    (vmBinaryOther (.real x) (.real y) .eq).run (exec cfg) s = .done (.boolean (x.beq y)) s :=
  rfl

theorem run_eq_promoting (ha : s.Readable a) (hb : s.Readable b)
    (hreal : a.type = .real ∨ b.type = .real) (hnull : ¬ (a = .null ∨ b = .null)) :
    ∃ t, (vmBinary a b .eq).run (exec cfg) s = .done (.boolean (s.isEqual a b)) t ∧
      (s.isEqual a b = true → t = s) := by
  have hints : ¬ (a.type = .integer ∧ b.type = .integer) := by
    rintro ⟨h, h'⟩
    rw [h, h'] at hreal
    exact absurd hreal (by decide)
  rw [run_eq_real cfg hreal hints hnull]
  by_cases hat : a.type = .integer
  · obtain ⟨y, rfl⟩ := exists_real (hreal.resolve_left (by rw [hat]; decide))
    have hequal : s.isEqual a (.real y) = (Double.ofInt ((s.asInt a).getD 0)).beq y := by
      cases a <;> cases hat <;> simp [State.isEqual, State.promoted, State.alike, AerVal.type]
    rw [run_bind, run_vmPromoteReal cfg ha hat, Outcome.done_andThen, run_bind,
      run_vmPromoteReal_self cfg (a := .real y) nofun, Outcome.done_andThen, run_eq_reals, hequal]
    exact ⟨s, rfl, fun _ => rfl⟩
  by_cases hbt : b.type = .integer
  · obtain ⟨x, rfl⟩ := exists_real (hreal.resolve_right (by rw [hbt]; decide))
    have hequal : s.isEqual (.real x) b = x.beq (Double.ofInt ((s.asInt b).getD 0)) := by
      cases b <;> cases hbt <;> simp [State.isEqual, State.promoted, State.alike, AerVal.type]
    rw [run_bind, run_vmPromoteReal_self cfg (a := .real x) nofun, Outcome.done_andThen, run_bind,
      run_vmPromoteReal cfg hb hbt, Outcome.done_andThen, run_eq_reals, hequal]
    exact ⟨s, rfl, fun _ => rfl⟩
  rw [run_bind, run_vmPromoteReal_self cfg hat, Outcome.done_andThen, run_bind,
    run_vmPromoteReal_self cfg hbt, Outcome.done_andThen]
  rcases hreal with h | h
  · obtain ⟨x, rfl⟩ := exists_real h
    cases b
    case real y =>
      have hequal : s.isEqual (.real x) (.real y) = x.beq y := Bool.and_true _
      rw [run_eq_reals, hequal]
      exact ⟨s, rfl, fun _ => rfl⟩
    case null => exact absurd (.inr rfl) hnull
    case integer | long => exact absurd rfl hbt
    all_goals exact ⟨_, rfl, fun h => absurd h Bool.false_ne_true⟩
  · obtain ⟨y, rfl⟩ := exists_real h
    cases a
    case real x =>
      have hequal : s.isEqual (.real x) (.real y) = x.beq y := Bool.and_true _
      rw [run_eq_reals, hequal]
      exact ⟨s, rfl, fun _ => rfl⟩
    case null => exact absurd (.inl rfl) hnull
    case integer | long => exact absurd rfl hat
    all_goals exact ⟨_, rfl, fun h => absurd h Bool.false_ne_true⟩

/-- The operator answers with the equality, and reports an error only where it answers false. -/
theorem run_eq (ha : s.Readable a) (hb : s.Readable b) :
    ∃ t, (vmBinary a b .eq).run (exec cfg) s = .done (.boolean (s.isEqual a b)) t ∧
      (s.isEqual a b = true → t = s) := by
  by_cases hints : a.type = .integer ∧ b.type = .integer
  · obtain ⟨hat, hbt⟩ := hints
    obtain ⟨m, hm, -⟩ := ha.asInt hat
    obtain ⟨n, hn, -⟩ := hb.asInt hbt
    have hequal : s.isEqual a b = (s.asInt a == s.asInt b) := by
      cases a <;> cases hat <;> cases b <;> cases hbt <;>
        simp [State.isEqual, State.promoted, State.alike, AerVal.type]
    refine ⟨s, ?_, fun _ => rfl⟩
    rw [run_vmBinary_int cfg hm hn .eq nofun nofun nofun, hequal, hm, hn]
    rfl
  by_cases hreal : a.type = .real ∨ b.type = .real
  · by_cases hnull : a = .null ∨ b = .null
    · rcases hnull with rfl | rfl
      · obtain ⟨y, rfl⟩ := exists_real (hreal.resolve_left nofun)
        exact ⟨s, rfl, fun _ => rfl⟩
      · obtain ⟨x, rfl⟩ := exists_real (hreal.resolve_right nofun)
        exact ⟨s, rfl, fun _ => rfl⟩
    · exact run_eq_promoting cfg ha hb hreal hnull
  cases a <;> cases b <;> try exact ⟨_, rfl, fun h => absurd h Bool.false_ne_true⟩
  case null.null => exact ⟨s, rfl, fun _ => rfl⟩
  case boolean.boolean x y =>
    have hequal : s.isEqual (.boolean x) (.boolean y) = (x == y) := Bool.and_true _
    exact ⟨s, hequal ▸ rfl, fun _ => rfl⟩
  case array.array c d =>
    have hequal : s.isEqual (.array c) (.array d) = (c == d) := Bool.and_true _
    exact ⟨s, hequal ▸ rfl, fun _ => rfl⟩
  case dict.dict c d =>
    have hequal : s.isEqual (.dict c) (.dict d) = (c == d) := Bool.and_true _
    exact ⟨s, hequal ▸ rfl, fun _ => rfl⟩
  case function.function c d =>
    -- The operator has no case for functions.
    have hequal : s.isEqual (.function c) (.function d) = false := Bool.and_false _
    rw [hequal]
    exact ⟨_, rfl, fun h => absurd h Bool.false_ne_true⟩
  case string.string c d =>
    obtain ⟨x, hx⟩ := Option.isSome_iff_exists.mp ha
    obtain ⟨y, hy⟩ := Option.isSome_iff_exists.mp hb
    have hequal : s.isEqual (.string c) (.string d) = sameBytes x y := by
      change (sameBytes ((s.stringData c).getD []) ((s.stringData d).getD []) && true) = _
      rw [hx, hy]
      exact Bool.and_true _
    refine ⟨s, ?_, fun _ => rfl⟩
    rw [hequal]
    exact run_eq_strings cfg hx hy
  all_goals
    first
    | exact absurd ⟨rfl, rfl⟩ hints
    | exact absurd (.inl rfl) hreal
    | exact absurd (.inr rfl) hreal

/-- Exactly the pairs that are equal compare as true without an error. -/
theorem run_eq_iff (ha : s.Readable a) (hb : s.Readable b) :
    (vmBinary a b .eq).run (exec cfg) s = .done (.boolean true) s ↔ s.isEqual a b = true := by
  obtain ⟨t, hrun, ht⟩ := run_eq cfg ha hb
  rw [hrun]
  constructor
  · intro h
    injection h with hvalue
    exact AerVal.boolean.inj hvalue
  · intro h
    rw [h, ht h]

end Runs

/-- Two functions of the same code. -/
def SameCode (s : State) (v e : AerVal) : Prop :=
  ∃ c d f g, v = .function c ∧ e = .function d ∧ s.functionData c = some f ∧
    s.functionData d = some g ∧ f.codeOffset = g.codeOffset

section Agreement
variable (cfg : Config) {s : State} {v e : AerVal}

theorem type_of_alike (h : s.alike v e = true) : e.type = v.type := by
  cases v <;> cases e <;> first | rfl | exact absurd h Bool.false_ne_true

theorem promoted_of_type (h : e.type = v.type) : s.promoted v e = false := by
  cases v <;> cases e <;> first | cases h | skip
  all_goals simp [State.promoted, AerVal.type]

theorem alike_functions_iff (hv : s.Readable v) (he : s.Readable e) (ht : v.type = .function) :
    s.alike v e = true ↔ SameCode s v e := by
  constructor
  · intro h
    have het := type_of_alike h
    cases v <;> cases ht
    cases e <;> cases het
    obtain ⟨f, hf⟩ := Option.isSome_iff_exists.mp hv
    obtain ⟨g, hg⟩ := Option.isSome_iff_exists.mp he
    refine ⟨_, _, f, g, rfl, rfl, hf, hg, ?_⟩
    simpa [State.alike, hf, hg] using h
  · rintro ⟨c, d, f, g, rfl, rfl, hf, hg, hcode⟩
    simp [State.alike, hf, hg, hcode]

/-- The scan's equality is the operator's within a type, and compares functions as well. -/
theorem alike_iff (hv : s.Readable v) (he : s.Readable e) :
    s.alike v e = true ↔ e.type = v.type ∧ (s.isEqual v e = true ∨ SameCode s v e) := by
  by_cases ht : v.type = .function
  · have hnever (het : e.type = v.type) : s.isEqual v e = false := by
      unfold State.isEqual
      rw [promoted_of_type het, ht]
      exact Bool.and_false _
    rw [← alike_functions_iff hv he ht]
    constructor
    · exact fun h => ⟨type_of_alike h, .inr h⟩
    · rintro ⟨het, h | h⟩
      · rw [hnever het] at h
        cases h
      · exact h
  · have hsame (het : e.type = v.type) : s.isEqual v e = s.alike v e := by
      unfold State.isEqual
      rw [promoted_of_type het, beq_false_of_ne ht]
      exact Bool.and_true _
    constructor
    · exact fun h => ⟨type_of_alike h, .inl ((hsame (type_of_alike h)).trans h)⟩
    · rintro ⟨het, h | ⟨c, d, f, g, rfl, -⟩⟩
      · exact (hsame het).symm.trans h
      · exact absurd rfl ht

/-- Equality of strings that do not differ behind a common NUL, and membership in an array. -/
theorem equality_agrees :
    (∀ c d x y, s.stringData c = some x → s.stringData d = some y →
      (x.length = y.length → cString x = cString y → x = y) →
      ((vmBinary (.string c) (.string d) .eq).run (exec cfg) s = .done (.boolean true) s ↔ x = y)) ∧
    ∀ v c arr, s.Readable v → s.arrayData c = some arr → (∀ e ∈ arr.items, s.Readable e) →
      ((vmBinary v (.array c) .isIn).run (exec cfg) s = .done (.boolean true) s ↔
        ∃ e ∈ arr.items, e.type = v.type ∧
          ((vmBinary v e .eq).run (exec cfg) s = .done (.boolean true) s ∨ SameCode s v e)) := by
  constructor
  · intro c d x y hx hy hexact
    have htrue : (vmBinary (.string c) (.string d) .eq).run (exec cfg) s = .done (.boolean true) s ↔
        x.length = y.length ∧ cString x = cString y := by
      rw [run_eq_strings cfg hx hy]
      simp [sameBytes]
    rw [htrue]
    exact ⟨fun h => hexact h.1 h.2, fun h => h ▸ ⟨rfl, rfl⟩⟩
  · intro v c arr hv harr hitems
    have hin : (vmBinary v (.array c) .isIn).run (exec cfg) s = .done (.boolean true) s ↔
        ∃ e ∈ arr.items, s.alike v e = true := by
      rw [run_in cfg hv harr hitems, ← List.any_eq_true]
      simp
    rw [hin]
    refine exists_congr fun e => and_congr_right fun he => ?_
    rw [alike_iff hv (hitems e he), run_eq_iff cfg hv (hitems e he)]

end Agreement

/-- Two strings that differ behind a NUL. -/
def nulY : Bytes := [120, 0, 121]

def nulZ : Bytes := [120, 0, 122]

/-- The array [1.0]. -/
def onlyOne : AerArray :=
  { items := [.real ⟨0x3FF0000000000000⟩], capacity := 1, shape := none }

def holdingNuls : State :=
  { State.init with
    heap := (((Heap.init.aerMakeString nulY).2.aerMakeString nulZ).2.newArray onlyOne).2 }

theorem onlyOne_readable : ∀ e ∈ onlyOne.items, holdingNuls.Readable e := by
  intro e he
  rw [List.mem_singleton.mp he]
  trivial

theorem equality_agrees_nulY :
    ((vmBinary (.string 0) (.string 0) .eq).run (exec {}) holdingNuls =
        .done (.boolean true) holdingNuls ↔ nulY = nulY) ∧
    ((vmBinary .null (.array 0) .isIn).run (exec {}) holdingNuls =
        .done (.boolean true) holdingNuls ↔
      ∃ e ∈ onlyOne.items, e.type = AerVal.null.type ∧
        ((vmBinary .null e .eq).run (exec {}) holdingNuls = .done (.boolean true) holdingNuls ∨
          SameCode holdingNuls .null e)) :=
  ⟨(equality_agrees {} (s := holdingNuls)).1 0 0 nulY nulY (by decide +kernel) (by decide +kernel)
      (fun _ _ => rfl),
    (equality_agrees {} (s := holdingNuls)).2 .null 0 onlyOne trivial (by decide +kernel)
      onlyOne_readable⟩

/-- `"x\0y" == "x\0z"` is true, and `1 in [1.0]` is false although `1 == 1.0` is true. -/
theorem equality_inexact :
    ¬ ((vmBinary (.string 0) (.string 1) .eq).run (exec {}) holdingNuls =
        .done (.boolean true) holdingNuls ↔ nulY = nulZ) ∧
    ¬ ((vmBinary (.integer ⟨1, by decide⟩) (.array 0) .isIn).run (exec {}) holdingNuls =
          .done (.boolean true) holdingNuls ↔
        ∃ e ∈ onlyOne.items, (vmBinary (.integer ⟨1, by decide⟩) e .eq).run (exec {}) holdingNuls =
          .done (.boolean true) holdingNuls) := by
  have hone : holdingNuls.Readable (.integer ⟨1, by decide⟩) := trivial
  constructor
  · intro h
    have hrun : (vmBinary (.string 0) (.string 1) .eq).run (exec {}) holdingNuls = _ :=
      run_eq_strings {} (x := nulY) (y := nulZ) (by decide +kernel) (by decide +kernel)
    exact absurd (h.mp hrun) (by decide)
  · intro h
    have harr : holdingNuls.arrayData 0 = some onlyOne := by decide +kernel
    have hpromoted :
        holdingNuls.isEqual (.integer ⟨1, by decide⟩) (.real ⟨0x3FF0000000000000⟩) = true := by
      decide +kernel
    have hmem : AerVal.real ⟨0x3FF0000000000000⟩ ∈ onlyOne.items := List.mem_singleton_self _
    have htrue := h.mpr
      ⟨_, hmem, (run_eq_iff {} hone (onlyOne_readable _ hmem)).mpr hpromoted⟩
    rw [run_in {} hone harr onlyOne_readable] at htrue
    injection htrue with hvalue
    revert hvalue
    decide +kernel

end Aer.Machine
