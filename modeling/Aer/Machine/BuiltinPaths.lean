import Aer.Machine.DictAccess
import Mathlib.Tactic.Tauto

set_option linter.all false

/-! The built-in functions and the struct constructors are written twice: over the operand stack
for a call, and over an argument array for a deferred call. Both copies here, and what they share. -/
namespace Aer.Machine

open Aer.Data Aer.Memory Aer.Lib.Interaction

def tooManyArguments (name : Bytes) (fieldCount argCount : Nat) : Bytes :=
  bytes "'" ++ name ++ bytes "' takes at most " ++ natText fieldCount ++ bytes " argument" ++
    pluralS fieldCount ++ bytes ", got " ++ natText argCount

/-- The end of the path: a struct constructor, or a name that nothing has. -/
def lblCallStruct (name : Bytes) (argCount : Nat) : Handler Unit := do
  match ← perform (.findShape name) with
  | some id => do
      let shape ← perform (.shape id)
      let n := shape.fields.length
      if n < argCount then do
        perform (.error (tooManyArguments name n argCount))
        popN argCount
        push .null
      else do
        let args ← popArgs argCount
        push (← perform (.newArray
          ⟨args ++ (shape.fields.drop argCount).map Prod.snd, n, some id⟩))
  | none => do
      perform (.error (notDefined name))
      popN argCount
      push .null

/-- The path of `lbl_call` for a name that is not a variable. -/
def lblCallBuiltin (name : Bytes) (argCount : Nat) : Handler Unit :=
  if name = bytes "length" ∧ argCount = 1 then do
    let a ← pop
    let r ← match a with
      | .array c => do perform (.newInt (← perform (.array c)).items.length)
      | .string c => do perform (.newInt (← perform (.string c)).length)
      | .dict c => do perform (.newInt (← perform (.dict c)).count)
      | _ => do
          perform (.error (bytes "length() requires an array, dict, or string"))
          perform (.newInt 0)
    push r
  else if name = bytes "delete" ∧ argCount = 2 then do
    let key ← pop
    let obj ← pop
    match obj with
    | .dict c =>
        match key with
        | .string k => do
            let text ← perform (.string k)
            if vmKeyMax < text.length then errorNull keyTooLong
            else do
              perform (.deleteEntry c text)
              push obj
        | _ => errorNull (bytes "delete() key must be a string")
    | .array c => do
        let a ← perform (.array c)
        if a.shape.isSome then
          errorNull (bytes
            "delete() cannot remove fields from a struct instance — structs have a fixed shape")
        else if key.type = .integer then do
          let i ← perform (.asInt key)
          match elementIndex i a.items.length with
          | some j => do
              perform (.deleteItem c j)
              push obj
          | none => errorNull (outOfBounds "Array" i a.items.length)
        else errorNull (bytes "Array delete() index must be an integer")
    | _ => errorNull (bytes "delete() requires a dict or array")
  else if name = bytes "append" ∧ argCount = 2 then do
    let val ← pop
    let arr ← pop
    match arr with
    | .array c => do
        let a ← perform (.array c)
        if a.shape.isSome then
          errorNull (bytes
            "append() cannot add fields to a struct instance — structs have a fixed shape")
        else do
          perform (.appendItem c val)
          push arr
    | _ => errorNull (bytes "append() requires an array")
  else if name = bytes "print" ∧ argCount = 1 then do
    let v ← pop
    printValue v
    push .null
  else if name = bytes "type" ∧ argCount = 1 then do
    let v ← pop
    let tn ← perform (.typeName v)
    push (← perform (.newString tn))
  else if name = bytes "assert" ∧ argCount = 2 then do
    let msg ← pop
    let cond ← pop
    match msg with
    | .string c => do
        if ← vmTruthy cond then push .null
        else do
          perform .countAssertFailure
          perform (.print (bytes "ASSERT FAILED: " ++ cString (← perform (.string c)) ++ bytes "\n"))
          push .null
    | _ => errorNull (bytes "assert() requires a string message as its second argument")
  else if name = bytes "panic" ∧ argCount = 1 then do
    let msg ← pop
    match msg with
    | .string c => do
        perform (.error (bytes "panic: " ++ cString (← perform (.string c))))
        push .null
    | _ => errorNull (bytes "panic() requires a string message")
  else lblCallStruct name argCount

/-- An element of the argument array. -/
def argument (args : List AerVal) (i : Nat) : Handler AerVal :=
  match args[i]? with
  | some v => return v
  | none => do
      perform .fault
      return .null

/-- `error()` and `return true`, with `*out` still null. -/
def errorOut (msg : Bytes) : Handler (Option AerVal) := do
  perform (.error msg)
  return some .null

def vmCallStruct (name : Bytes) (args : List AerVal) : Handler (Option AerVal) := do
  match ← perform (.findShape name) with
  | some id => do
      let shape ← perform (.shape id)
      let n := shape.fields.length
      if n < args.length then errorOut (tooManyArguments name n args.length)
      else do
        return some (← perform (.newArray
          ⟨args ++ (shape.fields.drop args.length).map Prod.snd, n, some id⟩))
  | none => return none

/-- `vm_call_builtin` over the argument array of a deferred call; `none` is its `false`. -/
def vmCallBuiltinArgs (name : Bytes) (args : List AerVal) : Handler (Option AerVal) :=
  if name = bytes "length" ∧ args.length = 1 then do
    let a ← argument args 0
    match a with
    | .array c => do return some (← perform (.newInt (← perform (.array c)).items.length))
    | .string c => do return some (← perform (.newInt (← perform (.string c)).length))
    | .dict c => do return some (← perform (.newInt (← perform (.dict c)).count))
    | _ => errorOut (bytes "length() requires an array, dict, or string")
  else if name = bytes "delete" ∧ args.length = 2 then do
    let obj ← argument args 0
    let key ← argument args 1
    match obj with
    | .dict c =>
        match key with
        | .string k => do
            let text ← perform (.string k)
            if vmKeyMax < text.length then errorOut keyTooLong
            else do
              perform (.deleteEntry c text)
              return some obj
        | _ => errorOut (bytes "delete() key must be a string")
    | .array c => do
        let a ← perform (.array c)
        if a.shape.isSome then
          errorOut (bytes
            "delete() cannot remove fields from a struct instance — structs have a fixed shape")
        else if key.type = .integer then do
          let i ← perform (.asInt key)
          match elementIndex i a.items.length with
          | some j => do
              perform (.deleteItem c j)
              return some obj
          | none => errorOut (outOfBounds "Array" i a.items.length)
        else errorOut (bytes "Array delete() index must be an integer")
    | _ => errorOut (bytes "delete() requires a dict or array")
  else if name = bytes "append" ∧ args.length = 2 then do
    let arr ← argument args 0
    let val ← argument args 1
    match arr with
    | .array c => do
        let a ← perform (.array c)
        if a.shape.isSome then
          errorOut (bytes
            "append() cannot add fields to a struct instance — structs have a fixed shape")
        else do
          perform (.appendItem c val)
          return some arr
    | _ => errorOut (bytes "append() requires an array")
  else if name = bytes "print" ∧ args.length = 1 then do
    printValue (← argument args 0)
    return some .null
  else if name = bytes "type" ∧ args.length = 1 then do
    let tn ← perform (.typeName (← argument args 0))
    return some (← perform (.newString tn))
  else if name = bytes "assert" ∧ args.length = 2 then do
    let cond ← argument args 0
    let msg ← argument args 1
    match msg with
    | .string c => do
        if ← vmTruthy cond then return some .null
        else do
          perform .countAssertFailure
          perform (.print (bytes "ASSERT FAILED: " ++ cString (← perform (.string c)) ++ bytes "\n"))
          return some .null
    | _ => errorOut (bytes "assert() requires a string message as its second argument")
  else if name = bytes "panic" ∧ args.length = 1 then do
    let msg ← argument args 0
    match msg with
    | .string c => do errorOut (bytes "panic: " ++ cString (← perform (.string c)))
    | _ => errorOut (bytes "panic() requires a string message")
  else vmCallStruct name args

/-! The copies against one another. -/

/-- A direct call against a deferred one: the values may differ after an error only, and what
the one does not recognise the other reports as undefined. -/
def BuiltinsAgree (cfg : Config) (name : Bytes) (w : State) (direct : Result Unit) :
    Result (Option AerVal) → Prop
  | .done (some v) u => ∃ v', direct = (push v').run (exec cfg) u ∧ (u.errors = w.errors → v' = v)
  | .done none u => u = w ∧ direct = (push .null).run (exec cfg) (u.addError (notDefined name))
  | .stop r u => direct = .stop r u

theorem errorOut_eq (msg : Bytes) : errorOut msg = (do return some (← errorWith msg .null)) := by
  unfold errorOut errorWith
  simp only [bind_assoc, pure_bind]

theorem errorNull_eq (msg : Bytes) : errorNull msg = (do push (← errorWith msg .null)) := by
  unfold errorNull errorWith
  simp only [bind_assoc, pure_bind]
  rfl

section Values
variable (cfg : Config) (s : State) {name : Bytes}

/-- The operands of a call come off the stack in the order of its arguments. -/
theorem run_popArgs_operands (vs : List AerVal) {j k : Nat} (h : j + k = vs.length) :
    (popArgs j).run (exec cfg) ((s.withOperands vs).dropped k) =
      .done (vs.take j) ((s.withOperands vs).dropped vs.length) := by
  induction j generalizing k with
  | zero =>
    rw [show k = vs.length by omega]
    rfl
  | succ j ih =>
    have hlt : j < vs.length := by omega
    have hpop := run_pop_operand cfg (s := s) vs (List.getElem?_eq_getElem hlt) (n := k) (by omega)
    unfold popArgs
    rw [run_bind, hpop, Outcome.done_andThen, run_bind, ih (by omega), Outcome.done_andThen,
      List.take_succ_eq_append_getElem hlt]
    rfl

/-- Where both copies come to one value, they agree. -/
theorem agree_of_value {value : Handler AerVal} {w : State} {direct : Result Unit}
    {deferred : Handler (Option AerVal)}
    (hdirect : direct = (do push (← value) : Handler Unit).run (exec cfg) w)
    (hdeferred : deferred = (do return some (← value))) :
    BuiltinsAgree cfg name w direct (deferred.run (exec cfg) w) := by
  rw [hdirect, hdeferred, run_bind, run_bind]
  cases value.run (exec cfg) w with
  | done v u => exact ⟨v, rfl, fun _ => rfl⟩
  | stop r u => exact rfl

/-- A copy over the stack that pops one operand for its value. -/
theorem run_one {f : AerVal → Handler AerVal}
    (hdirect : lblCallBuiltin name 1 = (do push (← f (← pop)))) (a : AerVal) :
    (lblCallBuiltin name 1).run (exec cfg) (s.withOperands [a]) =
      (do push (← f a) : Handler Unit).run (exec cfg) ((s.withOperands [a]).dropped 1) := by
  have hpop : pop.run (exec cfg) (s.withOperands [a]) = .done a ((s.withOperands [a]).dropped 1) :=
    run_pop_operand cfg [a] (n := 0) (i := 0) rfl rfl
  rw [hdirect, run_bind, hpop, Outcome.done_andThen]

/-- One that pops two, the last argument first. -/
theorem run_two {f : AerVal → AerVal → Handler AerVal}
    (hdirect : lblCallBuiltin name 2 = (do
      let b ← pop
      let a ← pop
      push (← f a b))) (a b : AerVal) :
    (lblCallBuiltin name 2).run (exec cfg) (s.withOperands [a, b]) =
      (do push (← f a b) : Handler Unit).run (exec cfg) ((s.withOperands [a, b]).dropped 2) := by
  have hb : pop.run (exec cfg) (s.withOperands [a, b]) =
      .done b ((s.withOperands [a, b]).dropped 1) :=
    run_pop_operand cfg [a, b] (n := 0) (i := 1) rfl rfl
  have ha : pop.run (exec cfg) ((s.withOperands [a, b]).dropped 1) =
      .done a ((s.withOperands [a, b]).dropped 2) :=
    run_pop_operand cfg [a, b] (n := 1) (i := 0) rfl rfl
  rw [hdirect, run_bind, hb, Outcome.done_andThen, run_bind, ha, Outcome.done_andThen]

theorem agree_one {f : AerVal → Handler AerVal} (hdirect : lblCallBuiltin name 1 = (do push (← f (← pop))))
    {a : AerVal} (hdeferred : vmCallBuiltinArgs name [a] = (do return some (← f a))) :
    BuiltinsAgree cfg name ((s.withOperands [a]).dropped 1)
      ((lblCallBuiltin name 1).run (exec cfg) (s.withOperands [a]))
      ((vmCallBuiltinArgs name [a]).run (exec cfg) ((s.withOperands [a]).dropped 1)) :=
  agree_of_value cfg (run_one cfg s hdirect a) hdeferred

theorem agree_two {f : AerVal → AerVal → Handler AerVal}
    (hdirect : lblCallBuiltin name 2 = (do
      let b ← pop
      let a ← pop
      push (← f a b)))
    {a b : AerVal} (hdeferred : vmCallBuiltinArgs name [a, b] = (do return some (← f a b))) :
    BuiltinsAgree cfg name ((s.withOperands [a, b]).dropped 2)
      ((lblCallBuiltin name 2).run (exec cfg) (s.withOperands [a, b]))
      ((vmCallBuiltinArgs name [a, b]).run (exec cfg) ((s.withOperands [a, b]).dropped 2)) :=
  agree_of_value cfg (run_two cfg s hdirect a b) hdeferred

end Values

/-! The operations one by one. -/

theorem another {name name' : Bytes} {p : Prop} (h : name ≠ name') : ¬ (name = name' ∧ p) :=
  fun he => h he.1

theorem delete_direct : lblCallBuiltin (bytes "delete") 2 = (do
    let key ← pop
    let obj ← pop
    push (← builtinDelete obj key)) := by
  unfold lblCallBuiltin
  rw [if_neg (another (by decide)), if_pos ⟨rfl, rfl⟩]
  refine bind_congr fun key => bind_congr fun obj => ?_
  unfold builtinDelete
  simp only [errorNull_eq]
  cases obj with
  | dict c =>
    cases key with
    | string k =>
      dsimp only
      rw [bind_assoc]
      refine bind_congr fun text => ?_
      split <;> simp only [bind_assoc, pure_bind]
    | _ => rfl
  | array c =>
    dsimp only
    rw [bind_assoc]
    refine bind_congr fun a => ?_
    split
    · rfl
    · split
      · rw [bind_assoc]
        refine bind_congr fun i => ?_
        cases elementIndex i a.items.length <;> rfl
      · rfl
  | _ => rfl

theorem delete_deferred (obj key : AerVal) : vmCallBuiltinArgs (bytes "delete") [obj, key] =
    (do return some (← builtinDelete obj key)) := by
  unfold vmCallBuiltinArgs
  rw [if_neg (another (by decide)), if_pos ⟨rfl, rfl⟩]
  change (match obj with | .dict c => _ | .array c => _ | _ => _) = _
  unfold builtinDelete
  simp only [errorOut_eq]
  cases obj with
  | dict c =>
    cases key with
    | string k =>
      dsimp only
      rw [bind_assoc]
      refine bind_congr fun text => ?_
      split <;> simp only [bind_assoc, pure_bind]
    | _ => rfl
  | array c =>
    dsimp only
    rw [bind_assoc]
    refine bind_congr fun a => ?_
    split
    · rfl
    · split
      · rw [bind_assoc]
        refine bind_congr fun i => ?_
        cases elementIndex i a.items.length <;> rfl
      · rfl
  | _ => rfl

theorem append_direct : lblCallBuiltin (bytes "append") 2 = (do
    let val ← pop
    let arr ← pop
    push (← builtinAppend arr val)) := by
  unfold lblCallBuiltin
  rw [if_neg (another (by decide)), if_neg (another (by decide)), if_pos ⟨rfl, rfl⟩]
  refine bind_congr fun val => bind_congr fun arr => ?_
  unfold builtinAppend
  simp only [errorNull_eq]
  cases arr with
  | array c =>
    dsimp only
    rw [bind_assoc]
    refine bind_congr fun a => ?_
    split <;> simp only [bind_assoc, pure_bind]
  | _ => rfl

theorem append_deferred (arr val : AerVal) : vmCallBuiltinArgs (bytes "append") [arr, val] =
    (do return some (← builtinAppend arr val)) := by
  unfold vmCallBuiltinArgs
  rw [if_neg (another (by decide)), if_neg (another (by decide)), if_pos ⟨rfl, rfl⟩]
  change (match arr with | .array c => _ | _ => _) = _
  unfold builtinAppend
  simp only [errorOut_eq]
  cases arr with
  | array c =>
    dsimp only
    rw [bind_assoc]
    refine bind_congr fun a => ?_
    split <;> simp only [bind_assoc, pure_bind]
  | _ => rfl

/-- `print()`, as both copies run it. -/
def builtinPrint (v : AerVal) : Handler AerVal := do
  printValue v
  return .null

def builtinType (v : AerVal) : Handler AerVal := do
  perform (.newString (← perform (.typeName v)))

theorem print_direct : lblCallBuiltin (bytes "print") 1 = (do push (← builtinPrint (← pop))) := by
  unfold lblCallBuiltin builtinPrint
  rw [if_neg (another (by decide)), if_neg (another (by decide)), if_neg (another (by decide)), if_pos ⟨rfl, rfl⟩]
  simp only [bind_assoc, pure_bind]

theorem print_deferred (v : AerVal) :
    vmCallBuiltinArgs (bytes "print") [v] = (do return some (← builtinPrint v)) := by
  unfold vmCallBuiltinArgs builtinPrint
  rw [if_neg (another (by decide)), if_neg (another (by decide)), if_neg (another (by decide)), if_pos ⟨rfl, rfl⟩]
  change (do printValue v; return some AerVal.null) = _
  simp only [bind_assoc, pure_bind]

theorem type_direct : lblCallBuiltin (bytes "type") 1 = (do push (← builtinType (← pop))) := by
  unfold lblCallBuiltin builtinType
  rw [if_neg (another (by decide)), if_neg (another (by decide)), if_neg (another (by decide)),
    if_neg (another (by decide)), if_pos ⟨rfl, rfl⟩]
  simp only [bind_assoc]

theorem type_deferred (v : AerVal) :
    vmCallBuiltinArgs (bytes "type") [v] = (do return some (← builtinType v)) := by
  unfold vmCallBuiltinArgs builtinType
  rw [if_neg (another (by decide)), if_neg (another (by decide)), if_neg (another (by decide)),
    if_neg (another (by decide)), if_pos ⟨rfl, rfl⟩]
  change (do
    let tn ← perform (.typeName v)
    return some (← perform (.newString tn))) = _
  simp only [bind_assoc]

theorem assert_direct : lblCallBuiltin (bytes "assert") 2 = (do
    let msg ← pop
    let cond ← pop
    push (← builtinAssert cond msg)) := by
  unfold lblCallBuiltin builtinAssert
  rw [if_neg (another (by decide)), if_neg (another (by decide)), if_neg (another (by decide)),
    if_neg (another (by decide)), if_neg (another (by decide)), if_pos ⟨rfl, rfl⟩]
  refine bind_congr fun msg => bind_congr fun cond => ?_
  simp only [errorNull_eq]
  cases msg with
  | string c =>
    dsimp only
    rw [bind_assoc]
    refine bind_congr fun truthy => ?_
    split <;> simp only [bind_assoc, pure_bind]
  | _ => rfl

theorem assert_deferred (cond msg : AerVal) : vmCallBuiltinArgs (bytes "assert") [cond, msg] =
    (do return some (← builtinAssert cond msg)) := by
  unfold vmCallBuiltinArgs builtinAssert
  rw [if_neg (another (by decide)), if_neg (another (by decide)), if_neg (another (by decide)),
    if_neg (another (by decide)), if_neg (another (by decide)), if_pos ⟨rfl, rfl⟩]
  change (match msg with | .string c => _ | _ => _) = _
  simp only [errorOut_eq]
  cases msg with
  | string c =>
    dsimp only
    rw [bind_assoc]
    refine bind_congr fun truthy => ?_
    split <;> simp only [bind_assoc, pure_bind]
  | _ => rfl

theorem panic_direct : lblCallBuiltin (bytes "panic") 1 = (do push (← builtinPanic (← pop))) := by
  unfold lblCallBuiltin builtinPanic errorWith
  rw [if_neg (another (by decide)), if_neg (another (by decide)), if_neg (another (by decide)),
    if_neg (another (by decide)), if_neg (another (by decide)), if_neg (another (by decide)),
    if_pos ⟨rfl, rfl⟩]
  refine bind_congr fun msg => ?_
  cases msg with
  | string c => simp only [bind_assoc, pure_bind]
  | _ => rfl

theorem panic_deferred (msg : AerVal) :
    vmCallBuiltinArgs (bytes "panic") [msg] = (do return some (← builtinPanic msg)) := by
  unfold vmCallBuiltinArgs builtinPanic
  rw [if_neg (another (by decide)), if_neg (another (by decide)), if_neg (another (by decide)),
    if_neg (another (by decide)), if_neg (another (by decide)), if_neg (another (by decide)),
    if_pos ⟨rfl, rfl⟩]
  change (match msg with | .string c => _ | _ => _) = _
  simp only [errorOut_eq]
  cases msg with
  | string c => simp only [bind_assoc]
  | _ => rfl

theorem length_direct : lblCallBuiltin (bytes "length") 1 = (do
    let a ← pop
    let r ← match a with
      | .array _ | .string _ | .dict _ => builtinLength .null a
      | _ => do
          perform (.error (bytes "length() requires an array, dict, or string"))
          perform (.newInt 0)
    push r) := by
  unfold lblCallBuiltin
  rw [if_pos ⟨rfl, rfl⟩]
  refine bind_congr fun a => ?_
  cases a <;> rfl

theorem length_deferred (a : AerVal) :
    vmCallBuiltinArgs (bytes "length") [a] = (do return some (← builtinLength .null a)) := by
  unfold vmCallBuiltinArgs builtinLength
  rw [if_pos ⟨rfl, rfl⟩]
  change (match a with | .array c => _ | .string c => _ | .dict c => _ | _ => _) = _
  simp only [errorOut_eq]
  cases a <;> simp only [bind_assoc]

/-- A name and a number of arguments that no built-in has. -/
structure Unrecognised (name : Bytes) (argCount : Nat) : Prop where
  length : ¬ (name = bytes "length" ∧ argCount = 1)
  delete : ¬ (name = bytes "delete" ∧ argCount = 2)
  append : ¬ (name = bytes "append" ∧ argCount = 2)
  print : ¬ (name = bytes "print" ∧ argCount = 1)
  type : ¬ (name = bytes "type" ∧ argCount = 1)
  assert : ¬ (name = bytes "assert" ∧ argCount = 2)
  panic : ¬ (name = bytes "panic" ∧ argCount = 1)

namespace Unrecognised
variable {name : Bytes} {argCount : Nat} (h : Unrecognised name argCount)
include h

theorem direct : lblCallBuiltin name argCount = lblCallStruct name argCount := by
  unfold lblCallBuiltin
  exact (if_neg h.length).trans <| (if_neg h.delete).trans <| (if_neg h.append).trans <|
    (if_neg h.print).trans <| (if_neg h.type).trans <| (if_neg h.assert).trans (if_neg h.panic)

theorem isBuiltin_eq : isBuiltin name argCount = false := by
  rw [Bool.eq_false_iff]
  intro hb
  simp only [isBuiltin, Bool.or_eq_true, Bool.and_eq_true, beq_iff_eq, List.contains_iff_mem,
    List.mem_cons, List.not_mem_nil, or_false] at hb
  rcases hb with ⟨hlen, hb | hb | hb | hb⟩ | ⟨hlen, hb | hb | hb⟩
  · exact h.length ⟨hb, hlen⟩
  · exact h.print ⟨hb, hlen⟩
  · exact h.type ⟨hb, hlen⟩
  · exact h.panic ⟨hb, hlen⟩
  · exact h.delete ⟨hb, hlen⟩
  · exact h.append ⟨hb, hlen⟩
  · exact h.assert ⟨hb, hlen⟩

end Unrecognised

theorem Unrecognised.deferred {name : Bytes} {args : List AerVal}
    (h : Unrecognised name args.length) : vmCallBuiltinArgs name args = vmCallStruct name args := by
  unfold vmCallBuiltinArgs
  exact (if_neg h.length).trans <| (if_neg h.delete).trans <| (if_neg h.append).trans <|
    (if_neg h.print).trans <| (if_neg h.type).trans <| (if_neg h.assert).trans (if_neg h.panic)

/-- The calls that both copies tell apart. -/
inductive BuiltinCall : Bytes → List AerVal → Prop
  | length (a) : BuiltinCall (bytes "length") [a]
  | delete (obj key) : BuiltinCall (bytes "delete") [obj, key]
  | append (arr val) : BuiltinCall (bytes "append") [arr, val]
  | print (v) : BuiltinCall (bytes "print") [v]
  | type (v) : BuiltinCall (bytes "type") [v]
  | assert (cond msg) : BuiltinCall (bytes "assert") [cond, msg]
  | panic (msg) : BuiltinCall (bytes "panic") [msg]
  | other {name args} (h : Unrecognised name args.length) : BuiltinCall name args

theorem builtinCall (name : Bytes) (args : List AerVal) : BuiltinCall name args := by
  have hone (hlen : args.length = 1) : ∃ a, args = [a] := List.length_eq_one_iff.mp hlen
  have htwo (hlen : args.length = 2) : ∃ a b, args = [a, b] := List.length_eq_two.mp hlen
  by_cases hlength : name = bytes "length" ∧ args.length = 1
  · obtain ⟨rfl, a, rfl⟩ := And.imp_right hone hlength
    exact .length a
  by_cases hdelete : name = bytes "delete" ∧ args.length = 2
  · obtain ⟨rfl, obj, key, rfl⟩ := And.imp_right htwo hdelete
    exact .delete obj key
  by_cases happend : name = bytes "append" ∧ args.length = 2
  · obtain ⟨rfl, arr, val, rfl⟩ := And.imp_right htwo happend
    exact .append arr val
  by_cases hprint : name = bytes "print" ∧ args.length = 1
  · obtain ⟨rfl, v, rfl⟩ := And.imp_right hone hprint
    exact .print v
  by_cases htype : name = bytes "type" ∧ args.length = 1
  · obtain ⟨rfl, v, rfl⟩ := And.imp_right hone htype
    exact .type v
  by_cases hassert : name = bytes "assert" ∧ args.length = 2
  · obtain ⟨rfl, cond, msg, rfl⟩ := And.imp_right htwo hassert
    exact .assert cond msg
  by_cases hpanic : name = bytes "panic" ∧ args.length = 1
  · obtain ⟨rfl, msg, rfl⟩ := And.imp_right hone hpanic
    exact .panic msg
  exact .other ⟨hlength, hdelete, happend, hprint, htype, hassert, hpanic⟩

section Agree
variable (cfg : Config) (s : State)

theorem length_agree (a : AerVal) :
    BuiltinsAgree cfg (bytes "length") ((s.withOperands [a]).dropped 1)
      ((lblCallBuiltin (bytes "length") 1).run (exec cfg) (s.withOperands [a]))
      ((vmCallBuiltinArgs (bytes "length") [a]).run (exec cfg) ((s.withOperands [a]).dropped 1)) := by
  have hpop : pop.run (exec cfg) (s.withOperands [a]) = .done a ((s.withOperands [a]).dropped 1) :=
    run_pop_operand cfg [a] (n := 0) (i := 0) rfl rfl
  rw [length_direct, run_bind, hpop, Outcome.done_andThen]
  -- The placeholders after an error are 0 and null.
  have herror : BuiltinsAgree cfg (bytes "length") ((s.withOperands [a]).dropped 1)
      ((do
        perform (.error (bytes "length() requires an array, dict, or string"))
        push (← perform (.newInt 0)) : Handler Unit).run (exec cfg) ((s.withOperands [a]).dropped 1))
      (.done (some .null) (((s.withOperands [a]).dropped 1).addError
        (bytes "length() requires an array, dict, or string"))) := by
    refine ⟨.integer ⟨0, by decide⟩, rfl, fun h => ?_⟩
    exact absurd (congrArg List.length h) (Nat.succ_ne_self _)
  cases a with
  | array c | string c | dict c => exact agree_of_value cfg rfl (length_deferred _)
  | _ =>
    rw [length_deferred]
    exact herror

/-- A shape that is found is there. -/
theorem shape_of_findShape {c : Chunk} {h : Heap} {name : Bytes} {id : Nat}
    (hfind : c.findShape h name = some id) : ∃ shape, h.shapes[id]? = some shape := by
  have hid := List.find?_some hfind
  cases hshape : h.shapes[id]? with
  | some shape => exact ⟨shape, rfl⟩
  | none =>
    rw [hshape] at hid
    cases hid

theorem run_shape {t : State} {id : Nat} {shape : Shape} (h : t.heap.shapes[id]? = some shape) :
    (perform (.shape id)).run (exec cfg) t = .done shape t := by
  refine (run_perform _ _ _).trans ?_
  change orFault t.heap.shapes[id]? t = _
  rw [h]
  rfl

theorem run_popArgs_all (args : List AerVal) :
    (popArgs args.length).run (exec cfg) (s.withOperands args) =
      .done args ((s.withOperands args).dropped args.length) := by
  have h := run_popArgs_operands cfg s args (j := args.length) (k := 0) (Nat.add_zero _)
  rwa [List.take_length] at h

theorem run_refused {args : List AerVal} (msg : Bytes) : (do
    perform (.error msg)
    popN args.length
    push .null : Handler Unit).run (exec cfg) (s.withOperands args) =
      (push .null).run (exec cfg) (((s.withOperands args).dropped args.length).addError msg) := by
  rw [run_bind]
  change ((popN args.length >>= fun _ => push .null).run (exec cfg)
    ((s.addError msg).withOperands args)) = _
  unfold popN
  rw [run_bind, run_bind, run_popArgs_all]
  rfl

/-- Behind the names of the built-ins both copies look for a struct type. -/
theorem struct_agree (name : Bytes) (args : List AerVal) :
    BuiltinsAgree cfg name ((s.withOperands args).dropped args.length)
      ((lblCallStruct name args.length).run (exec cfg) (s.withOperands args))
      ((vmCallStruct name args).run (exec cfg) ((s.withOperands args).dropped args.length)) := by
  have hfind : (perform (.findShape name)).run (exec cfg) (s.withOperands args) =
      .done (s.chunk.findShape s.heap name) (s.withOperands args) := run_perform _ _ _
  have hfind' : (perform (.findShape name)).run (exec cfg)
      ((s.withOperands args).dropped args.length) =
        .done (s.chunk.findShape s.heap name) ((s.withOperands args).dropped args.length) :=
    run_perform _ _ _
  unfold lblCallStruct vmCallStruct
  rw [run_bind, run_bind, hfind, hfind', Outcome.done_andThen, Outcome.done_andThen]
  cases hfound : s.chunk.findShape s.heap name with
  | none => exact ⟨rfl, run_refused cfg s _⟩
  | some id =>
    obtain ⟨shape, hshape⟩ := shape_of_findShape hfound
    dsimp only
    rw [run_bind, run_bind, run_shape cfg (t := s.withOperands args) hshape,
      run_shape cfg (t := (s.withOperands args).dropped args.length) hshape, Outcome.done_andThen,
      Outcome.done_andThen]
    split
    · exact ⟨.null, run_refused cfg s _, fun _ => rfl⟩
    · rw [run_bind, run_popArgs_all, Outcome.done_andThen]
      exact agree_of_value cfg rfl rfl

/-- A deferred call of a name that is not bound does what the direct call does. -/
theorem builtins_agree (name : Bytes) (args : List AerVal) :
    BuiltinsAgree cfg name ((s.withOperands args).dropped args.length)
      ((lblCallBuiltin name args.length).run (exec cfg) (s.withOperands args))
      ((vmCallBuiltinArgs name args).run (exec cfg) ((s.withOperands args).dropped args.length)) := by
  cases builtinCall name args with
  | length a => exact length_agree cfg s a
  | delete obj key => exact agree_two cfg s delete_direct (delete_deferred obj key)
  | append arr val => exact agree_two cfg s append_direct (append_deferred arr val)
  | print v => exact agree_one cfg s print_direct (print_deferred v)
  | type v => exact agree_one cfg s type_direct (type_deferred v)
  | assert cond msg => exact agree_two cfg s assert_direct (assert_deferred cond msg)
  | panic msg => exact agree_one cfg s panic_direct (panic_deferred msg)
  | other h =>
    rw [h.direct, h.deferred]
    exact struct_agree cfg s name args

end Agree

/-! The copies against the one chain that the machine's other results are about. -/

theorem vmCallBuiltin_known {name : Bytes} {args : List AerVal} {value : Handler AerVal}
    (h : isBuiltin name args.length = true) (hvalue : runBuiltin .null name args = value) :
    vmCallBuiltin name args = (do return some (← value)) := by
  unfold vmCallBuiltin
  simp only [h, if_true, hvalue]

theorem vmCallStruct_eq {name : Bytes} {args : List AerVal} (h : isBuiltin name args.length = false) :
    vmCallStruct name args = vmCallBuiltin name args := by
  unfold vmCallStruct vmCallBuiltin construct
  simp only [h, Bool.false_eq_true, if_false]
  refine bind_congr fun found => ?_
  cases found with
  | none => rfl
  | some id =>
    dsimp only
    rw [bind_assoc]
    refine bind_congr fun shape => ?_
    split
    · rw [errorOut_eq]
      rfl
    · rfl

theorem vmCallBuiltinArgs_eq (name : Bytes) (args : List AerVal) :
    vmCallBuiltinArgs name args = vmCallBuiltin name args := by
  cases builtinCall name args with
  | length a =>
    rw [length_deferred, vmCallBuiltin_known (by rfl) (by rw [runBuiltin, if_pos rfl])]
  | delete obj key =>
    rw [delete_deferred, vmCallBuiltin_known (by rfl) (by rw [runBuiltin, if_pos rfl])]
  | append arr val =>
    rw [append_deferred,
      vmCallBuiltin_known (by rfl) (by rw [runBuiltin, if_neg (by decide), if_pos rfl])]
  | print v =>
    rw [print_deferred,
      vmCallBuiltin_known (by rfl) (by rw [runBuiltin, if_neg (by decide), if_pos rfl])]
    rfl
  | type v =>
    rw [type_deferred, vmCallBuiltin_known (by rfl)
      (by rw [runBuiltin, if_neg (by decide), if_neg (by decide), if_pos rfl])]
    rfl
  | assert cond msg =>
    rw [assert_deferred, vmCallBuiltin_known (by rfl)
      (by rw [runBuiltin, if_neg (by decide), if_neg (by decide)])]
  | panic msg =>
    rw [panic_deferred, vmCallBuiltin_known (by rfl)
      (by rw [runBuiltin, if_neg (by decide), if_neg (by decide), if_neg (by decide)])]
  | other h => rw [h.deferred, vmCallStruct_eq h.isBuiltin_eq]

section Direct
variable (cfg : Config) (s : State)

theorem run_callUnbound_known {name : Bytes} {args : List AerVal} {value : Handler AerVal}
    (h : isBuiltin name args.length = true)
    (hvalue : runBuiltin (.integer ⟨0, by decide⟩) name args = value) :
    (callUnbound name args.length).run (exec cfg) (s.withOperands args) =
      (do push (← value) : Handler Unit).run (exec cfg) ((s.withOperands args).dropped args.length) := by
  have hzero : (perform (.newInt 0)).run (exec cfg) ((s.withOperands args).dropped args.length) =
      .done (.integer ⟨0, by decide⟩) ((s.withOperands args).dropped args.length) := rfl
  unfold callUnbound
  rw [if_pos h, run_bind, run_popArgs_all, Outcome.done_andThen, run_bind, hzero, Outcome.done_andThen, hvalue]

/-- The chain that the machine runs for a name that is not bound. -/
theorem run_callUnbound (name : Bytes) (args : List AerVal) :
    (callUnbound name args.length).run (exec cfg) (s.withOperands args) =
      (lblCallBuiltin name args.length).run (exec cfg) (s.withOperands args) := by
  cases builtinCall name args with
  | length a =>
    have hpop : pop.run (exec cfg) (s.withOperands [a]) = .done a ((s.withOperands [a]).dropped 1) :=
      run_pop_operand cfg [a] (n := 0) (i := 0) rfl rfl
    rw [run_callUnbound_known cfg s (by rfl) (by rw [runBuiltin, if_pos rfl])]
    refine Eq.symm ?_
    change (lblCallBuiltin (bytes "length") 1).run (exec cfg) (s.withOperands [a]) = _
    rw [length_direct, run_bind, hpop, Outcome.done_andThen]
    cases a <;> rfl
  | delete obj key =>
    rw [run_callUnbound_known cfg s (by rfl) (by rw [runBuiltin, if_pos rfl])]
    exact (run_two cfg s delete_direct obj key).symm
  | append arr val =>
    rw [run_callUnbound_known cfg s (by rfl) (by rw [runBuiltin, if_neg (by decide), if_pos rfl])]
    exact (run_two cfg s append_direct arr val).symm
  | print v =>
    rw [run_callUnbound_known cfg s (by rfl) (by rw [runBuiltin, if_neg (by decide), if_pos rfl])]
    exact (run_one cfg s print_direct v).symm
  | type v =>
    rw [run_callUnbound_known cfg s (by rfl)
      (by rw [runBuiltin, if_neg (by decide), if_neg (by decide), if_pos rfl])]
    exact (run_one cfg s type_direct v).symm
  | assert cond msg =>
    rw [run_callUnbound_known cfg s (by rfl)
      (by rw [runBuiltin, if_neg (by decide), if_neg (by decide)])]
    exact (run_two cfg s assert_direct cond msg).symm
  | panic msg =>
    rw [run_callUnbound_known cfg s (by rfl)
      (by rw [runBuiltin, if_neg (by decide), if_neg (by decide), if_neg (by decide)])]
    exact (run_one cfg s panic_direct msg).symm
  | other h =>
    have hfind : (perform (.findShape name)).run (exec cfg) (s.withOperands args) =
        .done (s.chunk.findShape s.heap name) (s.withOperands args) := run_perform _ _ _
    rw [h.direct]
    unfold callUnbound lblCallStruct
    rw [if_neg (by rw [h.isBuiltin_eq]; exact Bool.false_ne_true), run_bind, run_bind, hfind,
      Outcome.done_andThen, Outcome.done_andThen]
    cases hfound : s.chunk.findShape s.heap name with
    | none => rfl
    | some id =>
      obtain ⟨shape, hshape⟩ := shape_of_findShape hfound
      dsimp only
      rw [run_bind, run_popArgs_all, Outcome.done_andThen]
      unfold construct
      rw [bind_assoc, run_bind, run_bind, run_shape cfg (t := s.withOperands args) hshape,
        run_shape cfg (t := (s.withOperands args).dropped args.length) hshape, Outcome.done_andThen,
        Outcome.done_andThen]
      dsimp only
      by_cases hmany : shape.fields.length < args.length
      · rw [if_pos hmany, if_pos hmany]
        exact (run_refused cfg s _).symm
      · rw [if_neg hmany, if_neg hmany, run_bind (exec cfg) (popArgs _), run_popArgs_all]
        rfl

end Direct

end Aer.Machine
