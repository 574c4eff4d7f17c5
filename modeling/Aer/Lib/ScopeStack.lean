import Mathlib.Data.List.Basic
import Mathlib.Logic.Function.Basic

set_option linter.all false

/-! A stack of finite maps. A call in progress sees the maps pushed since its entry
and, behind them, the outermost one. -/
namespace Aer.Lib

structure ScopeStack (ν α : Type) where
  /-- The outermost map first. -/
  scopes : List (ν → Option α)
  /-- The number of maps at the entry of each call in progress, the last call first. -/
  floors : List Nat

/-- What a program sees of an operation. -/
inductive Seen (ν α : Type)
  | nothing
  | value (v : α)
  | undefined (n : ν)
  deriving DecidableEq

namespace ScopeStack

variable {ν α : Type}

/-- One map, which binds nothing, and no call. -/
def init : ScopeStack ν α := ⟨[fun _ => none], []⟩

def floor (s : ScopeStack ν α) : Nat := s.floors.headD 0

/-- The maps a name is looked up in, by their places in the stack. -/
def chain (s : ScopeStack ν α) : List Nat :=
  (List.range' s.floor (s.scopes.length - s.floor)).reverse ++ if s.floor = 0 then [] else [0]

def valueAt (s : ScopeStack ν α) (n : ν) (i : Nat) : Option α :=
  (s.scopes[i]?).bind fun m => m n

/-- The map of the innermost binding of a name. -/
def nearest (s : ScopeStack ν α) (n : ν) : Option Nat :=
  s.chain.find? fun i => (s.valueAt n i).isSome

def lookup (s : ScopeStack ν α) (n : ν) : Option α := (s.nearest n).bind (s.valueAt n)

/-- A read of a name. -/
def read (s : ScopeStack ν α) (n : ν) : Seen ν α :=
  match s.lookup n with
  | some v => .value v
  | none => .undefined n

/-- A use of a name that does not show its value. -/
def need (s : ScopeStack ν α) (n : ν) : Seen ν α :=
  match s.lookup n with
  | some _ => .nothing
  | none => .undefined n

def push (s : ScopeStack ν α) : ScopeStack ν α := { s with scopes := s.scopes ++ [fun _ => none] }

def pop (s : ScopeStack ν α) : ScopeStack ν α := { s with scopes := s.scopes.dropLast }

def enter (s : ScopeStack ν α) : ScopeStack ν α := { s with floors := s.scopes.length :: s.floors }

/-- Return from a call, out of all its maps. -/
def leave (s : ScopeStack ν α) : ScopeStack ν α := ⟨s.scopes.take s.floor, s.floors.tail⟩

variable [DecidableEq ν]

def bind (s : ScopeStack ν α) (i : Nat) (n : ν) (v : α) : ScopeStack ν α :=
  { s with scopes := s.scopes.modify i fun m => Function.update m n (some v) }

/-- Bind a name in the innermost map. -/
def define (s : ScopeStack ν α) (n : ν) (v : α) : ScopeStack ν α := s.bind (s.scopes.length - 1) n v

/-- Rebind a name where it is bound, or else bind it in the innermost map. -/
def store (s : ScopeStack ν α) (n : ν) (v : α) : ScopeStack ν α :=
  match s.nearest n with
  | some i => s.bind i n v
  | none => s.define n v

theorem valueAt_push {s : ScopeStack ν α} (n : ν) (i : Nat) :
    s.push.valueAt n i = if i < s.scopes.length then s.valueAt n i else none := by
  unfold valueAt push
  rw [List.getElem?_append]
  split
  · rfl
  · rw [List.getElem?_singleton]
    split <;> rfl

theorem valueAt_pop {s : ScopeStack ν α} (n : ν) {i : Nat} (hi : i < s.scopes.length - 1) :
    s.pop.valueAt n i = s.valueAt n i := by
  unfold valueAt pop
  rw [List.getElem?_dropLast, if_pos hi]

theorem valueAt_leave {s : ScopeStack ν α} (n : ν) {i : Nat} (hi : i < s.floor) :
    s.leave.valueAt n i = s.valueAt n i := by
  unfold valueAt leave
  rw [List.getElem?_take_of_lt hi]

theorem valueAt_bind {s : ScopeStack ν α} {i : Nat} (hi : i < s.scopes.length) (n m : ν) (v : α)
    (j : Nat) : (s.bind i n v).valueAt m j = if i = j ∧ m = n then some v else s.valueAt m j := by
  unfold valueAt bind
  rw [List.getElem?_modify]
  by_cases hj : i = j
  · subst hj
    rw [List.getElem?_eq_getElem hi]
    by_cases hm : m = n
    · simp [hm]
    · simp [hm, Function.update_of_ne hm]
  · simp [hj]

end ScopeStack

end Aer.Lib
