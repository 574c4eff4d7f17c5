import Mathlib.Data.List.Iterate

set_option linter.all false

/-! Walking from a point by a step function while a test holds. The walk ends when a
measure falls along it, and what bounds its length does not matter then. -/
namespace Aer.Lib.Walk

variable {α : Type}

/-- The points `a`, `f a`, `f (f a)` and so on while `p` holds, at most `n` of them. -/
def walk (f : α → α) (p : α → Bool) (n : Nat) (a : α) : List α :=
  (List.iterate f a n).takeWhile p

theorem walk_succ (f : α → α) (p : α → Bool) (n : Nat) (a : α) :
    walk f p (n + 1) a = if p a then a :: walk f p n (f a) else [] := by
  unfold walk
  rw [List.iterate, List.takeWhile_cons]

theorem walk_stop {f : α → α} {p : α → Bool} {a : α} (h : p a = false) (n : Nat) :
    walk f p n a = [] := by
  cases n with
  | zero => rfl
  | succ n => rw [walk_succ, h, if_neg Bool.false_ne_true]

section Measure
variable {f : α → α} {p : α → Bool} {m : α → Nat} (hm : ∀ a, p a = true → m (f a) < m a)
include hm

theorem walk_stable {a : α} {n k : Nat} (hn : m a ≤ n) (hk : m a ≤ k) :
    walk f p n a = walk f p k a := by
  induction n generalizing a k with
  | zero =>
    have hp : p a = false := by
      by_contra hp
      exact absurd (hm a (by simpa using hp)) (by omega)
    rw [walk_stop hp, walk_stop hp]
  | succ n ih =>
    cases hp : p a with
    | false => rw [walk_stop hp, walk_stop hp]
    | true =>
      have hlt := hm a hp
      obtain ⟨k, rfl⟩ : ∃ k', k = k' + 1 := ⟨k - 1, by omega⟩
      rw [walk_succ, walk_succ, ih (k := k) (by omega) (by omega)]

theorem walk_cons {a : α} (hp : p a = true) :
    walk f p (m a) a = a :: walk f p (m (f a)) (f a) := by
  have hlt := hm a hp
  obtain ⟨k, hk⟩ : ∃ k, m a = k + 1 := ⟨m a - 1, by omega⟩
  rw [hk, walk_succ, if_pos hp, walk_stable hm (n := k) (k := m (f a)) (by omega) (le_refl _)]

end Measure

end Aer.Lib.Walk
