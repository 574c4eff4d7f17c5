import Mathlib.Init

set_option linter.all false

/-! Loops of a scanner. A turn of a loop either goes round again or leaves the loop;
a loop whose turns lower a measure ends, and what bounds its length does not matter. -/
namespace Aer.Lib.Scan

/-- Why a bounded run gives no result: it read outside its text, or its bound was
too small. -/
inductive Stuck
  | overrun
  | outOfFuel
  deriving DecidableEq

abbrev Outcome := Except Stuck

variable {σ ρ : Type}

def iterate (turn : σ → Outcome (σ ⊕ ρ)) : Nat → σ → Outcome ρ
  | 0, _ => .error .outOfFuel
  | n + 1, s =>
    match turn s with
    | .ok (.inl t) => iterate turn n t
    | .ok (.inr r) => .ok r
    | .error e => .error e

/-! The rules of postconditions. `E` is what holds where there is no result. -/

def Sat {α : Type} (P : α → Prop) (E : Prop) : Outcome α → Prop
  | .ok a => P a
  | .error _ => E

namespace Sat

variable {α β : Type} {P Q : α → Prop} {E : Prop}

theorem pure {a : α} (h : P a) : Sat P E (pure a) := h

theorem mono {x : Outcome α} (hx : Sat P E x) (hPQ : ∀ a, P a → Q a) : Sat Q E x := by
  cases x with
  | error e => exact hx
  | ok a => exact hPQ a hx

theorem bind {R : β → Prop} {x : Outcome α} {f : α → Outcome β} (hx : Sat P E x)
    (hf : ∀ a, P a → Sat R E (f a)) : Sat R E (x >>= f) := by
  cases x with
  | error e => exact hx
  | ok a => exact hf a hx

theorem bind_congr {x : Outcome α} {f g : α → Outcome β} (hx : Sat P E x)
    (h : ∀ a, P a → f a = g a) : x >>= f = x >>= g := by
  cases x with
  | error e => rfl
  | ok a => exact h a hx

theorem of_ok {x : Outcome α} {a : α} (hx : Sat P E x) (h : x = .ok a) : P a := by
  subst h
  exact hx

theorem exists_ok {x : Outcome α} (hx : Sat P E x) (hE : ¬ E) : ∃ a, x = .ok a ∧ P a := by
  cases x with
  | error e => exact absurd hx hE
  | ok a => exact ⟨a, rfl, hx⟩

/-- A loop with invariant `I` and measure `μ`; `Q` relates the state a loop starts
from to what it returns. -/
theorem iterate {turn : σ → Outcome (σ ⊕ ρ)} {I : σ → Prop} {Q : σ → ρ → Prop} (μ : σ → Nat)
    (hturn : ∀ s, I s →
      Sat (Sum.elim (fun t => I t ∧ μ t < μ s ∧ ∀ r, Q t r → Q s r) (Q s)) E (turn s))
    {n : Nat} {s : σ} (hs : I s) (hn : μ s < n) : Sat (Q s) E (iterate turn n s) := by
  induction n generalizing s with
  | zero => exact absurd hn (Nat.not_lt_zero _)
  | succ n ih =>
    have hs := hturn s hs
    rw [Scan.iterate]
    cases ht : turn s with
    | error e =>
      rw [ht] at hs
      exact hs
    | ok x =>
      rw [ht] at hs
      cases x with
      | inl t =>
        obtain ⟨hit, hlt, hq⟩ := hs
        exact (ih hit (by omega)).mono hq
      | inr r => exact hs

end Sat

@[simp] theorem ok_bind {α β : Type} (a : α) (f : α → Outcome β) : (.ok a >>= f) = f a := rfl

section Turns
variable {turn : σ → Outcome (σ ⊕ ρ)}

theorem iterate_again {s t : σ} (h : turn s = .ok (.inl t)) (n : Nat) :
    iterate turn (n + 1) s = iterate turn n t := by
  rw [iterate, h]

theorem iterate_leave {s : σ} {r : ρ} (h : turn s = .ok (.inr r)) (n : Nat) :
    iterate turn (n + 1) s = .ok r := by
  rw [iterate, h]

/-- What a loop does depends on its turns at the states it comes to. -/
theorem iterate_congr {turn' : σ → Outcome (σ ⊕ ρ)} {I : σ → Prop}
    (hsame : ∀ s, I s → turn s = turn' s) (hkeep : ∀ s, I s → ∀ t, turn s = .ok (.inl t) → I t)
    (n : Nat) {s : σ} (hs : I s) : iterate turn n s = iterate turn' n s := by
  induction n generalizing s with
  | zero => rfl
  | succ n ih =>
    rw [iterate, iterate, ← hsame s hs]
    cases ht : turn s with
    | error e => rfl
    | ok x =>
      cases x with
      | inl t => exact ih (hkeep s hs t ht)
      | inr r => rfl

end Turns

end Aer.Lib.Scan
