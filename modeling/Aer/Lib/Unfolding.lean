import Mathlib.Data.Finset.Card
import Mathlib.Logic.Relation

set_option linter.all false

/-! Recursion over a graph whose nodes may be shared: it ends within some depth exactly when
nothing that is reached is inside itself. -/
namespace Aer.Lib.Unfolding

open Relation

variable {α : Type} {inside : α → List α} {leaf : α → Prop} {a b c w : α} {n m : Nat}

/-- `b` is directly inside `a`. -/
abbrev Child (inside : α → List α) (b a : α) : Prop := b ∈ inside a

/-- The recursion from a node ends within `n` levels below it. -/
inductive Within (inside : α → List α) (leaf : α → Prop) : Nat → α → Prop
  | leaf {n : Nat} {a : α} : leaf a → Within inside leaf n a
  | node {n : Nat} {a : α} : (∀ b ∈ inside a, Within inside leaf n b) → Within inside leaf (n + 1) a

def Acyclic (inside : α → List α) (a : α) : Prop :=
  ∀ b, ReflTransGen (Child inside) b a → ¬ TransGen (Child inside) b b

theorem Within.mono (h : Within inside leaf n a) (hnm : n ≤ m) : Within inside leaf m a := by
  induction h generalizing m with
  | leaf hl => exact .leaf hl
  | node _ ih =>
    obtain ⟨m, rfl⟩ : ∃ k, m = k + 1 := ⟨m - 1, by omega⟩
    exact .node fun b hb => ih b hb (by omega)

theorem Within.acc (hleaf : ∀ a, leaf a → inside a = []) (h : Within inside leaf n a) :
    Acc (Child inside) a := by
  induction h with
  | @leaf _ a hl =>
    constructor
    intro b hb
    rw [Child, hleaf a hl] at hb
    cases hb
  | node _ ih => exact ⟨_, ih⟩

theorem acyclic_of_acc (h : Acc (Child inside) a) : Acyclic inside a := by
  intro b hb hcycle
  have hbelow : ∀ {c}, ReflTransGen (Child inside) c a → Acc (Child inside) c := by
    intro c hc
    induction hc using ReflTransGen.head_induction_on with
    | refl => exact h
    | head hstep _ ih => exact ih.inv hstep
  have hacc : Acc (TransGen (Child inside)) b := (hbelow hb).transGen
  induction hacc with
  | intro b _ ih => exact ih b hcycle hb hcycle

theorem Acyclic.child (h : Acyclic inside a) (hb : b ∈ inside a) : Acyclic inside b :=
  fun c hc => h c (hc.tail hb)

/-- With the inner nodes that are reached among finitely many, their number is depth enough:
below a node it does not come up again. -/
theorem within_of_acyclic [DecidableEq α] (s : Finset α) (h : Acyclic inside a)
    (hs : ∀ b, ReflTransGen (Child inside) b a → ¬ leaf b → b ∈ s) :
    Within inside leaf s.card a := by
  induction hn : s.card generalizing s a with
  | zero =>
    by_contra hw
    have ha : a ∈ s := hs a .refl fun hl => hw (.leaf hl)
    rw [Finset.card_eq_zero.mp hn] at ha
    cases ha
  | succ n ih =>
    by_cases hl : leaf a
    · exact .leaf hl
    have ha : a ∈ s := hs a .refl hl
    have hcard : (s.erase a).card = n := by rw [Finset.card_erase_of_mem ha, hn, Nat.add_sub_cancel]
    refine .node fun b hb => ih (s.erase a) (h.child hb) (fun c hc hleaf => ?_) hcard
    refine Finset.mem_erase.mpr ⟨?_, hs c (hc.tail hb) hleaf⟩
    rintro rfl
    exact h c .refl (.tail' hc hb)

theorem exists_within_iff [DecidableEq α] (hleaf : ∀ a, leaf a → inside a = []) (s : Finset α)
    (hs : ∀ b, ReflTransGen (Child inside) b a → ¬ leaf b → b ∈ s) :
    (∃ n, Within inside leaf n a) ↔ Acyclic inside a :=
  ⟨fun ⟨_, h⟩ => acyclic_of_acc (h.acc hleaf), fun h => ⟨s.card, within_of_acyclic s h hs⟩⟩

/-! Growing graphs. -/

section Links
variable {inside' : α → List α}

/-- With `w` put into `c`, a path is an old one or goes through the new link once. -/
theorem transGen_link (hlink : ∀ b a, b ∈ inside' a → b ∈ inside a ∨ b = w ∧ a = c)
    (hnew : ¬ ReflTransGen (Child inside) c w) {x y : α} (h : TransGen (Child inside') x y) :
    TransGen (Child inside) x y ∨
      ReflTransGen (Child inside) x w ∧ ReflTransGen (Child inside) c y := by
  induction h with
  | single hxy =>
    rcases hlink _ _ hxy with hold | ⟨rfl, rfl⟩
    · exact .inl (.single hold)
    · exact .inr ⟨.refl, .refl⟩
  | tail _ hyz ih =>
    rcases hlink _ _ hyz with hold | ⟨rfl, rfl⟩
    · rcases ih with hpath | ⟨hxw, hcy⟩
      · exact .inl (hpath.tail hold)
      · exact .inr ⟨hxw, hcy.tail hold⟩
    · rcases ih with hpath | ⟨-, hcy⟩
      · exact .inr ⟨hpath.to_reflTransGen, .refl⟩
      · exact absurd hcy hnew

/-- A link that closes no cycle. -/
theorem not_cycle_link (hlink : ∀ b a, b ∈ inside' a → b ∈ inside a ∨ b = w ∧ a = c)
    (hnew : ¬ ReflTransGen (Child inside) c w) (hold : ∀ a, ¬ TransGen (Child inside) a a) (a : α) :
    ¬ TransGen (Child inside') a a := by
  intro h
  rcases transGen_link hlink hnew h with hpath | ⟨haw, hca⟩
  · exact hold a hpath
  · exact hnew (hca.trans haw)

/-- A new node that nothing is known to hold. -/
theorem not_cycle_fresh (hlink : ∀ b a, b ∈ inside' a → b ∈ inside a ∨ a = c)
    (hfresh : ∀ a, c ∉ inside' a) (hold : ∀ a, ¬ TransGen (Child inside) a a) (a : α) :
    ¬ TransGen (Child inside') a a := by
  have hpath : ∀ {x y}, TransGen (Child inside') x y → TransGen (Child inside) x y ∨ y = c := by
    intro x y h
    induction h with
    | single hxy => exact (hlink _ _ hxy).imp .single id
    | tail _ hyz ih =>
      rcases ih with hxy | rfl
      · exact (hlink _ _ hyz).imp hxy.tail id
      · exact absurd hyz (hfresh _)
  intro h
  rcases hpath h with hcycle | rfl
  · exact hold a hcycle
  · obtain ⟨_, hstep, -⟩ := TransGen.head'_iff.mp h
    exact hfresh _ hstep

end Links

end Aer.Lib.Unfolding
