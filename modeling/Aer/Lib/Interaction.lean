import Mathlib.Logic.Basic

set_option linter.all false

/-! Programs over the operations of a machine. A program is a tree of operations and
of continuations on their answers, so what every operation preserves, or does in
step on two machines, every program preserves or does in step. -/
namespace Aer.Lib.Interaction

inductive Prog (Op : Type) (Ans : Op → Type) (α : Type) : Type
  | pure (a : α)
  | op (o : Op) (k : Ans o → Prog Op Ans α)

/-- The end of a run: an answer, or a stop with its reason. -/
inductive Outcome (σ ω α : Type)
  | done (a : α) (s : σ)
  | stop (w : ω) (s : σ)

variable {Op : Type} {Ans : Op → Type} {σ τ ω α β : Type}

namespace Prog

def bind (p : Prog Op Ans α) (f : α → Prog Op Ans β) : Prog Op Ans β :=
  match p with
  | pure a => f a
  | op o k => op o fun r => bind (k r) f

instance : Monad (Prog Op Ans) where
  pure := Prog.pure
  bind := Prog.bind

def perform (o : Op) : Prog Op Ans (Ans o) := op o pure

theorem bind_pure (p : Prog Op Ans α) : p.bind pure = p := by
  induction p with
  | pure a => rfl
  | op o k ih => exact congrArg (op o) (funext ih)

theorem bind_assoc (p : Prog Op Ans α) (f : α → Prog Op Ans β) {γ : Type} (g : β → Prog Op Ans γ) :
    (p.bind f).bind g = p.bind fun a => (f a).bind g := by
  induction p with
  | pure a => rfl
  | op o k ih => exact congrArg (op o) (funext ih)

instance : LawfulMonad (Prog Op Ans) :=
  LawfulMonad.mk' _ bind_pure (fun _ _ => rfl) fun p f g => bind_assoc p f g

end Prog

/-- The meaning of the operations on a state. -/
abbrev Exec (Op : Type) (Ans : Op → Type) (σ ω : Type) :=
  (o : Op) → σ → Outcome σ ω (Ans o)

def Prog.run (exec : Exec Op Ans σ ω) : Prog Op Ans α → σ → Outcome σ ω α
  | .pure a, s => .done a s
  | .op o k, s =>
      match exec o s with
      | .done r s => (k r).run exec s
      | .stop w s => .stop w s

namespace Outcome

def andThen (r : Outcome σ ω α) (f : α → σ → Outcome σ ω β) : Outcome σ ω β :=
  match r with
  | done a s => f a s
  | stop w s => stop w s

def state : Outcome σ ω α → σ
  | done _ s => s
  | stop _ s => s

def isDone : Outcome σ ω α → Bool
  | done _ _ => true
  | stop _ _ => false

theorem eq_done_of_isDone {r : Outcome σ ω Unit} (h : r.isDone = true) : r = .done () r.state := by
  cases r with
  | done a s => rfl
  | stop w s => cases h

@[simp] theorem done_andThen (a : α) (s : σ) (f : α → σ → Outcome σ ω β) :
    (done a s).andThen f = f a s := rfl

@[simp] theorem stop_andThen (w : ω) (s : σ) (f : α → σ → Outcome σ ω β) :
    (stop w s : Outcome σ ω α).andThen f = stop w s := rfl

theorem andThen_eq_done {r : Outcome σ ω α} {f : α → σ → Outcome σ ω β} {b : β} {t : σ} :
    r.andThen f = .done b t ↔ ∃ a u, r = .done a u ∧ f a u = .done b t := by
  cases r with
  | done a u => exact ⟨fun h => ⟨a, u, rfl, h⟩, fun ⟨_, _, hr, h⟩ => by cases hr; exact h⟩
  | stop w u =>
    refine ⟨fun h => ?_, fun ⟨_, _, hr, _⟩ => ?_⟩
    · cases h
    · cases hr

/-- The same answer or the same stop, in related states. -/
inductive Rel (R : σ → τ → Prop) : Outcome σ ω α → Outcome τ ω α → Prop
  | done (a : α) {s : σ} {t : τ} : R s t → Rel R (.done a s) (.done a t)
  | stop (w : ω) {s : σ} {t : τ} : R s t → Rel R (.stop w s) (.stop w t)

theorem Rel.state {R : σ → τ → Prop} {r : Outcome σ ω α} {q : Outcome τ ω α} (h : Rel R r q) :
    R r.state q.state := by
  cases h with
  | done _ h => exact h
  | stop _ h => exact h

end Outcome

section Run
variable (exec : Exec Op Ans σ ω)

@[simp] theorem run_pure (a : α) (s : σ) :
    (pure a : Prog Op Ans α).run exec s = .done a s := rfl

@[simp] theorem run_perform (o : Op) (s : σ) : (Prog.perform o).run exec s = exec o s := by
  unfold Prog.perform Prog.run
  cases exec o s <;> rfl

theorem run_bind (p : Prog Op Ans α) (f : α → Prog Op Ans β) (s : σ) :
    (p >>= f).run exec s = (p.run exec s).andThen fun a s => (f a).run exec s := by
  induction p generalizing s with
  | pure a => rfl
  | op o k ih =>
    change (Prog.op o fun r => (k r).bind f).run exec s = _
    simp only [Prog.run]
    cases exec o s with
    | done r s => exact ih r s
    | stop w s => rfl

end Run

/-- A run that comes to a state in which this program is left to run. -/
inductive Reaches (exec : Exec Op Ans σ ω) :
    Prog Op Ans α → σ → Prog Op Ans α → σ → Prop
  | here {p : Prog Op Ans α} {s : σ} : Reaches exec p s p s
  | next {o : Op} {k : Ans o → Prog Op Ans α} {s s' s'' : σ} {r : Ans o} {q : Prog Op Ans α} :
      exec o s = .done r s' → Reaches exec (k r) s' q s'' → Reaches exec (.op o k) s q s''

theorem Reaches.run_eq {exec : Exec Op Ans σ ω} {p q : Prog Op Ans α} {s u : σ}
    (h : Reaches exec p s q u) : p.run exec s = q.run exec u := by
  induction h with
  | here => rfl
  | next he _ ih => rw [Prog.run, he, ← ih]

/-- The operations a run performs, each with the state it is performed in. -/
inductive Visits (exec : Exec Op Ans σ ω) : Prog Op Ans α → σ → Op → σ → Prop
  | here {o : Op} {k : Ans o → Prog Op Ans α} {s : σ} : Visits exec (.op o k) s o s
  | next {o : Op} {k : Ans o → Prog Op Ans α} {s s' s'' : σ} {r : Ans o} {o' : Op} :
      exec o s = .done r s' → Visits exec (k r) s' o' s'' → Visits exec (.op o k) s o' s''

/-- Whether a run performs an operation that a test picks out. -/
def anyVisited (exec : Exec Op Ans σ ω) (test : Op → Bool) : Prog Op Ans α → σ → Bool
  | .pure _, _ => false
  | .op o k, s =>
      test o || match exec o s with
        | .done r s => anyVisited exec test (k r) s
        | .stop _ _ => false

theorem anyVisited_of_visits {exec : Exec Op Ans σ ω} {test : Op → Bool} {p : Prog Op Ans α}
    {s s' : σ} {o : Op} (h : Visits exec p s o s') (ho : test o = true) :
    anyVisited exec test p s = true := by
  induction h with
  | here => simp [anyVisited, ho]
  | next he _ ih => simp [anyVisited, he, ih ho]

/-- The state in which a run first performs an operation that a test picks out. -/
def firstVisited (exec : Exec Op Ans σ ω) (test : Op → σ → Bool) : Prog Op Ans α → σ → Option σ
  | .pure _, _ => none
  | .op o k, s =>
      if test o s then some s
      else match exec o s with
        | .done r s => firstVisited exec test (k r) s
        | .stop _ _ => none

theorem visits_of_firstVisited {exec : Exec Op Ans σ ω} {test : Op → σ → Bool} {p : Prog Op Ans α}
    {s s' : σ} (h : firstVisited exec test p s = some s') :
    ∃ o, Visits exec p s o s' ∧ test o s' = true := by
  induction p generalizing s with
  | pure a => cases h
  | op o k ih =>
    unfold firstVisited at h
    split at h
    · next htest =>
      cases h
      exact ⟨o, .here, htest⟩
    · split at h
      · next he =>
        obtain ⟨o', hv, htest⟩ := ih _ h
        exact ⟨o', .next he hv, htest⟩
      · cases h

section Unary
variable {exec : Exec Op Ans σ ω} {I : σ → Prop}

/-- An invariant that holds at the start and over every operation performed holds at the end. -/
theorem run_preserves {p : Prog Op Ans α} {s : σ} (hs : I s)
    (hop : ∀ o s', Visits exec p s o s' → I s' → I (exec o s').state) :
    I (p.run exec s).state := by
  induction p generalizing s with
  | pure a => exact hs
  | op o k ih =>
    have hfirst := hop o s .here hs
    simp only [Prog.run]
    cases he : exec o s with
    | stop w s' =>
      rw [he] at hfirst
      exact hfirst
    | done r s' =>
      rw [he] at hfirst
      exact ih r hfirst fun o' s'' hv => hop o' s'' (.next he hv)

/-- What every completed operation keeps, a completed run keeps. -/
theorem run_invariant {p : Prog Op Ans α} {s t : σ} {a : α} (h : p.run exec s = .done a t)
    (hs : I s) (hop : ∀ o s' r s'', I s' → exec o s' = .done r s'' → I s'') : I t := by
  induction p generalizing s with
  | pure b =>
    cases h
    exact hs
  | op o k ih =>
    simp only [Prog.run] at h
    cases he : exec o s with
    | stop w s' =>
      rw [he] at h
      cases h
    | done r s' =>
      rw [he] at h
      exact ih r h (hop o s r s' hs he)

end Unary

/-- A machine that answers as another wherever it answers runs programs as that one does. -/
theorem run_mono {exec exec' : Exec Op Ans σ ω}
    (hop : ∀ o s r t, exec o s = .done r t → exec' o s = .done r t) {p : Prog Op Ans α} {s t : σ}
    {a : α} (h : p.run exec s = .done a t) : p.run exec' s = .done a t := by
  induction p generalizing s with
  | pure b => exact h
  | op o k ih =>
    simp only [Prog.run] at h
    cases he : exec o s with
    | stop w s' =>
      rw [he] at h
      cases h
    | done r s' =>
      rw [he] at h
      simp only [Prog.run, hop o s r s' he]
      exact ih r h

section Relational
variable {exec : Exec Op Ans σ ω} {exec' : Exec Op Ans τ ω} {R : σ → τ → Prop}

/-- Two machines whose operations go in step run every program in step. -/
theorem run_lockstep {p : Prog Op Ans α} {s : σ} {t : τ} (hst : R s t)
    (hop : ∀ o s', Visits exec p s o s' → ∀ t', R s' t' → Outcome.Rel R (exec o s') (exec' o t')) :
    Outcome.Rel R (p.run exec s) (p.run exec' t) := by
  induction p generalizing s t with
  | pure a => exact .done a hst
  | op o k ih =>
    have hfirst := hop o s .here t hst
    simp only [Prog.run]
    cases he : exec o s with
    | stop w s' =>
      rw [he] at hfirst
      cases he' : exec' o t with
      | stop w' t' =>
        rw [he'] at hfirst
        cases hfirst with
        | stop _ h => exact .stop w h
      | done r t' =>
        rw [he'] at hfirst
        cases hfirst
    | done r s' =>
      rw [he] at hfirst
      cases he' : exec' o t with
      | stop w' t' =>
        rw [he'] at hfirst
        cases hfirst
      | done r' t' =>
        rw [he'] at hfirst
        cases hfirst with
        | done _ h => exact ih r h fun o' s'' hv => hop o' s'' (.next he hv)

end Relational

end Aer.Lib.Interaction
