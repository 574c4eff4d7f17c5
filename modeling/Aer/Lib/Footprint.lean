import Aer.Lib.Interaction

set_option linter.all false

/-! Programs that can only perform operations of one kind. What these operations keep of
the state, a run of such a program keeps. -/
namespace Aer.Lib.Interaction

variable {Op : Type} {Ans : Op → Type} {σ τ ω α β : Type}

/-- Every operation in the tree satisfies `P`. -/
def Prog.Only (P : Op → Prop) : Prog Op Ans α → Prop
  | .pure _ => True
  | .op o k => P o ∧ ∀ r, (k r).Only P

namespace Only

variable {P Q : Op → Prop}

theorem pure (a : α) : Prog.Only P (Pure.pure a : Prog Op Ans α) := trivial

theorem perform {o : Op} (h : P o) : (Prog.perform o : Prog Op Ans (Ans o)).Only P :=
  ⟨h, fun _ => trivial⟩

theorem bind {p : Prog Op Ans α} {f : α → Prog Op Ans β} (hp : p.Only P)
    (hf : ∀ a, (f a).Only P) : (p >>= f).Only P := by
  induction p with
  | pure a => exact hf a
  | op o k ih => exact ⟨hp.1, fun r => ih r (hp.2 r)⟩

theorem mono {p : Prog Op Ans α} (h : p.Only P) (hPQ : ∀ o, P o → Q o) : p.Only Q := by
  induction p with
  | pure a => trivial
  | op o k ih => exact ⟨hPQ o h.1, fun r => ih r (h.2 r)⟩

/-- A run performs operations of the tree. -/
theorem of_visits {exec : Exec Op Ans σ ω} {p : Prog Op Ans α} {s s' : σ} {o : Op}
    (h : p.Only P) (hv : Visits exec p s o s') : P o := by
  induction hv with
  | here => exact h.1
  | next _ _ ih => exact ih (h.2 _)

/-- What every completed operation of the kind keeps, a completed run keeps. -/
theorem run_invariant {exec : Exec Op Ans σ ω} {I : σ → Prop} {p : Prog Op Ans α} {s t : σ} {a : α}
    (h : p.Only P) (hrun : p.run exec s = .done a t) (hs : I s)
    (hop : ∀ o s' r s'', P o → I s' → exec o s' = .done r s'' → I s'') : I t := by
  induction p generalizing s with
  | pure b =>
    cases hrun
    exact hs
  | op o k ih =>
    simp only [Prog.run] at hrun
    cases he : exec o s with
    | stop w s' =>
      rw [he] at hrun
      cases hrun
    | done r s' =>
      rw [he] at hrun
      exact ih r (h.2 r) hrun (hop o s r s' h.1 hs he)

/-- What every operation of the kind keeps, a run keeps, wherever it ends. -/
theorem run_preserves {exec : Exec Op Ans σ ω} {I : σ → Prop} {p : Prog Op Ans α} {s : σ}
    (h : p.Only P) (hs : I s) (hop : ∀ o s', P o → I s' → I (exec o s').state) :
    I (p.run exec s).state := by
  induction p generalizing s with
  | pure a => exact hs
  | op o k ih =>
    have hfirst := hop o s h.1 hs
    simp only [Prog.run]
    cases he : exec o s with
    | stop w s' =>
      rw [he] at hfirst
      exact hfirst
    | done r s' =>
      rw [he] at hfirst
      exact ih r (h.2 r) hfirst

/-- The reasons for which the operations of the kind stop are those of a run. -/
theorem run_stops {exec : Exec Op Ans σ ω} {W : ω → Prop} {p : Prog Op Ans α} {s t : σ} {w : ω}
    (h : p.Only P) (hrun : p.run exec s = .stop w t)
    (hop : ∀ o s' w t', P o → exec o s' = .stop w t' → W w) : W w := by
  induction p generalizing s with
  | pure a => cases hrun
  | op o k ih =>
    simp only [Prog.run] at hrun
    cases he : exec o s with
    | stop w' s' =>
      rw [he] at hrun
      cases hrun
      exact hop o s w t h.1 he
    | done r s' =>
      rw [he] at hrun
      exact ih r (h.2 r) hrun

/-- Two machines whose operations of the kind go in step run such a program in step. -/
theorem run_lockstep {exec : Exec Op Ans σ ω} {exec' : Exec Op Ans τ ω} {R : σ → τ → Prop}
    {p : Prog Op Ans α} {s : σ} {t : τ} (h : p.Only P) (hst : R s t)
    (hop : ∀ o s' t', P o → R s' t' → Outcome.Rel R (exec o s') (exec' o t')) :
    Outcome.Rel R (p.run exec s) (p.run exec' t) :=
  Interaction.run_lockstep hst fun o s' hv t' hR => hop o s' t' (of_visits h hv) hR

end Only

end Aer.Lib.Interaction
