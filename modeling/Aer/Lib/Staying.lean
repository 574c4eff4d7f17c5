import Aer.Lib.Interaction

set_option linter.all false

/-! What relates a state to every state that a run comes to, and to the one it ends in.
The second relation may say more: a run may break on its way what it makes good at its
end. -/
namespace Aer.Lib.Interaction

variable {Op : Type} {Ans : Op → Type} {σ ω α β : Type} {exec : Exec Op Ans σ ω}
  {p : Prog Op Ans α} {f : α → Prog Op Ans β}

theorem reaches_of_run {s t : σ} {a : α} (h : p.run exec s = .done a t) :
    Reaches exec p s (pure a) t := by
  induction p generalizing s with
  | pure b =>
    cases h
    exact .here
  | op o k ih =>
    simp only [Prog.run] at h
    cases he : exec o s with
    | stop w u =>
      rw [he] at h
      cases h
    | done b u =>
      rw [he] at h
      exact .next he (ih b h)

/-- A run through a sequence is in its first part, or behind it. -/
theorem reaches_bind {s u : σ} {q : Prog Op Ans β} (h : Reaches exec (p >>= f) s q u) :
    (∃ p', Reaches exec p s p' u) ∨
      ∃ a t, p.run exec s = .done a t ∧ Reaches exec (f a) t q u := by
  induction p generalizing s with
  | pure a => exact .inr ⟨a, s, rfl, h⟩
  | op o k ih =>
    change Reaches exec (Prog.op o fun r => k r >>= f) s q u at h
    cases h with
    | here => exact .inl ⟨_, .here⟩
    | next he h =>
      rcases ih _ h with ⟨p', hp⟩ | ⟨a, t, hrun, hf⟩
      · exact .inl ⟨p', .next he hp⟩
      · refine .inr ⟨a, t, ?_, hf⟩
        simp only [Prog.run, he]
        exact hrun

/-- From `u` on, the run comes only to states that `K` relates to `s`, and ends only in
states that `R` relates to it. -/
structure Stays (exec : Exec Op Ans σ ω) (K R : σ → σ → Prop) (s u : σ) (p : Prog Op Ans α) :
    Prop where
  reached : ∀ q v, Reaches exec p u q v → K s v
  ended : ∀ a v, p.run exec u = .done a v → R s v

section Stays
variable {K R M : σ → σ → Prop} {s u : σ}

theorem Stays.start (h : Stays exec K R s u p) : K s u := h.reached p u .here

theorem Stays.pure {a : α} (hk : K s u) (hr : R s u) :
    Stays exec K R s u (pure a : Prog Op Ans α) where
  reached q v h := by
    cases h
    exact hk
  ended b v h := by
    cases h
    exact hr

theorem Stays.bind (hp : Stays exec K M s u p)
    (hf : ∀ a v, p.run exec u = .done a v → M s v → Stays exec K R s v (f a)) :
    Stays exec K R s u (p >>= f) where
  reached q v h := by
    rcases reaches_bind h with ⟨p', h⟩ | ⟨a, t, hrun, h⟩
    · exact hp.reached p' v h
    · exact (hf a t hrun (hp.ended a t hrun)).reached q v h
  ended b v h := by
    rw [run_bind] at h
    obtain ⟨a, t, hrun, h⟩ := Outcome.andThen_eq_done.mp h
    exact (hf a t hrun (hp.ended a t hrun)).ended b v h

theorem Stays.perform {o : Op} (hk : K s u) (h : ∀ a v, exec o u = .done a v → K s v ∧ R s v) :
    Stays exec K R s u (Prog.perform o) where
  reached q v hv := by
    cases hv with
    | here => exact hk
    | next he hv =>
      cases hv
      exact (h _ _ he).1
  ended a v hv := by
    rw [run_perform] at hv
    exact (h a v hv).2

theorem Stays.weaken (h : Stays exec K R s u p) (hr : ∀ v, R s v → M s v) :
    Stays exec K M s u p := ⟨h.reached, fun a v hv => hr v (h.ended a v hv)⟩

/-- A run that goes on in a related state. -/
theorem Stays.after (h : Stays exec K R u u p) (hk : ∀ v, K u v → K s v)
    (hr : ∀ v, R u v → M s v) : Stays exec K M s u p where
  reached q v hv := hk v (h.reached q v hv)
  ended a v hv := hr v (h.ended a v hv)

end Stays

end Aer.Lib.Interaction
