import Aer.Compiler.Program

set_option linter.all false

/-! Runs of the compiler whose operations all meet a condition. -/
namespace Aer.Compiler

open Aer.Data Aer.Memory Aer.Machine Aer.Lib.Interaction

section Mono
variable {exec exec' : Exec Op Op.Ans Parser Stop}
  (hop : ∀ o s a t, exec o s = .done a t → exec' o s = .done a t)
include hop

theorem parseFileLine_mono {r : Parsers} {s t : Parser} {failed : Bool}
    (h : parseFileLine exec r s = .done failed t) : parseFileLine exec' r s = .done failed t := by
  obtain ⟨saved, w, hw, h⟩ := Outcome.andThen_eq_done.mp h
  refine Outcome.andThen_eq_done.mpr ⟨saved, w, run_mono hop hw, ?_⟩
  dsimp only at h ⊢
  split at h
  · next hflag =>
    obtain ⟨_, x, hx, h⟩ := Outcome.andThen_eq_done.mp h
    rw [if_pos hflag]
    exact Outcome.andThen_eq_done.mpr ⟨(), x, run_mono hop hx, h⟩
  · next hflag =>
    rw [if_neg hflag]
    exact h

theorem parse_mono {r : Parsers} {s t : Parser} (h : parse exec r s = .done () t) :
    parse exec' r s = .done () t := by
  suffices ∀ n anyError s, parseLines exec r n anyError s = .done () t →
      parseLines exec' r n anyError s = .done () t from this _ _ _ h
  intro n
  induction n with
  | zero =>
    intro anyError s h
    cases h
  | succ n ih =>
    intro anyError s h
    unfold parseLines at h ⊢
    split at h
    · exact h
    · exact ih _ _ h
    · exact ih _ _ h
    · obtain ⟨failed, u, hu, h⟩ := Outcome.andThen_eq_done.mp h
      exact Outcome.andThen_eq_done.mpr ⟨failed, u, parseFileLine_mono hop hu, ih _ _ h⟩

end Mono

theorem addImport_mono {env : Env} {compile compile' : Parser → Result Unit} {name path : Bytes}
    {s t : Parser} (hc : ∀ s t, compile s = .done () t → compile' s = .done () t)
    (h : addImport env compile name path s = .done () t) :
    addImport env compile' name path s = .done () t := by
  unfold addImport loadModule at h ⊢
  split at h
  · next hknown => rwa [if_pos hknown]
  · next hknown =>
    rw [if_neg hknown]
    dsimp only at h ⊢
    split at h
    · next hcircular => rwa [if_pos hcircular]
    · next hcircular =>
      rw [if_neg hcircular]
      cases hread : env.readFile (env.resolvePath s.lexer.file.name path) with
      | none => simpa only [hread] using h
      | some text =>
        simp only [hread] at h ⊢
        split at h
        · next hflag => rwa [if_pos hflag]
        · next hflag =>
          rw [if_neg hflag]
          obtain ⟨_, u, hu, h⟩ := Outcome.andThen_eq_done.mp h
          exact Outcome.andThen_eq_done.mpr ⟨(), u, hc _ _ hu, h⟩

/-- The compiler that stops at an operation the condition forbids; the condition is told how
deep imports may still be nested. -/
noncomputable def execWhile (env : Env) (fuel : Nat) (ok : Nat → Op → Parser → Prop) :
    Nat → Exec Op Op.Ans Parser Stop
  | 0 => fun o s =>
      open Classical in if ok 0 o s then execBasic o s else .stop .stuck s
  | n + 1 => fun o s =>
      open Classical in
      if ok (n + 1) o s then
        match o with
        | .addImport name path =>
            addImport env (fun s => parse (execWhile env fuel ok n) (parsers fuel) s.lex) name path s
        | o => execBasic o s
      else .stop .stuck s

variable {env : Env} {fuel : Nat} {ok : Nat → Op → Parser → Prop}

theorem ok_of_execWhile {n : Nat} {o : Op} {s t : Parser} {a : o.Ans}
    (h : execWhile env fuel ok n o s = .done a t) : ok n o s := by
  cases n <;> unfold execWhile at h <;> split at h <;> first | assumption | cases h

/-- Where it does not stop, it is the compiler. -/
theorem exec_of_execWhile (n : Nat) (o : Op) (s : Parser) (a : o.Ans) (t : Parser)
    (h : execWhile env fuel ok n o s = .done a t) : exec env fuel n o s = .done a t := by
  induction n generalizing o s a t with
  | zero =>
    unfold execWhile at h
    split at h
    · exact h
    · cases h
  | succ n ih =>
    unfold execWhile at h
    split at h
    · cases o with
      | addImport name path => exact addImport_mono (fun s t => parse_mono ih) h
      | _ => exact h
    · cases h

theorem run_of_execWhile {α : Type} {n : Nat} {p : P α} {s t : Parser} {a : α}
    (h : p.run (execWhile env fuel ok n) s = .done a t) : p.run (exec env fuel n) s = .done a t :=
  run_mono (exec_of_execWhile n) h

/-- A run without imports whose operations all meet the condition is not stopped. -/
theorem run_execWhile_of_visits {α : Type} {p : P α} {s : Parser}
    (h : ∀ o s', Visits (exec env fuel 0) p s o s' → ok 0 o s') :
    p.run (execWhile env fuel ok 0) s = p.run (exec env fuel 0) s := by
  have hstep : Outcome.Rel (· = ·) (p.run (exec env fuel 0) s) (p.run (execWhile env fuel ok 0) s) := by
    refine run_lockstep rfl fun o s' hv t' hs => ?_
    subst hs
    have hop : execWhile env fuel ok 0 o s' = exec env fuel 0 o s' := if_pos (h o s' hv)
    rw [hop]
    cases exec env fuel 0 o s' with
    | done a u => exact .done a rfl
    | stop w u => exact .stop w rfl
  generalize p.run (exec env fuel 0) s = r at hstep ⊢
  generalize p.run (execWhile env fuel ok 0) s = q at hstep ⊢
  cases hstep with
  | done a hs => rw [hs]
  | stop w hs => rw [hs]

end Aer.Compiler
