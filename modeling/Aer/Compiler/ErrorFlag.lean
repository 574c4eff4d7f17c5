import Aer.Compiler.Program

set_option linter.all false

/-! The error flag of the parser: which reports are still known when `parse()` returns. -/
namespace Aer.Compiler

open Aer.Data Aer.Memory Aer.Machine Aer.Lib.Interaction

namespace Event

/-- The flag after a record of events, newest first. -/
def flagAfter (flag : Bool) : List Event → Bool
  | [] => flag
  | .raised :: _ => true
  | .statementBegun :: _ => false
  | .checked :: log => flagAfter flag log

/-- Whether `parse()` has seen the flag set. -/
def seen : List Event → Bool
  | [] => false
  | .checked :: log => seen log || flagAfter false log
  | _ :: log => seen log

/-- Some report is followed by the end, or by a look of `parse()` at the flag, before
the next statement begins. The record has the newest event first. -/
def Survives (log : List Event) : Prop :=
  ∃ later earlier, log = later ++ .raised :: earlier ∧
    (.statementBegun ∉ later ∨
      ∃ after between, later = after ++ .checked :: between ∧ .statementBegun ∉ between)

theorem flagAfter_append (flag : Bool) (new old : List Event) :
    flagAfter flag (new ++ old) = flagAfter (flagAfter flag old) new := by
  induction new with
  | nil => rfl
  | cons e new ih => cases e <;> simp [flagAfter, ih]

theorem flagAfter_filter (flag : Bool) (log : List Event) :
    flagAfter flag (log.filter (· ≠ .checked)) = flagAfter flag log := by
  induction log with
  | nil => rfl
  | cons e log ih => cases e <;> simp_all [flagAfter]

theorem flagAfter_of_begun {log : List Event} (h : .statementBegun ∈ log) (flag flag' : Bool) :
    flagAfter flag log = flagAfter flag' log := by
  induction log with
  | nil => cases h
  | cons e log ih => cases e <;> simp_all [flagAfter]

theorem seen_append {new : List Event} (h : .checked ∉ new) (old : List Event) :
    seen (new ++ old) = seen old := by
  induction new with
  | nil => rfl
  | cons e new ih => cases e <;> simp_all [seen]

/-- A flag that is set after a report has been set by one no statement has followed. -/
theorem exists_of_flagAfter {flag : Bool} {log : List Event} (hf : flagAfter flag log = true)
    (hr : .raised ∈ log) :
    ∃ later earlier, log = later ++ .raised :: earlier ∧ .statementBegun ∉ later := by
  induction log with
  | nil => cases hr
  | cons e log ih =>
    cases e with
    | raised => exact ⟨[], log, rfl, List.not_mem_nil⟩
    | statementBegun => cases hf
    | checked =>
      obtain ⟨later, earlier, rfl, hl⟩ := ih hf (by simpa using hr)
      exact ⟨.checked :: later, earlier, rfl, by simpa using hl⟩

theorem raised_of_flagAfter {log : List Event} (h : flagAfter false log = true) : .raised ∈ log := by
  induction log with
  | nil => cases h
  | cons e log ih => cases e <;> simp_all [flagAfter]

theorem flagAfter_of_not_begun {later earlier : List Event} (h : .statementBegun ∉ later)
    (flag : Bool) : flagAfter flag (later ++ .raised :: earlier) = true := by
  induction later with
  | nil => rfl
  | cons e later ih => cases e <;> simp_all [flagAfter]

theorem exists_of_seen {log : List Event} (h : seen log = true) :
    ∃ after between earlier, log = after ++ .checked :: between ++ .raised :: earlier ∧
      .statementBegun ∉ between := by
  induction log with
  | nil => cases h
  | cons e log ih =>
    by_cases hseen : seen log = true
    · obtain ⟨after, between, earlier, rfl, hb⟩ := ih hseen
      exact ⟨e :: after, between, earlier, rfl, hb⟩
    · cases e with
      | raised | statementBegun => exact absurd h hseen
      | checked =>
        have hf : flagAfter false log = true := by simpa [seen, hseen] using h
        obtain ⟨later, earlier, rfl, hl⟩ := exists_of_flagAfter hf (raised_of_flagAfter hf)
        exact ⟨[], later, earlier, rfl, hl⟩

theorem seen_of_suffix (after : List Event) {log : List Event} (h : seen log = true) :
    seen (after ++ log) = true := by
  induction after with
  | nil => exact h
  | cons e after ih => cases e <;> simp [seen, ih]

/-- With a report in the record, the flag is known at the end just if one survives. -/
theorem survives_iff {log : List Event} (hr : .raised ∈ log) (flag : Bool) :
    (seen log || flagAfter flag log) = true ↔ Survives log := by
  rw [Bool.or_eq_true]
  constructor
  · rintro (hseen | hf)
    · obtain ⟨after, between, earlier, rfl, hb⟩ := exists_of_seen hseen
      exact ⟨after ++ .checked :: between, earlier, rfl, .inr ⟨after, between, rfl, hb⟩⟩
    · obtain ⟨later, earlier, rfl, hl⟩ := exists_of_flagAfter hf hr
      exact ⟨later, earlier, rfl, .inl hl⟩
  · rintro ⟨later, earlier, rfl, hl | ⟨after, between, rfl, hb⟩⟩
    · exact .inr (flagAfter_of_not_begun hl flag)
    · refine .inl ?_
      rw [List.append_assoc]
      refine seen_of_suffix after ?_
      simp [seen, flagAfter_of_not_begun hb]

end Event

open Event

/-- The record of the error flag has grown by `new`, and tells the flag. -/
structure Logged (s t : Parser) (new : List Event) : Prop where
  events : t.events = new ++ s.events
  flag : t.parseHadError = flagAfter s.parseHadError new
  reports : t.reports ≠ s.reports → .raised ∈ new

namespace Logged

variable {s t u : Parser} {new new' : List Event}

theorem refl (s : Parser) : Logged s s [] := ⟨rfl, rfl, fun h => absurd rfl h⟩

theorem trans (h : Logged s t new) (h' : Logged t u new') : Logged s u (new' ++ new) where
  events := by rw [h'.events, h.events, List.append_assoc]
  flag := by rw [h'.flag, h.flag, flagAfter_append]
  reports hne := by
    rw [List.mem_append]
    by_cases ht : t.reports = s.reports
    · exact .inl (h'.reports fun hu => hne (hu.trans ht))
    · exact .inr (h.reports ht)

/-- A change of the state that leaves the flag and the reports alone. -/
theorem of_eq (hevents : t.events = s.events) (hflag : t.parseHadError = s.parseHadError)
    (hreports : t.reports = s.reports) : Logged s t [] :=
  ⟨hevents, hflag, fun h => absurd hreports h⟩

theorem report (s : Parser) (r : Report) : Logged s (s.report r) [.raised] :=
  ⟨rfl, rfl, fun _ => List.mem_singleton.mpr rfl⟩

end Logged

/-- A step of a statement: its looks at the flag are not those of `parse()`. -/
def Quiet (s t : Parser) : Prop := ∃ new, Logged s t new ∧ .checked ∉ new

namespace Quiet

variable {s t u : Parser}

theorem trans (h : Quiet s t) (h' : Quiet t u) : Quiet s u := by
  obtain ⟨new, hnew, hc⟩ := h
  obtain ⟨new', hnew', hc'⟩ := h'
  refine ⟨new' ++ new, hnew.trans hnew', ?_⟩
  simp [hc, hc']

theorem of_eq (hevents : t.events = s.events) (hflag : t.parseHadError = s.parseHadError)
    (hreports : t.reports = s.reports) : Quiet s t :=
  ⟨[], .of_eq hevents hflag hreports, List.not_mem_nil⟩

theorem refl (s : Parser) : Quiet s s := .of_eq rfl rfl rfl

theorem report (s : Parser) (r : Report) : Quiet s (s.report r) :=
  ⟨[.raised], .report s r, by decide⟩

theorem reportAll (rs : List Report) (s : Parser) : Quiet s (rs.foldl Parser.report s) := by
  induction rs generalizing s with
  | nil => exact .refl s
  | cons r rs ih => exact (Quiet.report s r).trans (ih _)

theorem setLiteral (s : Parser) (v : Option Literal) : Quiet s (s.setLiteral v) := by
  cases v <;> exact .of_eq rfl rfl rfl

theorem lex (s : Parser) : Quiet s s.lex := by
  have hstep : Quiet s { s with
      lexer := s.lexer.lex.lexer, tokenType := s.lexer.lex.type.getD s.tokenType } :=
    .of_eq rfl rfl rfl
  exact (hstep.trans (.reportAll s.lexer.lex.reports _)).trans (.setLiteral _ s.lexer.lex.value)

theorem addPool (s : Parser) (v : AerVal) : Quiet s (s.addPool v).2 := by
  unfold Parser.addPool
  cases v <;> simp only [] <;> split <;> exact .of_eq rfl rfl rfl

theorem bindImport (s : Parser) (name : Bytes) : Quiet s (s.bindImport name) := by
  unfold Parser.bindImport
  split <;> exact .of_eq rfl rfl rfl

end Quiet

/-- All operations but imports only make the record grow. -/
theorem quiet_execBasic {o : Op} {s t : Parser} {a : o.Ans} (h : execBasic o s = .done a t) :
    Quiet s t := by
  cases o with
  | lex =>
    cases h
    exact .lex s
  | errorAt msg =>
    cases h
    exact .report s _
  | beginStatement =>
    cases h
    exact ⟨[.statementBegun], ⟨rfl, rfl, fun hne => absurd rfl hne⟩, by decide⟩
  | raise =>
    cases h
    exact ⟨[.raised], ⟨rfl, rfl, fun hne => absurd rfl hne⟩, by decide⟩
  | addPool v =>
    cases h
    exact .addPool s v
  | tokenText | tokenInt | tokenReal | tokenBool | patch _ _ | poolVal _ =>
    simp only [execBasic, Parser.orStuck] at h
    split at h <;> cases h
    exact .of_eq rfl rfl rfl
  | addImport _ _ | stuck => cases h
  | _ =>
    cases h
    exact .of_eq rfl rfl rfl

section Parse
variable {exec : Exec Op Op.Ans Parser Stop} {r : Parsers}
  (hquiet : ∀ o s a t, exec o s = .done a t → Quiet s t)
  (hbegin : ∀ s, exec .beginStatement s = execBasic .beginStatement s)
include hquiet

theorem quiet_run {α : Type} {p : P α} {s t : Parser} {a : α} (h : p.run exec s = .done a t) :
    Quiet s t :=
  run_invariant h (.refl s) fun o s' a s'' hs he => hs.trans (hquiet o s' a s'' he)

include hbegin

/-- A statement clears the flag first. -/
theorem logged_parseLine {s t : Parser} {saved : Nat × Nat}
    (h : (parseLine r.statement).run exec s = .done saved t) :
    ∃ between, .checked ∉ between ∧ Logged s t (between ++ [.statementBegun]) := by
  unfold parseLine at h
  rw [run_bind] at h
  obtain ⟨_, u, hu, h⟩ := Outcome.andThen_eq_done.mp h
  have hfirst : Logged s u [.statementBegun] := by
    rw [run_perform', hbegin] at hu
    cases hu
    exact ⟨rfl, rfl, fun hne => absurd rfl hne⟩
  obtain ⟨between, hlog, hc⟩ := quiet_run hquiet h
  exact ⟨between, hc, hfirst.trans hlog⟩

/-- `parse()` looks at the flag between a statement and the recovery from it. -/
theorem logged_parseFileLine {s t : Parser} {failed : Bool}
    (h : parseFileLine exec r s = .done failed t) :
    ∃ after between, .checked ∉ after ∧ .checked ∉ between ∧
      Logged s t (after ++ .checked :: (between ++ [.statementBegun])) ∧
      failed = flagAfter false (between ++ [.statementBegun]) := by
  obtain ⟨saved, u, hu, h⟩ := Outcome.andThen_eq_done.mp h
  obtain ⟨between, hc, hlog⟩ := logged_parseLine hquiet hbegin hu
  have hflag : u.parseHadError = flagAfter false (between ++ [.statementBegun]) :=
    hlog.flag.trans (flagAfter_of_begun (by simp) _ _)
  have hlook : Logged u { u with events := .checked :: u.events } [.checked] :=
    ⟨rfl, rfl, fun hne => absurd rfl hne⟩
  dsimp only at h
  split at h
  · next hf =>
    obtain ⟨_, v, hv, h⟩ := Outcome.andThen_eq_done.mp h
    cases h
    obtain ⟨after, hafter, hca⟩ := quiet_run hquiet hv
    exact ⟨after, between, hca, hc, (hlog.trans hlook).trans hafter, hf.symm.trans hflag⟩
  · next hf =>
    cases h
    refine ⟨[], between, List.not_mem_nil, hc, hlog.trans hlook, ?_⟩
    rw [← hflag]
    exact (Bool.not_eq_true _ ▸ hf).symm

/-- What `parse()` has seen, and the flag, at the end of the file. -/
theorem logged_parseLines {n : Nat} {anyError : Bool} {s t : Parser} {log : List Event} {s₀ : Parser}
    (hs : Logged s₀ s log) (hany : anyError = seen log)
    (h : parseLines exec r n anyError s = .done () t) :
    ∃ log, t.events = log ++ s₀.events ∧ (t.reports ≠ s₀.reports → .raised ∈ log) ∧
      t.parseHadError = (seen log || flagAfter s₀.parseHadError log) := by
  induction n generalizing anyError s log with
  | zero => cases h
  | succ n ih =>
    have hlex : parseLines exec r n anyError s.lex = .done () t →
        ∃ log, t.events = log ++ s₀.events ∧ (t.reports ≠ s₀.reports → .raised ∈ log) ∧
          t.parseHadError = (seen log || flagAfter s₀.parseHadError log) := by
      intro h
      obtain ⟨new, hnew, hc⟩ := Quiet.lex s
      exact ih (hs.trans hnew) (hany.trans (seen_append hc log).symm) h
    unfold parseLines at h
    split at h
    · cases h
      exact ⟨log, hs.events, hs.reports, by simp [hany, hs.flag]⟩
    · exact hlex h
    · exact hlex h
    · obtain ⟨failed, u, hu, h⟩ := Outcome.andThen_eq_done.mp h
      obtain ⟨after, between, hca, hcb, hnew, rfl⟩ := logged_parseFileLine hquiet hbegin hu
      refine ih (hs.trans hnew) ?_ h
      have hbegun : flagAfter false (between ++ .statementBegun :: log) =
          flagAfter false (between ++ [.statementBegun]) := by
        rw [flagAfter_append, flagAfter_append]
        rfl
      simp only [List.append_assoc, List.cons_append, List.nil_append, seen_append hca, seen,
        seen_append hcb, hbegun, hany]

/-- The whole `parse()`: its record, what that has of the reports, and the flag. -/
theorem logged_parse {s t : Parser} (h : parse exec r s = .done () t) :
    ∃ log, t.events = log ++ s.events ∧ (t.reports ≠ s.reports → .raised ∈ log) ∧
      t.parseHadError = (seen log || flagAfter s.parseHadError log) :=
  logged_parseLines hquiet hbegin (.refl s) rfl h

end Parse

/-- The record of a nested compilation: a flag that is clear at its end is clear by
the record too. -/
structure Recorded (s t : Parser) : Prop where
  clear : t.parseHadError = false → flagAfter s.parseHadError t.events = false
  reports : t.reports ≠ s.reports → .raised ∈ t.events

namespace Recorded

variable {s t : Parser}

theorem report (t : Parser) (r : Report) : Recorded s (t.report r) :=
  ⟨fun h => Bool.noConfusion h, fun _ => List.mem_cons_self⟩

/-- What the importing file's record is told of the compilation. -/
theorem quiet_resume {outer : Parser} (h : Recorded s t)
    (hflag : s.parseHadError = outer.parseHadError) (hreports : s.reports = outer.reports) :
    Quiet outer (t.resume outer) := by
  refine ⟨_, ⟨rfl, ?_, fun hne => ?_⟩, by split <;> simp⟩
  · rw [flagAfter_append, flagAfter_filter]
    change t.parseHadError = _
    cases ht : t.parseHadError with
    | true => rfl
    | false => exact (hflag ▸ h.clear ht).symm
  · have hr := h.reports (hreports ▸ hne)
    simp [hr]

end Recorded

section Import
variable {env : Env} {compile : Parser → Result Unit}
  (hcompile : ∀ s t, s.events = [] → compile s = .done () t → Recorded s t)
include hcompile

theorem quiet_loadModule {name file : Bytes} {s t : Parser}
    (h : loadModule env compile name file s = .done () t) : Quiet s t := by
  unfold loadModule at h
  dsimp only at h
  split at h
  · cases h
    exact (Recorded.report _ _).quiet_resume (s := s) rfl rfl
  · split at h
    · next hflag =>
      cases h
      exact Recorded.quiet_resume (s := s)
        ⟨fun hf => absurd hflag (by simpa using hf), fun hne => absurd rfl hne⟩ rfl rfl
    · obtain ⟨_, u, hu, h⟩ := Outcome.andThen_eq_done.mp h
      have hrec := hcompile _ _ rfl hu
      split at h
      · cases h
        exact Recorded.quiet_resume (s := s) ⟨hrec.clear, hrec.reports⟩ rfl rfl
      · split at h
        · cases h
        · split at h
          · cases h
            exact (Recorded.report _ _).quiet_resume (s := s) rfl rfl
          · cases h
            refine Quiet.trans ?_ (.bindImport _ name)
            exact Recorded.quiet_resume (s := s) ⟨hrec.clear, hrec.reports⟩ rfl rfl

theorem quiet_addImport {name path : Bytes} {s t : Parser}
    (h : addImport env compile name path s = .done () t) : Quiet s t := by
  unfold addImport at h
  split at h
  · cases h
    exact .bindImport s name
  · dsimp only at h
    split at h
    · cases h
      exact .report s _
    · exact quiet_loadModule hcompile h

end Import

theorem exec_begin (env : Env) (fuel n : Nat) (s : Parser) :
    exec env fuel n .beginStatement s = execBasic .beginStatement s :=
  exec_basic env fuel n (by simp) s

theorem quiet_exec (env : Env) (fuel n : Nat) (o : Op) (s : Parser) (a : o.Ans) (t : Parser)
    (h : exec env fuel n o s = .done a t) : Quiet s t := by
  induction n generalizing o s t with
  | zero => exact quiet_execBasic h
  | succ n ih =>
    cases o with
    | addImport name path =>
      refine quiet_addImport (fun s t hs ht => ?_) h
      obtain ⟨new, hnew, hc⟩ := Quiet.lex s
      obtain ⟨log, hlog, hreports, hflag⟩ :=
        logged_parse (ih · · · ·) (exec_begin env fuel n) ht
      have hall : t.events = log ++ new := by rw [hlog, hnew.events, hs, List.append_nil]
      refine ⟨fun ht => ?_, fun hne => ?_⟩
      · rw [hall, flagAfter_append, ← hnew.flag]
        simp_all
      · rw [hall, List.mem_append]
        by_cases hl : s.lex.reports = s.reports
        · exact .inl (hreports (hl ▸ hne))
        · exact .inr (hnew.reports hl)
    | _ =>
      rw [exec_basic env fuel (n + 1) (by simp)] at h
      exact quiet_execBasic h

/-- An error in the first line of a block, with a good line behind it. -/
def forgottenError : Result Unit := parseText 20 "if true:\n    )\n    x = 1\n"

/-- The same error at the end of its block. -/
def rememberedError : Result Unit := parseText 20 "if true:\n    )\n"

end Aer.Compiler
