import Aer.Compiler.ErrorFlag
import Aer.Compiler.Traversal

set_option linter.all false

/-! String literals with interpolated names: the pieces the scanner finds in them, what is
emitted for the pieces, and which braces it refuses. -/
namespace Aer.Compiler

open Aer.Data Aer.Memory Aer.Machine Aer.Lib.Interaction

/-- A piece of a string literal, as it is written. -/
inductive Piece
  | text (s : Bytes)
  /-- What stands between an open brace and the next closing one. -/
  | name (n : Bytes)
  /-- An open brace that is never closed. -/
  | unclosed
  deriving DecidableEq

def textPiece (s : Bytes) : List Piece := if s.isEmpty then [] else [.text s]

theorem segmentLength_le (s : Bytes) : segmentLength s ≤ s.length := by
  fun_induction segmentLength s <;> simp_all

theorem dropWhile_shorter {p : UInt8 → Bool} {s : Bytes} {c : UInt8} {rest : Bytes}
    (h : s.dropWhile p = c :: rest) : rest.length < s.length := by
  have hle := (List.dropWhile_suffix p (l := s)).length_le
  rw [h] at hle
  exact hle

/-- The pieces of a literal's text, in order. -/
def pieces (s : Bytes) : List Piece :=
  textPiece (s.take (segmentLength s)) ++
    match hd : s.drop (segmentLength s) with
    | [] => []
    | _ :: behind =>
        match hb : behind.dropWhile (· ≠ byte '\x7d') with
        | [] => [.unclosed]
        | _ :: rest => .name (behind.takeWhile (· ≠ byte '\x7d')) :: pieces rest
termination_by s.length
decreasing_by
  have hrest := dropWhile_shorter hb
  have hdrop := congrArg List.length hd
  simp only [List.length_drop, List.length_cons] at hdrop
  omega

/-! What is emitted for the pieces. -/

def emitPiece : Piece → Nat → P Nat
  | .text s, parts => do
      emitOp .push
      emitNat (← poolEscapedString s)
      joinPart parts
  | .name n, parts =>
      if n.isEmpty then do
        errorAt "Empty '\x7b\x7d' in string"
        return parts
      else do
        emitLoad (← addPool (← perform (.makeString n)))
        emitOp .toStr
        joinPart parts
  | .unclosed, parts => do
      errorAt "Unclosed '\x7b' in string"
      return parts

def emitPieces : List Piece → Nat → P Nat
  | [], parts => return parts
  | p :: ps, parts => do emitPieces ps (← emitPiece p parts)

theorem emitPieces_append (ps qs : List Piece) (parts : Nat) :
    emitPieces (ps ++ qs) parts = (do emitPieces qs (← emitPieces ps parts)) := by
  induction ps generalizing parts with
  | nil => rfl
  | cons p ps ih =>
    simp only [List.cons_append, emitPieces, ih, bind_assoc]

/-- Behind a piece of text: the end, or a name in braces. -/
def scanName (behind : Bytes) (parts : Nat) : P ((Bytes × Nat) ⊕ Nat) :=
  match behind with
  | [] => return .inr parts
  | _ :: behind =>
      let name := behind.takeWhile (· ≠ byte '\x7d')
      match behind.dropWhile (· ≠ byte '\x7d') with
      | [] => do return .inr (← emitPiece .unclosed parts)
      | _ :: rest => do return .inl (rest, ← emitPiece (.name name) parts)

theorem parseStringPart_eq (s : Bytes) (parts : Nat) :
    parseStringPart (s, parts) = (do
      let parts ← emitPieces (textPiece (s.take (segmentLength s))) parts
      scanName (s.drop (segmentLength s)) parts) := by
  have hscan (parts : Nat) : (match s.drop (segmentLength s) with
      | [] => return .inr parts
      | _ :: behind =>
          let name := behind.takeWhile (· ≠ byte '\x7d')
          match behind.dropWhile (· ≠ byte '\x7d') with
          | [] => do
              errorAt "Unclosed '\x7b' in string"
              return .inr parts
          | _ :: rest => do
              if name.isEmpty then
                errorAt "Empty '\x7b\x7d' in string"
                return .inl (rest, parts)
              else
                emitLoad (← addPool (← perform (.makeString name)))
                emitOp .toStr
                return .inl (rest, ← joinPart parts) : P ((Bytes × Nat) ⊕ Nat)) =
      scanName (s.drop (segmentLength s)) parts := by
    unfold scanName
    cases s.drop (segmentLength s) with
    | nil => rfl
    | cons c behind =>
      dsimp only
      cases behind.dropWhile (· ≠ byte '\x7d') with
      | nil => rfl
      | cons c rest =>
        dsimp only [emitPiece]
        split <;> simp only [bind_assoc, pure_bind]
  unfold parseStringPart textPiece
  dsimp only
  split
  · exact hscan parts
  · simp only [emitPieces, emitPiece, bind_assoc, pure_bind]
    exact bind_congr fun _ => bind_congr fun _ => bind_congr fun _ => bind_congr fun parts => hscan parts

/-- The scanner of an interpolated string emits its pieces. -/
theorem loop_parseStringPart {fuel : Nat} {s : Bytes} {parts : Nat} (h : s.length < fuel) :
    loop parseStringPart fuel (s, parts) = emitPieces (pieces s) parts := by
  induction fuel generalizing s parts with
  | zero => cases h
  | succ fuel ih =>
    rw [pieces, emitPieces_append, loop, parseStringPart_eq, bind_assoc]
    refine bind_congr fun parts => ?_
    unfold scanName
    cases hd : s.drop (segmentLength s) with
    | nil => rfl
    | cons c behind =>
      dsimp only
      cases hb : behind.dropWhile (· ≠ byte '\x7d') with
      | nil => rfl
      | cons c rest =>
        have hrest := dropWhile_shorter hb
        have hdrop := congrArg List.length hd
        simp only [List.length_drop, List.length_cons] at hdrop
        dsimp only
        rw [bind_assoc, emitPieces]
        refine bind_congr fun parts => ?_
        rw [pure_bind]
        exact ih (by omega)

/-! What a literal has to be. -/

/-- A name of the lexer's grammar that is no keyword. -/
def isName (n : Bytes) : Bool :=
  Lexer.isWordStart (n.getD 0 0) && n.all Lexer.isWord &&
    !([bytes "true", bytes "false"] ++ Lexer.keywords.map Prod.fst).contains n

/-- Every brace that is not escaped opens a name, and the next one closes it. -/
inductive Interpolated : Bytes → Prop
  | nil : Interpolated []
  | escaped (c : UInt8) {rest : Bytes} : Interpolated rest → Interpolated (byte '\\' :: c :: rest)
  | plain {c : UInt8} {rest : Bytes} : c ≠ byte '\x7b' → (c = byte '\\' → rest = []) →
      Interpolated rest → Interpolated (c :: rest)
  | braces {n rest behind : Bytes} : behind = n ++ byte '\x7d' :: rest → isName n = true →
      Interpolated rest → Interpolated (byte '\x7b' :: behind)

def Piece.WellFormed : Piece → Prop
  | .text _ => True
  | .name n => isName n = true
  | .unclosed => False

theorem isName_ne_nil {n : Bytes} (h : isName n = true) : n ≠ [] := by
  rintro rfl
  revert h
  decide

theorem not_mem_of_isName {n : Bytes} (h : isName n = true) : byte '\x7d' ∉ n := by
  intro hmem
  simp only [isName, Bool.and_eq_true, List.all_eq_true] at h
  exact absurd (h.1.2 _ hmem) (by decide)

theorem takeWhile_name {n : Bytes} (rest : Bytes) (h : byte '\x7d' ∉ n) :
    (n ++ byte '\x7d' :: rest).takeWhile (· ≠ byte '\x7d') = n ∧
      (n ++ byte '\x7d' :: rest).dropWhile (· ≠ byte '\x7d') = byte '\x7d' :: rest := by
  have hall : ∀ c ∈ n, decide (c ≠ byte '\x7d') = true := by
    intro c hc
    exact decide_eq_true fun he => h (he ▸ hc)
  constructor
  · rw [List.takeWhile_append_of_pos hall, List.takeWhile_cons_of_neg (by simp), List.append_nil]
  · rw [List.dropWhile_append_of_pos hall, List.dropWhile_cons_of_neg (by simp)]

/-- A segment ends before a brace, or with the text. -/
theorem drop_segmentLength {s behind : Bytes} {c : UInt8} (h : s.drop (segmentLength s) = c :: behind) :
    c = byte '\x7b' := by
  fun_induction segmentLength s with
  | case1 => cases h
  | case2 =>
    cases h
    rfl
  | case3 => cases h
  | case4 d rest ih => exact ih h
  | case5 d rest hne =>
    cases h
    rfl
  | case6 a d rest hne hbrace ih => exact ih h

theorem interpolated_segment (s : Bytes) :
    Interpolated s ↔ Interpolated (s.drop (segmentLength s)) := by
  fun_induction segmentLength s with
  | case1 => rfl
  | case2 => rfl
  | case3 c hc => exact ⟨fun _ => .nil, fun _ => .plain hc (fun _ => rfl) .nil⟩
  | case4 d rest ih =>
    refine Iff.trans ⟨fun h => ?_, .escaped d⟩ ih
    cases h with
    | escaped _ h => exact h
    | plain _ he _ => cases he rfl
  | case5 => rfl
  | case6 c d rest hne hbrace ih =>
    refine Iff.trans ⟨fun h => ?_, .plain hbrace fun h => absurd h hne⟩ ih
    cases h with
    | escaped _ h => exact absurd rfl hne
    | plain _ _ h => exact h
    | braces => exact absurd rfl hbrace

theorem interpolated_brace (behind : Bytes) : Interpolated (byte '\x7b' :: behind) ↔
    ∃ rest, behind.dropWhile (· ≠ byte '\x7d') = byte '\x7d' :: rest ∧
      isName (behind.takeWhile (· ≠ byte '\x7d')) = true ∧ Interpolated rest := by
  constructor
  · intro h
    cases h with
    | plain hne _ _ => exact absurd rfl hne
    | @braces n rest _ hb hn h =>
      subst hb
      obtain ⟨ht, hd⟩ := takeWhile_name rest (not_mem_of_isName hn)
      exact ⟨rest, hd, ht.symm ▸ hn, h⟩
  · rintro ⟨rest, hd, hn, h⟩
    exact .braces (by rw [← hd, List.takeWhile_append_dropWhile]) hn h

theorem interpolated_iff (s : Bytes) : Interpolated s ↔ ∀ p ∈ pieces s, p.WellFormed := by
  have htext (t : Bytes) : ∀ p ∈ textPiece t, p.WellFormed := by
    unfold textPiece
    split
    · exact fun p hp => absurd hp List.not_mem_nil
    · rintro p hp
      rw [List.mem_singleton.mp hp]
      trivial
  induction hn : s.length using Nat.strong_induction_on generalizing s with
  | _ n ih =>
    subst hn
    rw [interpolated_segment, pieces, List.forall_mem_append, and_iff_right (htext _)]
    cases hd : s.drop (segmentLength s) with
    | nil => exact ⟨fun _ _ hp => absurd hp List.not_mem_nil, fun _ => .nil⟩
    | cons c behind =>
      rw [drop_segmentLength hd, interpolated_brace]
      dsimp only
      cases hb : behind.dropWhile (· ≠ byte '\x7d') with
      | nil =>
        refine ⟨fun ⟨_, h, _⟩ => absurd h (by simp), fun h => (h _ (List.mem_singleton_self _)).elim⟩
      | cons c rest =>
        have hc : c = byte '\x7d' := by
          have hhead := List.head?_dropWhile_not (fun c => decide (c ≠ byte '\x7d')) behind
          rw [hb] at hhead
          simpa using hhead
        have hrest := dropWhile_shorter hb
        have hdrop := congrArg List.length hd
        simp only [List.length_drop, List.length_cons] at hdrop
        dsimp only
        have hi := ih rest.length (by omega) rest rfl
        rw [List.forall_mem_cons]
        subst hc
        exact ⟨fun ⟨_, h, hn, hr⟩ => by cases h; exact ⟨hn, hi.mp hr⟩,
          fun ⟨hn, hr⟩ => ⟨rest, rfl, hn, hi.mpr hr⟩⟩

/-! Which literals are refused. -/

/-- The piece makes the parser report an error. -/
def Piece.Refused : Piece → Prop
  | .text s => 4096 ≤ s.length
  | .name n => n = []
  | .unclosed => True

instance (p : Piece) : Decidable p.Refused := by
  cases p <;> unfold Piece.Refused <;> infer_instance

/-- Between the states `k` errors have been reported, and no statement has begun. -/
structure Raises (k : Nat) (s t : Parser) : Prop where
  logged : Logged s t (List.replicate k .raised)
  reports : t.reports.length = s.reports.length + k
  capturing : t.ctx.capturing = s.ctx.capturing

namespace Raises

variable {s t u : Parser} {j k : Nat}

theorem of_eq (hevents : t.events = s.events) (hflag : t.parseHadError = s.parseHadError)
    (hreports : t.reports = s.reports) (hcapt : t.ctx.capturing = s.ctx.capturing) : Raises 0 s t :=
  ⟨.of_eq hevents hflag hreports, congrArg List.length hreports, hcapt⟩

theorem trans (h : Raises j s t) (h' : Raises k t u) : Raises (k + j) s u where
  logged := List.replicate_append_replicate ▸ h.logged.trans h'.logged
  reports := by rw [h'.reports, h.reports]; omega
  capturing := h'.capturing.trans h.capturing

theorem errorAt (s : Parser) (msg : Bytes) : Raises 1 s (s.errorAt msg) :=
  ⟨.report s _, rfl, rfl⟩

end Raises

/-- No error is reported, except that a closure may have too many captured variables. -/
def Calm (s t : Parser) : Prop := ∃ k, Raises k s t ∧ (s.ctx.capturing = false → k = 0)

def Loud (s t : Parser) : Prop := ∃ k, Raises (k + 1) s t

section Rules
variable {s t u : Parser}

theorem Calm.trans (h : Calm s t) (h' : Calm t u) : Calm s u := by
  obtain ⟨j, hj, hs⟩ := h
  obtain ⟨k, hk, ht⟩ := h'
  refine ⟨k + j, hj.trans hk, fun hc => ?_⟩
  rw [hs hc, ht (hj.capturing.trans hc)]

theorem Loud.trans_calm (h : Loud s t) (h' : Calm t u) : Loud s u := by
  obtain ⟨j, hj⟩ := h
  obtain ⟨k, hk, _⟩ := h'
  exact ⟨k + j, hj.trans hk⟩

theorem Calm.trans_loud (h : Calm s t) (h' : Loud t u) : Loud s u := by
  obtain ⟨j, hj, _⟩ := h
  obtain ⟨k, hk⟩ := h'
  exact ⟨k + j, Nat.add_right_comm k 1 j ▸ hj.trans hk⟩

theorem Loud.trans (h : Loud s t) (h' : Loud t u) : Loud s u := by
  obtain ⟨j, hj⟩ := h
  obtain ⟨k, hk⟩ := h'
  exact ⟨k + 1 + j, hj.trans hk⟩

end Rules

/-- Every run of the program ends, in a state related to the first. -/
def Ends (exec : Exec Op Op.Ans Parser Stop) {α : Type} (p : P α) (R : Parser → Parser → Prop) : Prop :=
  ∀ s, ∃ a t, p.run exec s = .done a t ∧ R s t

section Runs
variable {exec : Exec Op Op.Ans Parser Stop} {α β : Type}

theorem Ends.bind {R R' Q : Parser → Parser → Prop} {p : P α} {f : α → P β} (hp : Ends exec p R)
    (hf : ∀ a, Ends exec (f a) R') (hQ : ∀ s t u, R s t → R' t u → Q s u) : Ends exec (p >>= f) Q := by
  intro s
  obtain ⟨a, t, hp, hst⟩ := hp s
  obtain ⟨b, u, hf, htu⟩ := hf a t
  exact ⟨b, u, run_bind_done.mpr ⟨a, t, hp, hf⟩, hQ s t u hst htu⟩

theorem Ends.calm {p : P α} {f : α → P β} (hp : Ends exec p Calm) (hf : ∀ a, Ends exec (f a) Calm) :
    Ends exec (p >>= f) Calm :=
  hp.bind hf fun _ _ _ => .trans

theorem Ends.pure (a : α) : Ends exec (pure a : P α) Calm :=
  fun s => ⟨a, s, rfl, 0, .of_eq rfl rfl rfl rfl, fun _ => rfl⟩

theorem raises_addPool (v : AerVal) (s : Parser) : Raises 0 s (s.addPool v).2 := by
  unfold Parser.addPool
  dsimp only
  split
  · split <;> exact .of_eq rfl rfl rfl rfl
  · split <;> exact .of_eq rfl rfl rfl rfl

variable (hexec : ∀ o s, (∀ name path, o ≠ .addImport name path) → exec o s = execBasic o s)
include hexec

theorem ends_perform {o : Op} {a : Parser → o.Ans} {f : Parser → Parser}
    (himport : ∀ name path, o ≠ .addImport name path) (ho : ∀ s, execBasic o s = .done (a s) (f s))
    (hf : ∀ s, Raises 0 s (f s)) : Ends exec (perform o) Calm := by
  intro s
  refine ⟨a s, f s, ?_, 0, hf s, fun _ => rfl⟩
  rw [run_perform', hexec o s himport, ho]

theorem ends_emit (word : Int) : Ends exec (emit word) Calm :=
  ends_perform hexec (by simp) (fun _ => rfl) fun _ => .of_eq rfl rfl rfl rfl

theorem ends_emitOp (o : Opcode) : Ends exec (emitOp o) Calm := ends_emit hexec o.word

theorem ends_emitNat (n : Nat) : Ends exec (emitNat n) Calm := ends_emit hexec n

theorem ends_context : Ends exec context Calm :=
  ends_perform hexec (by simp) (fun _ => rfl) fun _ => .of_eq rfl rfl rfl rfl

theorem ends_makeString (b : Bytes) : Ends exec (perform (.makeString b)) Calm :=
  ends_perform hexec (by simp) (fun _ => rfl) fun _ => .of_eq rfl rfl rfl rfl

theorem ends_addPool (v : AerVal) : Ends exec (addPool v) Calm :=
  ends_perform hexec (by simp) (fun _ => rfl) fun s => raises_addPool v s

theorem ends_addAddrCache : Ends exec addAddrCache Calm :=
  ends_perform hexec (by simp) (fun _ => rfl) fun _ => .of_eq rfl rfl rfl rfl

theorem ends_modify {f : Context → Context} (hf : ∀ c, (f c).capturing = c.capturing) :
    Ends exec (modify f) Calm :=
  ends_perform hexec (by simp) (fun _ => rfl) fun _ => .of_eq rfl rfl rfl (hf _)

theorem ends_errorAt (msg : String) : Ends exec (errorAt msg) Loud := by
  intro s
  refine ⟨(), s.errorAt (bytes msg), ?_, 0, .errorAt s (bytes msg)⟩
  exact (run_perform' exec _ s).trans (hexec _ s (by simp))

/-- Only a closure's table of captured variables can make it fail. -/
theorem ends_captureClassify (name : Nat) (asWrite : Bool) (s : Parser)
    (hs : s.ctx.capturing = true) :
    ∃ a t, (captureClassify name asWrite).run exec s = .done a t ∧ Calm s t := by
  have hany {α : Type} {p : P α} (hp : Ends exec p Calm ∨ Ends exec p Loud) :
      ∃ a t, p.run exec s = .done a t ∧ Calm s t := by
    rcases hp with hp | hp
    · exact hp s
    · obtain ⟨a, t, hrun, k, hk⟩ := hp s
      exact ⟨a, t, hrun, k + 1, hk, fun hc => absurd hc (by rw [hs]; decide)⟩
  have hcontext : exec .context s = .done s.ctx s := hexec _ s (by simp)
  unfold captureClassify context
  rw [run_bind, run_perform', hcontext, Outcome.done_andThen]
  split
  · exact hany (.inl (.pure _))
  split
  · exact hany (.inl (.pure _))
  split
  · exact hany (.inl ((ends_modify hexec fun c => by unfold Context.captureAddLocal; split <;> rfl).calm
      fun _ => .pure _))
  split
  · exact hany (.inl ((ends_modify hexec (f := (·.captureAddCaptured name)) fun _ => rfl).calm
      fun _ => .pure _))
  · refine hany (.inr ((ends_errorAt hexec _).bind (fun _ => .pure _) fun _ _ _ => .trans_calm))

theorem ends_classified (name : Nat) {rest : Bool → P Unit} (hrest : ∀ b, Ends exec (rest b) Calm) :
    Ends exec (do
      let captured ← if (← context).capturing then captureClassify name false else pure false
      rest captured) Calm := by
  intro s
  have hcontext : exec .context s = .done s.ctx s := hexec _ s (by simp)
  unfold context
  rw [run_bind, run_perform', hcontext, Outcome.done_andThen]
  split
  · next hs =>
    obtain ⟨captured, t, hrun, hcalm⟩ := ends_captureClassify hexec name false s hs
    obtain ⟨_, u, hu, hcalm'⟩ := hrest captured t
    exact ⟨(), u, run_bind_done.mpr ⟨captured, t, hrun, hu⟩, hcalm.trans hcalm'⟩
  · exact hrest false s

theorem ends_emitLoad (name : Nat) : Ends exec (emitLoad name) Calm := by
  refine ends_classified hexec name fun captured => ?_
  split
  · exact (ends_emitOp hexec _).calm fun _ => (ends_context hexec).calm fun _ => ends_emitNat hexec _
  · refine (ends_context hexec).calm fun c => ?_
    split
    · exact (ends_emitOp hexec _).calm fun _ => ends_emitNat hexec _
    · exact (ends_emitOp hexec _).calm fun _ => (ends_emitNat hexec _).calm fun _ =>
        (ends_addAddrCache hexec).calm fun _ => ends_emitNat hexec _

theorem ends_joinPart (parts : Nat) : Ends exec (joinPart parts) Calm := by
  unfold joinPart
  split
  · exact (ends_emitOp hexec _).calm fun _ => .pure _
  · exact .pure _

theorem ends_poolEscapedString (s : Bytes) : Ends exec (poolEscapedString s)
    (if 4096 ≤ s.length then Loud else Calm) := by
  unfold poolEscapedString
  have hpool (b : Bytes) : Ends exec (do addPool (← perform (.makeString b)) : P Nat) Calm :=
    (ends_makeString hexec b).calm fun v => ends_addPool hexec v
  by_cases h : s.length < 4096
  · rw [if_pos h, if_neg (by omega)]
    exact hpool (unescape s)
  · rw [if_neg h, if_pos (by omega)]
    exact (ends_errorAt hexec _).bind (fun _ => hpool []) fun _ _ _ => .trans_calm

theorem ends_emitPiece_refused {p : Piece} (h : p.Refused) (parts : Nat) :
    Ends exec (emitPiece p parts) Loud := by
  cases p with
  | text s =>
    have hpool := ends_poolEscapedString hexec s
    rw [if_pos (show 4096 ≤ s.length from h)] at hpool
    exact (ends_emitOp hexec _).bind (fun _ => hpool.bind (fun i => (ends_emitNat hexec i).calm
      fun _ => ends_joinPart hexec parts) fun _ _ _ => Loud.trans_calm) fun _ _ _ => Calm.trans_loud
  | name n =>
    obtain rfl : n = [] := h
    exact (ends_errorAt hexec _).bind (fun _ => .pure _) fun _ _ _ => .trans_calm
  | unclosed => exact (ends_errorAt hexec _).bind (fun _ => .pure _) fun _ _ _ => .trans_calm

theorem ends_emitPiece {p : Piece} (h : ¬ p.Refused) (parts : Nat) :
    Ends exec (emitPiece p parts) Calm := by
  cases p with
  | text s =>
    have hpool := ends_poolEscapedString hexec s
    rw [if_neg (show ¬ 4096 ≤ s.length from h)] at hpool
    exact (ends_emitOp hexec _).calm fun _ => hpool.calm fun i => (ends_emitNat hexec i).calm
      fun _ => ends_joinPart hexec parts
  | name n =>
    cases n with
    | nil => exact absurd rfl h
    | cons c n =>
      exact (ends_makeString hexec _).calm fun v => (ends_addPool hexec v).calm fun i =>
        (ends_emitLoad hexec i).calm fun _ => (ends_emitOp hexec _).calm fun _ => ends_joinPart hexec parts
  | unclosed => exact absurd trivial h

theorem ends_emitPieces (ps : List Piece) (parts : Nat) :
    Ends exec (emitPieces ps parts) (if ∃ p ∈ ps, p.Refused then Loud else Calm) := by
  induction ps generalizing parts with
  | nil =>
    rw [if_neg (by simp)]
    exact .pure parts
  | cons p ps ih =>
    simp only [List.exists_mem_cons_iff]
    by_cases hp : p.Refused
    · rw [if_pos (.inl hp)]
      refine (ends_emitPiece_refused hexec hp parts).bind ih fun s t u hst htu => ?_
      split at htu
      · exact hst.trans htu
      · exact hst.trans_calm htu
    · simp only [hp, false_or]
      refine (ends_emitPiece hexec hp parts).bind ih fun s t u hst htu => ?_
      split at htu
      · next h =>
        rw [if_pos h]
        exact hst.trans_loud htu
      · next h =>
        rw [if_neg h]
        exact hst.trans htu

/-! The literal as a whole. -/

/-- The text of the string literal at the current token. -/
def AtString (s : Bytes) (u : Parser) : Prop :=
  u.tokenType = .string ∧ ∃ c, u.tokenValue = .string c ∧ u.heap.strings.data c = s

end Runs

/-- The code of a string literal, before the parser goes on to the next token. -/
def stringCode (r : Parsers) : P Unit := do
  let s ← perform .tokenText
  if segmentLength s < s.length then
    let parts ← loop parseStringPart r.fuel (s, 0)
    if parts = 0 then emitPush (← perform (.makeString []))
  else
    emitOp .push
    emitNat (← poolEscapedString s)

theorem parseString_eq (r : Parsers) : parseString r = (do stringCode r; lex) := by
  unfold parseString stringCode
  rw [bind_assoc]
  refine bind_congr fun s => ?_
  split
  · rw [bind_assoc]
    refine bind_congr fun parts => ?_
    split
    · simp only [bind_assoc]
    · rfl
  · simp only [bind_assoc]

/-- A literal without names has one piece of text. -/
theorem pieces_of_segment {s : Bytes} (h : ¬ segmentLength s < s.length) : pieces s = textPiece s := by
  have hlen : s.length ≤ segmentLength s := Nat.not_lt.mp h
  rw [pieces, List.take_of_length_le hlen, List.drop_eq_nil_of_le hlen, List.append_nil]

section Literal
variable {exec : Exec Op Op.Ans Parser Stop}
  (hexec : ∀ o s, (∀ name path, o ≠ .addImport name path) → exec o s = execBasic o s)
include hexec

theorem stringCode_ends {r : Parsers} {s : Bytes} {u : Parser} (hu : AtString s u)
    (hfuel : s.length < r.fuel) : ∃ v, (stringCode r).run exec u = .done () v ∧
      (if ∃ p ∈ pieces s, p.Refused then Loud else Calm) u v := by
  obtain ⟨_, c, hvalue, hdata⟩ := hu
  have htext : exec .tokenText u = .done s u := by
    rw [hexec _ u (by simp), ← hdata, execBasic, hvalue]
  unfold stringCode
  rw [run_bind, run_perform', htext, Outcome.done_andThen]
  split
  · rw [loop_parseStringPart hfuel]
    have hempty (parts : Nat) : Ends exec
        (if parts = 0 then do emitPush (← perform (.makeString [])) else pure () : P Unit) Calm := by
      split
      · exact (ends_makeString hexec []).calm fun v => (ends_emitOp hexec _).calm fun _ =>
          (ends_addPool hexec v).calm fun _ => ends_emitNat hexec _
      · exact .pure ()
    have hpieces := ends_emitPieces hexec (pieces s) 0
    by_cases h : ∃ p ∈ pieces s, p.Refused
    · rw [if_pos h] at hpieces ⊢
      obtain ⟨_, v, hrun, hv⟩ := (hpieces.bind hempty fun _ _ _ => Loud.trans_calm) u
      exact ⟨v, hrun, hv⟩
    · rw [if_neg h] at hpieces ⊢
      obtain ⟨_, v, hrun, hv⟩ := (hpieces.calm hempty) u
      exact ⟨v, hrun, hv⟩
  · next hseg =>
    have hpool := ends_poolEscapedString hexec s
    have hiff : (∃ p ∈ pieces s, p.Refused) ↔ 4096 ≤ s.length := by
      rw [pieces_of_segment hseg]
      unfold textPiece
      cases s with
      | nil => simp
      | cons c s => simp [Piece.Refused]
    by_cases h : 4096 ≤ s.length
    · rw [if_pos h] at hpool
      rw [if_pos (hiff.mpr h)]
      obtain ⟨_, v, hrun, hv⟩ := ((ends_emitOp hexec .push).bind (fun _ => hpool.bind
        (fun i => ends_emitNat hexec i) fun _ _ _ => Loud.trans_calm) fun _ _ _ => Calm.trans_loud) u
      exact ⟨v, hrun, hv⟩
    · rw [if_neg h] at hpool
      rw [if_neg (mt hiff.mp h)]
      obtain ⟨_, v, hrun, hv⟩ := ((ends_emitOp hexec .push).calm
        fun _ => hpool.calm fun i => ends_emitNat hexec i) u
      exact ⟨v, hrun, hv⟩

end Literal

/-! A line with a literal that is refused. -/

/-- A loop that ends within a bound ends in the same way within a larger one. -/
theorem run_loop_mono {exec : Exec Op Op.Ans Parser Stop} {α β : Type} {body : α → P (α ⊕ β)}
    {n m : Nat} (hnm : n ≤ m) {a : α} {s t : Parser} {b : β}
    (h : (loop body n a).run exec s = .done b t) : (loop body m a).run exec s = .done b t := by
  induction n generalizing m a s with
  | zero =>
    unfold loop stuck at h
    obtain ⟨e, _, _, _⟩ := run_bind_done.mp h
    exact e.elim
  | succ n ih =>
    obtain ⟨m, rfl⟩ : ∃ k, m = k + 1 := ⟨m - 1, by omega⟩
    unfold loop at h ⊢
    obtain ⟨next, u, hu, h⟩ := run_bind_done.mp h
    refine run_bind_done.mpr ⟨next, u, hu, ?_⟩
    cases next with
    | inl a => exact ih (by omega) h
    | inr b => exact h

/-- After a report nothing but the begin of another statement makes the parser forget it: the
last statement begun in the record has no report of its own. -/
def Forgotten (log : List Event) : Prop :=
  ∃ later earlier, log = later ++ .statementBegun :: earlier ∧ .raised ∉ later

theorem forgotten_iff {log : List Event} : Event.flagAfter true log = false ↔ Forgotten log := by
  induction log with
  | nil => exact ⟨fun h => (nomatch h), fun ⟨later, earlier, h, _⟩ => by cases later <;> cases h⟩
  | cons e log ih =>
    cases e with
    | raised =>
      refine ⟨fun h => (nomatch h), fun ⟨later, earlier, h, hl⟩ => ?_⟩
      cases later with
      | nil => cases h
      | cons e later =>
        cases h
        exact absurd List.mem_cons_self hl
    | statementBegun => exact ⟨fun _ => ⟨[], log, rfl, List.not_mem_nil⟩, fun _ => rfl⟩
    | checked =>
      refine ih.trans ⟨fun ⟨later, earlier, h, hl⟩ => ⟨.checked :: later, earlier, by rw [h]; rfl, by simpa using hl⟩,
        fun ⟨later, earlier, h, hl⟩ => ?_⟩
      cases later with
      | nil => cases h
      | cons e later =>
        cases h
        exact ⟨later, earlier, rfl, fun hm => hl (List.mem_cons_of_mem _ hm)⟩

section Recovery
variable {exec : Exec Op Op.Ans Parser Stop}
  (hexec : ∀ o s, (∀ name path, o ≠ .addImport name path) → exec o s = execBasic o s)

/-- The code stays as it is. -/
def CodeKept (exec : Exec Op Op.Ans Parser Stop) : Property :=
  .related exec fun s t => t.chunk.code = s.chunk.code

theorem codeKept_pure {α : Type} (a : α) : (CodeKept exec).holds (pure a : P α) :=
  related_pure (R := fun s t => t.chunk.code = s.chunk.code) (fun _ => rfl) a

theorem codeKept_bind {α β : Type} {p : P α} {f : α → P β} (hp : (CodeKept exec).holds p)
    (hf : ∀ a, (CodeKept exec).holds (f a)) : (CodeKept exec).holds (p >>= f) :=
  related_bind (fun _ _ _ h h' => h'.trans h) hp hf

theorem codeKept_loop {α β : Type} {body : α → P (α ⊕ β)} (hbody : ∀ a, (CodeKept exec).holds (body a))
    (n : Nat) (a : α) : (CodeKept exec).holds (loop body n a) := by
  induction n generalizing a with
  | zero => exact codeKept_bind (p := perform .stuck) (fun _ e _ _ => e.elim) fun e => e.elim
  | succ n ih =>
    refine codeKept_bind (hbody a) fun r => ?_
    cases r with
    | inl a => exact ih a
    | inr b => exact codeKept_pure b

include hexec

theorem codeKept_lex : (CodeKept exec).holds lex := by
  intro s a t h
  rw [lex, run_perform', hexec _ s (by simp)] at h
  cases h
  rw [lex_chunk]

theorem codeKept_equal (type : TokenType) : (CodeKept exec).holds (equal type) := by
  intro s a t h
  unfold equal at h
  rw [run_bind, run_perform', hexec _ s (by simp)] at h
  cases h
  rfl

theorem codeKept_consume (type : TokenType) : (CodeKept exec).holds (consume type) := by
  refine codeKept_bind (codeKept_equal hexec type) fun found => ?_
  split
  · exact codeKept_bind (codeKept_lex hexec) fun _ => codeKept_pure _
  · exact codeKept_pure _

theorem codeKept_skipLine (fuel : Nat) (stops : List TokenType) :
    (CodeKept exec).holds (skipLine fuel stops) := by
  refine codeKept_loop (fun _ => codeKept_bind (p := perform .token) (fun s a t h => ?_) fun type => ?_) _ _
  · rw [run_perform', hexec _ s (by simp)] at h
    cases h
    rfl
  · split
    · exact codeKept_pure _
    · exact codeKept_bind (codeKept_lex hexec) fun _ => codeKept_pure _

theorem codeKept_skipOrphanedBlock (fuel : Nat) : (CodeKept exec).holds (skipOrphanedBlock fuel) := by
  have hturn (depth : Nat) : (CodeKept exec).holds (do
      lex
      if 0 < depth then
        if ← equal .endOfFile then return .inr () else return .inl depth
      else return .inr () : P (Nat ⊕ Unit)) := by
    refine codeKept_bind (codeKept_lex hexec) fun _ => ?_
    split
    · refine codeKept_bind (codeKept_equal hexec _) fun atEnd => ?_
      split <;> exact codeKept_pure _
    · exact codeKept_pure _
  unfold skipOrphanedBlock
  refine codeKept_bind (codeKept_consume hexec _) fun newLine => ?_
  split
  · refine codeKept_bind (codeKept_equal hexec _) fun indent => ?_
    split
    · refine codeKept_loop (fun depth => codeKept_bind (codeKept_equal hexec _) fun indent => ?_) _ _
      split
      · exact codeKept_bind (codeKept_equal hexec _) fun _ => hturn (depth + 1)
      · refine codeKept_bind (codeKept_equal hexec _) fun dedent => ?_
        split
        · exact hturn (depth - 1)
        · exact hturn depth
    · exact codeKept_pure _
  · exact codeKept_pure _

/-- What is left of the code after the recovery from a failed statement. -/
theorem recover_code {fuel : Nat} {stops : List TokenType} {saved marks : Nat} {s t : Parser}
    (h : (recover fuel stops saved marks).run exec s = .done () t) :
    t.chunk.code = s.chunk.code.take saved := by
  unfold recover at h
  rw [run_bind, run_perform', hexec _ s (by simp)] at h
  change ((perform .context >>= fun c => _).run exec (s.truncate saved marks)) = _ at h
  rw [run_bind, run_perform', hexec _ _ (by simp)] at h
  change ((if _ then _ else _ : P Unit).run exec (s.truncate saved marks)) = _ at h
  split at h
  · cases h
    rfl
  · exact codeKept_bind (codeKept_skipLine hexec fuel stops)
      (fun _ => codeKept_skipOrphanedBlock hexec fuel) _ _ _ h

end Recovery

section Line
variable {exec : Exec Op Op.Ans Parser Stop}
  (hexec : ∀ o s, (∀ name path, o ≠ .addImport name path) → exec o s = execBasic o s)
include hexec

/-- The report of a refused literal does not depend on the bound of the scanner. -/
theorem loud_of_run {r : Parsers} {text : Bytes} {u v : Parser} (hu : AtString text u)
    (href : ∃ p ∈ pieces text, p.Refused) (h : (stringCode r).run exec u = .done () v) : Loud u v := by
  let larger : Parsers := { r with fuel := max r.fuel (text.length + 1) }
  obtain ⟨w, hw, hloud⟩ := stringCode_ends hexec (r := larger) hu (Nat.lt_of_lt_of_le (Nat.lt_succ_self _)
    (Nat.le_max_right _ _))
  have hmono : (stringCode larger).run exec u = .done () v := by
    unfold stringCode at h ⊢
    obtain ⟨s, u', hs, h⟩ := run_bind_done.mp h
    refine run_bind_done.mpr ⟨s, u', hs, ?_⟩
    split at h
    · next hseg =>
      rw [if_pos hseg]
      obtain ⟨parts, v', hloop, h⟩ := run_bind_done.mp h
      exact run_bind_done.mpr ⟨parts, v', run_loop_mono (Nat.le_max_left _ _) hloop, h⟩
    · next hseg =>
      rw [if_neg hseg]
      exact h
  rw [hmono] at hw
  cases hw
  rwa [if_pos href] at hloud

theorem parseLine_saved {statement : P Unit} {s w : Parser} {saved : Nat × Nat}
    (h : (parseLine statement).run exec s = .done saved w) : saved.1 = s.chunk.count := by
  unfold parseLine count at h
  rw [run_bind, run_perform', hexec _ s (by simp)] at h
  obtain ⟨n, u, hu, h⟩ := run_bind_done.mp h
  rw [run_perform', hexec _ _ (by simp)] at hu
  cases hu
  obtain ⟨_, _, _, h⟩ := run_bind_done.mp h
  obtain ⟨_, _, _, h⟩ := run_bind_done.mp h
  obtain ⟨_, _, _, h⟩ := run_bind_done.mp h
  cases h
  rfl

/-- What becomes of a line of the file in which a refused literal is parsed. -/
theorem line_of_refused (hquiet : ∀ o s a t, exec o s = .done a t → Quiet s t) {r r' : Parsers}
    {k : Unit → P (Nat × Nat)} {text : Bytes} {s u t : Parser} {failed : Bool}
    (hline : parseFileLine exec r s = .done failed t)
    (hreach : Reaches exec (parseLine r.statement) s (parseString r' >>= k) u) (hu : AtString text u)
    (href : ∃ p ∈ pieces text, p.Refused) : ∃ saved w later,
      (parseLine r.statement).run exec s = .done saved w ∧ w.events = later ++ u.events ∧
      (failed = true ↔ ¬ Forgotten later) ∧ (failed = true → t.chunk.count ≤ s.chunk.count) := by
  obtain ⟨saved, w, hw, hend⟩ := Outcome.andThen_eq_done.mp hline
  have hafter := hw
  rw [hreach.run_eq, parseString_eq, bind_assoc] at hafter
  obtain ⟨_, v, hv, hafter⟩ := run_bind_done.mp hafter
  obtain ⟨reports, hraises⟩ := loud_of_run hexec hu href hv
  obtain ⟨new, hlog, _⟩ := quiet_run hquiet hafter
  have hflag : w.parseHadError = Event.flagAfter true (new ++ List.replicate (reports + 1) .raised) := by
    rw [Event.flagAfter_append, hlog.flag, hraises.logged.flag]
    rfl
  have hfailed : failed = w.parseHadError ∧ (failed = true → t.chunk.count ≤ s.chunk.count) := by
    dsimp only at hend
    split at hend
    · next herror =>
      obtain ⟨_, x, hx, hend⟩ := Outcome.andThen_eq_done.mp hend
      cases hend
      refine ⟨herror.symm, fun _ => ?_⟩
      rw [Chunk.count, recover_code hexec hx, parseLine_saved hexec hw]
      exact List.length_take_le _ _
    · next herror =>
      cases hend
      exact ⟨(Bool.eq_false_iff.mpr herror).symm, fun h => absurd h (by decide)⟩
  refine ⟨saved, w, new ++ List.replicate (reports + 1) .raised, hw, ?_, ?_, hfailed.2⟩
  · rw [hlog.events, hraises.logged.events, List.append_assoc]
  · rw [hfailed.1, hflag, ← forgotten_iff, Bool.not_eq_false]

/-- As a default the text is taken as it stands. -/
theorem literalDefault_unchecked {text : Bytes} {u : Parser} (hu : AtString text u) :
    ∃ (v : AerVal) (w : Parser), parseLiteralDefault.run exec u = .done (some v) w.lex ∧ w.reports = u.reports := by
  obtain ⟨htype, c, hvalue, hdata⟩ := hu
  have hperform {o : Op} {a : o.Ans} {w : Parser} (ho : exec o u = .done a w) :
      (perform o).run exec u = .done a w := (run_perform' exec o u).trans ho
  have htoken : exec .token u = .done .string u := by
    rw [hexec _ u (by simp), execBasic, htype]
  have htext : exec .tokenText u = .done text u := by
    rw [hexec _ u (by simp), ← hdata, execBasic, hvalue]
  have hmake : exec (.makeString text) u = .done (u.heap.aerMakeString text).1
      { u with heap := (u.heap.aerMakeString text).2 } := hexec _ u (by simp)
  refine ⟨(u.heap.aerMakeString text).1, { u with heap := (u.heap.aerMakeString text).2 }, ?_, rfl⟩
  refine run_bind_done.mpr ⟨false, u, run_bind_done.mpr ⟨false, u, run_bind_done.mpr
    ⟨.string, u, hperform htoken, rfl⟩, rfl⟩, ?_⟩
  refine run_bind_done.mpr ⟨.string, u, hperform htoken, ?_⟩
  refine run_bind_done.mpr ⟨text, u, hperform htext, run_bind_done.mpr ⟨_, _, hperform hmake, ?_⟩⟩
  refine run_bind_done.mpr ⟨some (u.heap.aerMakeString text).1, _, rfl, ?_⟩
  exact run_bind_done.mpr ⟨(), _, (run_perform' exec .lex _).trans (hexec _ _ (by simp)), rfl⟩

end Line

/-- A literal that does not have the form of an interpolated string makes the parser report an
error, wherever it stands in an expression. -/
def BraceChecked (text : Bytes) : Prop :=
  ¬ Interpolated text → ∀ (env : Env) (fuel imports : Nat) (r : Parsers) (u : Parser),
    AtString text u → text.length < r.fuel →
      ∃ v, (stringCode r).run (exec env fuel imports) u = .done () v ∧ u.reports.length < v.reports.length

/-- A parser at a literal with this text, outside of functions. -/
def literalState (text : Bytes) : Parser :=
  let h := Heap.init.aerMakeString text
  { Parser.start .run (.open [] []) .init h.2 with tokenType := .string, tokenValue := h.1 }

theorem data_aerMakeString (h : Heap) (b : Bytes) :
    (h.aerMakeString b).2.strings.data (h.strings.alloc b).1 = b :=
  (congrFun (Pool.alloc_data h.strings b) _).trans (Function.update_self _ _ _)

theorem atString_literalState (text : Bytes) : AtString text (literalState text) := by
  exact ⟨rfl, (Heap.init.strings.alloc text).1, rfl, data_aerMakeString Heap.init text⟩

/-- An expression between the braces: accepted, and looked up as a name at run time. -/
def spacedName : Result Unit := parseText 20 "x = \"\x7ba + b\x7d\"\n"

end Aer.Compiler
