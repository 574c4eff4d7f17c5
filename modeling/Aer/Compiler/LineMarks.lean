import Aer.Compiler.Traversal
import Aer.Lib.Staying
import Aer.Machine.LineMarks

set_option linter.all false

/-! The line marks of a chunk stay in order, and findable, in every state that the
compilation of a session's programs comes to. -/
namespace Aer.Compiler

open Aer.Data Aer.Memory Aer.Machine Aer.Lib.Interaction

/-! The operations. -/

/-- A jump that a statement cut off has left open is patched behind the end of the code,
where it meets no instruction: the next word emitted overwrites it. -/
def patchOn (i : Nat) (word : Int) (s : Parser) : Parser :=
  if i < s.chunk.count then s.setChunk { s.chunk with code := s.chunk.code.set i word } else s

/-- The operations, with patches behind the end of the code; imports are nested to a bound. -/
def execOn (env : Env) (fuel : Nat) : Nat → Exec Op Op.Ans Parser Stop
  | _, .patch i word, s => .done () (patchOn i word s)
  | n + 1, .addImport name path, s =>
      addImport env (fun s => parse (execOn env fuel n) (parsers fuel) s.lex) name path s
  | _, o, s => execBasic o s

/-- The operations other than those that make or drop marks. -/
def Op.isUnmarked : Op → Bool
  | .markLine | .truncate _ _ => false
  | _ => true

/-- The code has not become shorter, and no mark was made or dropped. -/
structure Lengthens (s t : Parser) : Prop where
  marks : t.chunk.lineMarks = s.chunk.lineMarks
  count_le : s.chunk.count ≤ t.chunk.count

theorem Lengthens.of_chunk {s t : Parser} (h : t.chunk = s.chunk) : Lengthens s t :=
  ⟨by rw [h], by rw [h]⟩

theorem lengthens_addPool (s : Parser) (v : AerVal) : Lengthens s (s.addPool v).2 := by
  unfold Parser.addPool
  dsimp only
  split
  · split
    · exact .of_chunk rfl
    · exact ⟨rfl, le_rfl⟩
  · split
    · exact .of_chunk rfl
    · exact ⟨rfl, le_rfl⟩

theorem lengthens_patchOn (i : Nat) (word : Int) (s : Parser) : Lengthens s (patchOn i word s) := by
  unfold patchOn
  split
  · exact ⟨rfl, by simp [Parser.setChunk, Chunk.count]⟩
  · exact .of_chunk rfl

theorem bindImport_code (s : Parser) (name : Bytes) :
    (s.bindImport name).chunk.code = s.chunk.code ∧
      (s.bindImport name).chunk.lineMarks = s.chunk.lineMarks := by
  unfold Parser.bindImport
  split
  · exact ⟨rfl, rfl⟩
  · exact ⟨rfl, rfl⟩

/-- An import compiles in a chunk of its own. -/
theorem lengthens_addImport {env : Env} {compile : Parser → Result Unit} {name path : Bytes}
    {s t : Parser} (h : addImport env compile name path s = .done () t) : Lengthens s t := by
  unfold addImport at h
  dsimp only at h
  split at h
  · cases h
    refine ⟨(bindImport_code s name).2, ?_⟩
    unfold Chunk.count
    rw [(bindImport_code s name).1]
  · split at h
    · cases h
      exact .of_chunk rfl
    · unfold loadModule at h
      split at h
      · cases h
        exact .of_chunk rfl
      · split at h
        · cases h
          exact .of_chunk rfl
        · obtain ⟨_, inner, _, h⟩ := Outcome.andThen_eq_done.mp h
          dsimp only at h
          split at h
          · cases h
            exact .of_chunk rfl
          · split at h
            · cases h
            · split at h
              · cases h
                exact .of_chunk rfl
              · cases h
                refine ⟨(bindImport_code _ name).2, ?_⟩
                unfold Chunk.count
                rw [(bindImport_code _ name).1]
                exact le_rfl

theorem lengthens_execBasic {o : Op} {a : o.Ans} {s t : Parser} (ho : o.isUnmarked = true)
    (h : execBasic o s = .done a t) : Lengthens s t := by
  cases o with
  | markLine => cases ho
  | truncate count marks => cases ho
  | lex =>
    cases h
    exact .of_chunk (lex_chunk s)
  | tokenText =>
    simp only [execBasic] at h
    split at h <;> cases h
    exact .of_chunk rfl
  | tokenReal =>
    simp only [execBasic] at h
    split at h <;> cases h
    exact .of_chunk rfl
  | tokenBool =>
    simp only [execBasic] at h
    split at h <;> cases h
    exact .of_chunk rfl
  | tokenInt =>
    simp only [execBasic, Parser.orStuck] at h
    split at h <;> cases h
    exact .of_chunk rfl
  | poolVal i =>
    simp only [execBasic, Parser.orStuck] at h
    split at h <;> cases h
    exact .of_chunk rfl
  | patch i word =>
    simp only [execBasic] at h
    split at h <;> cases h
    exact ⟨rfl, by simp [Parser.setChunk, Chunk.count]⟩
  | emit word =>
    cases h
    exact ⟨rfl, by simp [Parser.setChunk, Chunk.count, Chunk.emit]⟩
  | addPool v =>
    cases h
    exact lengthens_addPool s v
  | addAddrCache =>
    cases h
    exact ⟨rfl, le_rfl⟩
  | addImport _ _ | stuck => cases h
  | _ =>
    cases h
    exact .of_chunk rfl

theorem lengthens_execOn {env : Env} {fuel imports : Nat} {o : Op} {a : o.Ans} {s t : Parser}
    (ho : o.isUnmarked = true) (h : execOn env fuel imports o s = .done a t) : Lengthens s t := by
  cases imports with
  | zero =>
    cases o with
    | patch i word =>
      cases h
      exact lengthens_patchOn i word s
    | _ => exact lengthens_execBasic ho h
  | succ n =>
    cases o with
    | patch i word =>
      cases h
      exact lengthens_patchOn i word s
    | addImport name path => exact lengthens_addImport h
    | _ => exact lengthens_execBasic ho h

theorem execOn_markLine (env : Env) (fuel imports : Nat) (s : Parser) :
    execOn env fuel imports .markLine s =
      .done () (s.setChunk (s.chunk.markLine s.chunk.count s.lexer.file.line)) := by
  cases imports <;> rfl

theorem execOn_truncate (env : Env) (fuel imports count marks : Nat) (s : Parser) :
    execOn env fuel imports (.truncate count marks) s = .done () (s.truncate count marks) := by
  cases imports <;> rfl

/-! What the parser keeps of the marks. -/

/-- The code has not become shorter, and the marks have been added to. -/
structure Kept (s t : Parser) : Prop where
  wf : s.chunk.MarksWf → t.chunk.MarksWf
  count_le : s.chunk.count ≤ t.chunk.count
  marks : s.chunk.lineMarks <+: t.chunk.lineMarks

/-- Moreover so many words have been added. -/
structure Grown (k : Nat) (s t : Parser) : Prop extends Kept s t where
  grown : s.chunk.count + k ≤ t.chunk.count

/-- Moreover marks have been added only along with the words of a function or of a block: more
than a simple operand has. -/
structure Marked (s t : Parser) : Prop extends Kept s t where
  grown : t.chunk.lineMarks ≠ s.chunk.lineMarks → s.chunk.count + 4 ≤ t.chunk.count

theorem Kept.refl (s : Parser) : Kept s s := ⟨id, le_rfl, List.prefix_rfl⟩

theorem Kept.trans {s t u : Parser} (h : Kept s t) (h' : Kept t u) : Kept s u :=
  ⟨h'.wf ∘ h.wf, h.count_le.trans h'.count_le, h.marks.trans h'.marks⟩

theorem Lengthens.kept {s t : Parser} (h : Lengthens s t) : Kept s t :=
  ⟨fun hs => hs.of_count_le h.marks h.count_le, h.count_le, h.marks ▸ List.prefix_rfl⟩

theorem Lengthens.marked {s t : Parser} (h : Lengthens s t) : Marked s t :=
  ⟨h.kept, fun hne => absurd h.marks hne⟩

theorem Marked.refl (s : Parser) : Marked s s := (Lengthens.of_chunk rfl).marked

theorem Marked.trans {s t u : Parser} (h : Marked s t) (h' : Marked t u) : Marked s u := by
  refine ⟨h.toKept.trans h'.toKept, fun hne => ?_⟩
  have hle := h.count_le
  have hle' := h'.count_le
  by_cases htu : u.chunk.lineMarks = t.chunk.lineMarks
  · have hgrown := h.grown (htu ▸ hne)
    omega
  · have hgrown := h'.grown htu
    omega

theorem Grown.zero {s t : Parser} (h : Kept s t) : Grown 0 s t := ⟨h, h.count_le⟩

theorem Grown.trans {j k : Nat} {s t u : Parser} (h : Grown j s t) (h' : Grown k t u) :
    Grown (j + k) s u := by
  refine ⟨h.toKept.trans h'.toKept, ?_⟩
  have hgrown := h.grown
  have hgrown' := h'.grown
  omega

theorem Grown.marked {k : Nat} {s t : Parser} (h : Grown k s t) (hk : 4 ≤ k) : Marked s t := by
  refine ⟨h.toKept, fun _ => ?_⟩
  have hgrown := h.grown
  omega

/-- In every state that the program comes to the marks are kept, and it ends in a state with
`R`. -/
def marking (env : Env) (fuel imports : Nat) (R : Parser → Parser → Prop) : Property :=
  ⟨fun p => ∀ s, Stays (execOn env fuel imports) Kept R s s p⟩

section Programs
variable {env : Env} {fuel imports : Nat} {α β : Type} {p : P α} {f : α → P β}

theorem grown_bind {j k : Nat} (hp : (marking env fuel imports (Grown j)).holds p)
    (hf : ∀ a, (marking env fuel imports (Grown k)).holds (f a)) :
    (marking env fuel imports (Grown (j + k))).holds (p >>= f) := by
  intro s
  refine (hp s).bind fun a v _ hv => ?_
  exact (hf a v).after (fun _ => hv.toKept.trans) fun _ => hv.trans

theorem marked_of_grown {k : Nat} (hk : 4 ≤ k)
    (h : (marking env fuel imports (Grown k)).holds p) :
    (marking env fuel imports Marked).holds p :=
  fun s => (h s).weaken fun _ hv => hv.marked hk

theorem kept_of_marked (h : (marking env fuel imports Marked).holds p) :
    (marking env fuel imports Kept).holds p :=
  fun s => (h s).weaken fun _ hv => hv.toKept

theorem kept_of_grown {k : Nat} (h : (marking env fuel imports (Grown k)).holds p) :
    (marking env fuel imports Kept).holds p :=
  fun s => (h s).weaken fun _ hv => hv.toKept

theorem kept_bind (hp : (marking env fuel imports Kept).holds p)
    (hf : ∀ a, (marking env fuel imports Kept).holds (f a)) :
    (marking env fuel imports Kept).holds (p >>= f) :=
  fun s => (hp s).bind fun a v _ hv => (hf a v).after (fun _ => hv.trans) fun _ => hv.trans

theorem grown_behind {k : Nat} (hp : (marking env fuel imports Kept).holds p)
    (hf : ∀ a, (marking env fuel imports (Grown k)).holds (f a)) :
    (marking env fuel imports (Grown k)).holds (p >>= f) := by
  intro s
  refine (hp s).bind fun a v _ hv => (hf a v).after (fun _ => hv.trans) fun u hu => ?_
  have hgrown := (Grown.zero hv).trans hu
  rwa [Nat.zero_add] at hgrown

theorem grown_before {k : Nat} (hp : (marking env fuel imports (Grown k)).holds p)
    (hf : ∀ a, (marking env fuel imports Kept).holds (f a)) :
    (marking env fuel imports (Grown k)).holds (p >>= f) :=
  fun s => (hp s).bind fun a v _ hv =>
    (hf a v).after (fun _ => hv.toKept.trans) fun _ hu => hv.trans (.zero hu)

theorem grown_emit (word : Int) : (marking env fuel imports (Grown 1)).holds (emit word) := by
  intro s
  refine Stays.perform (.refl s) fun a v h => ?_
  have hkept := (lengthens_execOn rfl h).kept
  have hv : v = s.setChunk (s.chunk.emit word) := by cases imports <;> cases h <;> rfl
  exact ⟨hkept, hkept, by simp [hv, Parser.setChunk, Chunk.count, Chunk.emit]⟩

theorem marked_perform {o : Op} (ho : o.isUnmarked = true) :
    (marking env fuel imports Marked).holds (perform o) :=
  fun s => Stays.perform (.refl s) fun _ _ h =>
    ⟨(lengthens_execOn ho h).kept, (lengthens_execOn ho h).marked⟩

theorem Op.isUnmarked_of_isPlain {o : Op} (h : o.isPlain = true) : o.isUnmarked = true := by
  cases o <;> first | rfl | cases h

theorem marked_basic : (marking env fuel imports Marked).Basic where
  pure _ s := Stays.pure (.refl s) (.refl s)
  bind hp hf s := (hp s).bind fun a v _ hv =>
    (hf a v).after (fun _ => hv.toKept.trans) fun _ => hv.trans
  plain h := marked_perform (Op.isUnmarked_of_isPlain h)
  importFile _ _ := marked_perform rfl
  addLocal _ := marked_perform rfl
  addCaptured _ := marked_perform rfl
  addOuterLocal _ := marked_perform rfl

theorem marked_modify (f : Context → Context) :
    (marking env fuel imports Marked).holds (modify f) := marked_perform rfl

theorem marked_patch (i : Nat) (word : Int) :
    (marking env fuel imports Marked).holds (perform (.patch i word)) :=
  marked_perform rfl

attribute [local grind ←] marked_modify marked_patch

section Blocks
variable (hb : (marking env fuel imports Marked).Basic)
include hb

@[local grind ←] theorem marked_patchHere (i : Nat) :
    (marking env fuel imports Marked).holds (patchHere i) := by
  unfold patchHere
  grind -ring -linarith

theorem marked_bareCall (name n : Nat) :
    (marking env fuel imports Marked).holds (do
      emitCall name n
      let stop ← count
      modify fun c => { c with lastBareCallEnd := some stop }) := by
  grind -ring -linarith

@[local grind ←] theorem marked_exprDepthEnter :
    (marking env fuel imports Marked).holds exprDepthEnter := by
  unfold exprDepthEnter
  grind -ring -linarith

theorem marked_nested {p : P Unit} (hp : (marking env fuel imports Marked).holds p) :
    (marking env fuel imports Marked).holds (nested p) := by
  unfold nested
  grind -ring -linarith

theorem marked_capture {p : P α} (change : Context → Context)
    (hp : (marking env fuel imports Marked).holds p) :
    (marking env fuel imports Marked).holds (withCapture change p) := by
  unfold withCapture
  grind -ring -linarith

@[local grind ←] theorem marked_patchAll (target : Nat) (is : List Nat) :
    (marking env fuel imports Marked).holds (patchAll target is) := by
  induction is with
  | nil => exact hb.pure ()
  | cons i is ih =>
    unfold patchAll
    grind -ring -linarith

omit hb in
@[local grind ←] theorem marked_modifyLoop (i : Nat) (f : LoopContext → LoopContext) :
    (marking env fuel imports Marked).holds (modifyLoop i f) := by
  unfold modifyLoop
  grind -ring -linarith

omit hb in
@[local grind ←] theorem marked_leaveLoop : (marking env fuel imports Marked).holds leaveLoop := by
  unfold leaveLoop
  grind -ring -linarith

@[local grind ←] theorem marked_failLoop (msg : String) :
    (marking env fuel imports Marked).holds (failLoop msg) := by
  unfold failLoop
  grind -ring -linarith

theorem marked_break : (marking env fuel imports Marked).holds parseBreak := by
  unfold parseBreak
  grind -ring -linarith

@[local grind ←] theorem marked_emitDefineParam (name : Nat) :
    (marking env fuel imports Marked).holds (emitDefineParam name) := by
  unfold emitDefineParam
  refine hb.bind (hb.registerLocal name) fun _ => ?_
  grind -ring -linarith

@[local grind ←] theorem marked_emitDefineParams (names : List Nat) :
    (marking env fuel imports Marked).holds (emitDefineParams names) := by
  induction names with
  | nil => exact hb.pure ()
  | cons name names ih =>
    unfold emitDefineParams
    grind -ring -linarith

section Calls
variable {r : Parsers} (hr : (marking env fuel imports Marked).Calls r)
include hr

theorem marked_pipeArgs {emitTarget : Nat → P Unit}
    (ht : ∀ n, (marking env fuel imports Marked).holds (emitTarget n)) :
    (marking env fuel imports Marked).holds (parsePipeArgs r emitTarget) := by
  unfold parsePipeArgs
  grind -ring -linarith

theorem marked_shortCircuit (branch : Opcode) (decided : Bool) (prec : Nat) :
    (marking env fuel imports Marked).holds
      (parseShortCircuit r branch decided prec) := by
  unfold parseShortCircuit
  refine hb.bind (hb.emitJump branch) fun lhs => hb.bind (hr.binary prec) fun _ =>
    hb.bind (hb.emitJump branch) fun rhs => hb.bind (hb.emitPush _) fun _ => ?_
  grind -ring -linarith

theorem marked_ifExpr : (marking env fuel imports Marked).holds (parseIfExpr r) := by
  unfold parseIfExpr
  refine hb.bind (hr.binary 0) fun _ => hb.bind (hb.require _ _) fun _ =>
    hb.bind (hb.emitJump _) fun jif => hb.bind (hr.binary 0) fun _ =>
    hb.bind (hb.emitJump _) fun jmp => ?_
  grind -ring -linarith

theorem marked_return : (marking env fuel imports Marked).holds (parseReturn r) := by
  unfold parseReturn
  refine hb.bind hb.context fun c => ?_
  split
  · exact hb.errorAt _
  · refine hb.bind (hb.plain rfl) fun type => ?_
    split
    · grind -ring -linarith
    · refine hb.bind (hb.parseList hr) fun n => ?_
      split
      · grind -ring -linarith
      · refine hb.bind hb.count fun stop => hb.bind hb.context fun c => ?_
        grind -ring -linarith

@[local grind ←] theorem marked_iterator (isPair : Bool) :
    (marking env fuel imports Marked).holds (parseIterator r isPair) := by
  unfold parseIterator
  refine hb.bind (hr.binary 0) fun _ => hb.bind (hb.consume _) fun range => ?_
  split
  · split
    · grind -ring -linarith
    · refine hb.bind (hr.binary 0) fun _ => hb.bind (hb.consume _) fun step => ?_
      split
      · grind -ring -linarith
      · exact hb.bind (hb.plain rfl) fun v => hb.bind (hb.emitPush v) fun _ => hb.pure _
  · exact hb.bind (hb.plain rfl) fun v => hb.bind (hb.emitPush v) fun _ => hb.pure _

end Calls

@[local grind ←] theorem marked_secondName :
    (marking env fuel imports Marked).holds parseSecondName := by
  unfold parseSecondName
  grind -ring -linarith

@[local grind ←] theorem marked_finishLoop (i patchExit : Nat) :
    (marking env fuel imports Marked).holds (finishLoop i patchExit) := by
  unfold finishLoop
  grind -ring -linarith

/-! Blocks. The code of a function, of a branch and of a loop has words of its own around the
block, so the marks made in the block are not all that is new. -/

theorem grown_emitJump (o : Opcode) : (marking env fuel imports (Grown 2)).holds (emitJump o) :=
  grown_bind (grown_emit _) fun _ => grown_behind (kept_of_marked hb.count) fun patch =>
    grown_before (grown_emit _) fun _ => kept_of_marked (hb.pure patch)

theorem grown_emitPush (v : AerVal) : (marking env fuel imports (Grown 2)).holds (emitPush v) :=
  grown_bind (grown_emit _) fun _ => grown_behind (kept_of_marked (hb.addPool v)) fun _ =>
    grown_emit _

omit hb in
theorem grown_scopedBlock {r : Parsers}
    (hr : (marking env fuel imports Kept).holds (parseCompound r)) :
    (marking env fuel imports (Grown 2)).holds (parseScopedCompound r) :=
  grown_behind (kept_of_marked (marked_modify _)) fun _ => grown_bind (grown_emit _) fun _ =>
    grown_behind hr fun _ => grown_before (grown_emit _) fun _ => kept_of_marked (marked_modify _)

theorem marked_functionCode {r : Parsers}
    (hr : (marking env fuel imports Kept).holds (parseCompound r))
    (params : List Nat) : (marking env fuel imports Marked).holds (parseFunctionCode r params) := by
  unfold parseFunctionCode
  refine marked_of_grown (k := 4) le_rfl
    (grown_bind (j := 2) (k := 2) (grown_emitJump hb _) fun patch => ?_)
  refine grown_behind (kept_of_marked hb.count) fun start =>
    grown_behind (kept_of_marked hb.context) fun c => ?_
  dsimp only
  split
  on_goal 1 => refine grown_behind (kept_of_marked (marked_modify _)) fun _ => ?_
  all_goals
    refine grown_behind (kept_of_marked hb.context) fun saved =>
      grown_behind (kept_of_marked (marked_modify _)) fun _ =>
      grown_behind (kept_of_marked (hb.emitOp _)) fun _ =>
      grown_behind (kept_of_marked (marked_emitDefineParams hb _)) fun _ =>
      grown_behind hr fun _ =>
      grown_behind (kept_of_marked (marked_modify _)) fun _ =>
      grown_before (grown_emitPush hb _) fun _ =>
      kept_bind (kept_of_marked hb.emitReturn) fun _ =>
      kept_bind (kept_of_marked (marked_modify _)) fun _ =>
      kept_bind (kept_of_marked (marked_patchHere hb _)) fun _ => kept_of_marked (hb.pure start)

theorem marked_if {r : Parsers} (hr : (marking env fuel imports Marked).Calls r)
    (hblock : (marking env fuel imports Kept).holds (parseCompound r)) :
    (marking env fuel imports Marked).holds (parseIf r) := by
  have hscoped := grown_scopedBlock hblock
  refine hb.bind (hr.binary 0) fun _ => hb.bind (hb.require _ _) fun _ =>
    marked_of_grown (k := 4) le_rfl ?_
  refine grown_bind (j := 2) (k := 2) (grown_emitJump hb _) fun jif =>
    grown_before hscoped fun _ => kept_bind (kept_of_marked (hb.consume _)) fun e => ?_
  split
  · refine kept_bind (kept_of_marked (marked_modify _)) fun _ =>
      kept_bind (kept_of_marked (hb.require _ _)) fun _ =>
      kept_bind (kept_of_marked (hb.emitJump _)) fun jmp =>
      kept_bind (kept_of_marked (marked_patchHere hb jif)) fun _ =>
      kept_bind (kept_of_grown hscoped) fun _ => kept_of_marked (marked_patchHere hb jmp)
  · exact kept_of_marked (marked_patchHere hb jif)

section Loops
variable {r : Parsers} (hr : (marking env fuel imports Marked).Calls r)
  (hblock : (marking env fuel imports Kept).holds (parseCompound r))
include hr hblock

theorem marked_forIn (i name1 : Nat) (name2 : Option Nat) :
    (marking env fuel imports Marked).holds (parseForIn r i name1 name2) := by
  unfold parseForIn
  refine hb.bind (marked_iterator hb hr _) fun slots => ?_
  cases slots with
  | none => exact hb.pure ()
  | some slots =>
    refine hb.bind (hb.require _ _) fun _ => hb.bind (hb.plain rfl) fun failed => ?_
    split
    · exact marked_leaveLoop
    · refine hb.bind hb.count fun top => hb.bind (marked_modifyLoop _ _) fun _ =>
        marked_of_grown (k := 4) le_rfl
          (grown_bind (j := 2) (k := 2) (grown_emitJump hb _) fun patchExit => ?_)
      have hrest : (marking env fuel imports (Grown 2)).holds
          (do parseScopedCompound r
              finishLoop i patchExit) :=
        grown_before (grown_scopedBlock hblock) fun _ => kept_of_marked (marked_finishLoop hb _ _)
      cases name2 with
      | none => exact grown_behind (kept_of_marked (hb.emitDefine _)) fun _ => hrest
      | some name2 =>
        exact grown_behind (kept_of_marked (hb.emitDefine _)) fun _ =>
          grown_behind (kept_of_marked (hb.emitDefine _)) fun _ => hrest

omit hr in
theorem marked_whileBody (i : Nat) :
    (marking env fuel imports Marked).holds (parseWhileBody r i) := by
  unfold parseWhileBody
  refine hb.bind (hb.require _ _) fun _ => hb.bind (hb.plain rfl) fun failed => ?_
  split
  · exact marked_leaveLoop
  · refine marked_of_grown (k := 4) le_rfl
      (grown_bind (j := 2) (k := 2) (grown_emitJump hb _) fun patchExit =>
        grown_behind hblock fun _ => ?_)
    -- The jump back to the condition.
    exact grown_bind (j := 1) (k := 1) (grown_emit _) fun _ =>
      grown_behind (kept_of_marked hb.context) fun c => grown_before (grown_emit _) fun _ =>
        kept_of_marked (hb.bind (marked_patchHere hb _) fun _ => hb.bind hb.count fun stop =>
          hb.bind hb.context fun c => hb.bind (marked_patchAll hb _ _) fun _ => marked_leaveLoop)

theorem marked_for (hops : ∀ k,
      (marking env fuel imports Marked).holds (parseBinaryOps r k)) :
    (marking env fuel imports Marked).holds (parseFor r) := by
  have hbody := marked_whileBody hb hblock
  have hforIn := marked_forIn hb hr hblock
  unfold parseFor
  refine hb.bind hb.context fun c => ?_
  dsimp only
  split
  · exact hb.errorAt _
  · refine hb.bind (marked_modify _) fun _ => hb.bind (hb.equal _) fun isIn => ?_
    split
    · exact marked_failLoop hb _
    · refine hb.bind (hb.equal _) fun isName => ?_
      split
      · refine hb.bind hb.poolToken fun name1 => hb.bind hb.lex fun _ =>
          hb.bind (marked_secondName hb) fun name2 => ?_
        cases name2 with
        | none => exact hb.pure ()
        | some name2 =>
          refine hb.bind (hb.consume _) fun isIn => ?_
          split
          · exact hforIn _ _ _
          · unfold parseWhileName
            refine hb.bind hb.count fun top => hb.bind (marked_modifyLoop _ _) fun _ =>
              hb.bind (hb.emitLoad _) fun _ => hb.bind (hb.parsePostfix hr) fun ok => ?_
            grind -ring -linarith
      · grind -ring -linarith

end Loops

end Blocks

/-! Statements: the mark made before one is dropped with it. -/

theorem execOn_count (s : Parser) : execOn env fuel imports .count s = .done s.chunk.count s := by
  cases imports <;> rfl

theorem execOn_markCount (s : Parser) :
    execOn env fuel imports .markCount s = .done s.chunk.lineMarks.length s := by
  cases imports <;> rfl

theorem execOn_begin (s : Parser) :
    execOn env fuel imports .beginStatement s = execBasic .beginStatement s := by
  cases imports <;> rfl

theorem kept_markLine : (marking env fuel imports Kept).holds (perform .markLine) := by
  intro s
  refine Stays.perform (.refl s) fun a v h => ?_
  rw [execOn_markLine] at h
  cases h
  have hcode := markLine_code s.chunk s.chunk.count s.lexer.file.line
  have hkept : Kept s (s.setChunk (s.chunk.markLine s.chunk.count s.lexer.file.line)) :=
    ⟨fun hs => hs.markLine le_rfl _, (congrArg List.length hcode).ge, prefix_markLine _ _ _⟩
  exact ⟨hkept, hkept⟩

theorem kept_parseLine {statement : P Unit}
    (hs : (marking env fuel imports Marked).holds statement) :
    (marking env fuel imports Kept).holds (parseLine statement) :=
  kept_bind (kept_of_marked (marked_perform rfl)) fun _ => kept_bind
    (kept_of_marked marked_basic.count) fun saved =>
    kept_bind (kept_of_marked (marked_perform rfl)) fun savedMarks =>
    kept_bind kept_markLine fun _ => kept_bind (kept_of_marked hs) fun _ =>
    kept_of_marked (marked_basic.pure (saved, savedMarks))

/-- A statement answers where it has begun. -/
theorem parseLine_answer {statement : P Unit} {s t : Parser} {saved : Nat × Nat}
    (h : (parseLine statement).run (execOn env fuel imports) s = .done saved t) :
    saved = (s.chunk.count, s.chunk.lineMarks.length) := by
  unfold parseLine at h
  obtain ⟨_, u, hu, h⟩ := run_bind_done.mp h
  rw [run_perform', execOn_begin] at hu
  cases hu
  obtain ⟨_, u, hu, h⟩ := run_bind_done.mp h
  rw [count, run_perform', execOn_count] at hu
  cases hu
  obtain ⟨_, u, hu, h⟩ := run_bind_done.mp h
  rw [run_perform', execOn_markCount] at hu
  cases hu
  obtain ⟨_, u, hu, h⟩ := run_bind_done.mp h
  obtain ⟨_, v, hv, h⟩ := run_bind_done.mp h
  cases h
  rfl

/-- Cut off at the end of an earlier state, the chunk has the marks of that state. -/
theorem Kept.truncate {s t : Parser} (h : Kept s t) :
    Lengthens s (t.truncate s.chunk.count s.chunk.lineMarks.length) := by
  have hmarks : t.chunk.lineMarks.take s.chunk.lineMarks.length = s.chunk.lineMarks :=
    (List.prefix_iff_eq_take.mp h.marks).symm
  have hcount : (t.chunk.code.take s.chunk.count).length = s.chunk.count := by
    rw [List.length_take]
    exact min_eq_left h.count_le
  exact ⟨hmarks, hcount.ge⟩

theorem stays_recover {s t : Parser} (h : Kept s t) (stops : List TokenType) (n : Nat) :
    Stays (execOn env fuel imports) Kept Kept s t
      (recover n stops s.chunk.count s.chunk.lineMarks.length) := by
  unfold recover
  refine (Stays.perform (R := fun s t => Kept s t) h fun a v hv => ?_).bind fun a v _ hv => ?_
  · rw [execOn_truncate] at hv
    cases hv
    exact ⟨h.truncate.kept, h.truncate.kept⟩
  · have hb : (marking env fuel imports Marked).Basic := marked_basic
    have hskip : (marking env fuel imports Kept).holds
        (do unless (← context).recoveredAtBoundary do
              skipLine n stops
              skipOrphanedBlock n) := kept_of_marked (by grind -ring -linarith)
    exact (hskip v).after (fun _ => hv.trans) fun _ => hv.trans

theorem kept_loop {α β : Type} {body : α → P (α ⊕ β)}
    (hbody : ∀ a, (marking env fuel imports Kept).holds (body a)) (n : Nat) (a : α) :
    (marking env fuel imports Kept).holds (loop body n a) := by
  induction n generalizing a with
  | zero => exact kept_of_marked marked_basic.stuck
  | succ n ih =>
    refine kept_bind (hbody a) fun r => ?_
    cases r with
    | inl a => exact ih a
    | inr b => exact kept_of_marked (marked_basic.pure b)

/-- A statement of a block that fails leaves the marks as they were before it. -/
theorem kept_blockLine {statement : P Unit}
    (hs : (marking env fuel imports Marked).holds statement) (n : Nat) :
    (marking env fuel imports Kept).holds
      (do let (saved, savedMarks) ← parseLine statement
          if ← perform .hadError then recover n [.else] saved savedMarks
          return (.inl () : Unit ⊕ Unit)) := by
  intro s
  refine (kept_parseLine hs s).bind fun saved t hline ht => ?_
  rw [parseLine_answer hline]
  have hlook : (marking env fuel imports Kept).holds (perform .hadError) :=
    kept_of_marked (marked_perform rfl)
  refine ((hlook t).after (fun _ => ht.trans) fun _ => ht.trans).bind fun failed u _ hu => ?_
  split
  · exact (stays_recover hu _ n).bind fun _ v _ hv => .pure hv hv
  · exact .pure hu hu

theorem kept_compound {r : Parsers}
    (hr : (marking env fuel imports Marked).holds r.statement) :
    (marking env fuel imports Kept).holds (parseCompound r) := by
  have hb : (marking env fuel imports Marked).Basic := marked_basic
  refine kept_bind (kept_of_marked (hb.require _ _)) fun _ =>
    kept_bind (kept_of_marked (hb.require _ _)) fun _ => kept_bind (kept_loop (fun _ => ?_) _ _)
    fun _ => kept_of_marked (hb.bind (hb.consume _) fun _ => marked_modify _)
  refine kept_bind (kept_of_marked (hb.plain rfl)) fun type => ?_
  split
  · exact kept_of_marked (hb.pure _)
  · refine kept_bind (kept_of_marked (hb.consume _)) fun newLine => ?_
    split
    · exact kept_of_marked (hb.pure _)
    · exact kept_blockLine hr _

/-! Fused instructions: a simple operand has no mark, so the cut-off of its code drops none. -/

/-- Code is replaced from a point on at which no mark made since has been. -/
theorem stays_reemit {s t : Parser} (h : Marked s t)
    (hmarks : t.chunk.lineMarks = s.chunk.lineMarks) (ws : List Int) :
    Stays (execOn env fuel imports) Kept Marked s t (reemit s.chunk.count ws) := by
  unfold reemit
  refine (Stays.perform (R := fun _ u => u = t) h.toKept fun n u hu => ?_).bind
    fun n u hrun hu => ?_
  · rw [execOn_markCount] at hu
    cases hu
    exact ⟨h.toKept, rfl⟩
  · subst hu
    rw [run_perform, execOn_markCount] at hrun
    cases hrun
    rw [hmarks]
    refine (Stays.perform (R := Marked) h.toKept fun _ v hv => ?_).bind fun _ v _ hv => ?_
    · rw [execOn_truncate] at hv
      cases hv
      exact ⟨h.toKept.truncate.kept, h.toKept.truncate.marked⟩
    · exact (marked_basic.emitWords ws v).after (fun _ => hv.toKept.trans) fun _ => hv.trans

theorem execOn_segment (start stop : Nat) (s : Parser) :
    execOn env fuel imports (.segment start stop) s =
      .done ((s.chunk.code.take stop).drop start) s := by
  cases imports <;> rfl

/-- An operation that reads. -/
theorem stays_read {R : Parser → Parser → Prop} {s t : Parser} {o : Op} {f : o.Ans → P α}
    {a : o.Ans} (ho : execOn env fuel imports o t = .done a t) (hk : Kept s t)
    (hf : Stays (execOn env fuel imports) Kept R s t (f a)) :
    Stays (execOn env fuel imports) Kept R s t (perform o >>= f) := by
  refine (Stays.perform (R := fun _ u => u = t) hk fun b u hu => ?_).bind fun b u hrun hu => ?_
  · rw [ho] at hu
    cases hu
    exact ⟨hk, rfl⟩
  · subst hu
    rw [run_perform, ho] at hrun
    cases hrun
    exact hf

theorem stays_bind {R : Parser → Parser → Prop} {s t : Parser} (h : Kept s t)
    (hp : (marking env fuel imports Marked).holds p)
    (hf : ∀ a u, Marked t u → Stays (execOn env fuel imports) Kept R s u (f a)) :
    Stays (execOn env fuel imports) Kept R s t (p >>= f) := by
  refine Stays.bind (M := fun _ u => Marked t u) ?_ fun a u _ hu => hf a u hu
  exact ⟨fun q v hv => h.trans ((hp t).reached q v hv), (hp t).ended⟩

theorem length_of_classify {ws : List Int} (h : classifyOperand ws ≠ .none) : ws.length ≤ 3 := by
  unfold classifyOperand at h
  split at h
  · exact Nat.le_succ 2
  · exact le_rfl
  · exact absurd rfl h

theorem length_segment {code : List Int} {start stop : Nat} (h : stop ≤ code.length) :
    ((code.take stop).drop start).length = stop - start := by
  rw [List.length_drop, List.length_take, min_eq_left h]

/-- A piece of code that a simple operand has left holds no new mark. -/
theorem Marked.marks_eq {s t : Parser} (h : Marked s t) {ws : List Int}
    (hlen : ws.length = t.chunk.count - s.chunk.count) (hws : classifyOperand ws ≠ .none) :
    t.chunk.lineMarks = s.chunk.lineMarks := by
  by_contra hne
  have hgrown := h.grown hne
  have hle := length_of_classify hws
  omega

theorem compoundWords_none {op : Opcode} {a b : Operand} {ws : List Int}
    (h : compoundWords op a b = some ws) : a ≠ .none ∧ b ≠ .none := by
  cases a <;> cases b <;> first | (cases h; done) | exact ⟨nofun, nofun⟩

theorem indexGetWords_none {a b : Operand} {ws : List Int}
    (h : indexGetWords a b = some ws) : a ≠ .none ∧ b ≠ .none := by
  cases a <;> cases b <;> first | (cases h; done) | exact ⟨nofun, nofun⟩

theorem marked_compoundAssignment {r : Parsers}
    (hr : (marking env fuel imports Marked).Calls r) (name : Nat) (op : Opcode) :
    (marking env fuel imports Marked).holds (parseCompoundAssignment r name op) := by
  intro s
  unfold parseCompoundAssignment
  refine stays_read (execOn_count s) (.refl s) ?_
  refine stays_bind (.refl s) (marked_basic.emitLoad name) fun _ t ht => ?_
  refine stays_read (execOn_count t) ht.toKept ?_
  refine stays_bind ht.toKept (hr.binary 0) fun _ u htu => ?_
  have hsu := ht.trans htu
  refine stays_read (execOn_count u) hsu.toKept ?_
  refine stays_read (execOn_segment _ _ u) hsu.toKept ?_
  refine stays_read (execOn_segment _ _ u) hsu.toKept ?_
  dsimp only
  split
  · next ws hwords =>
    obtain ⟨hlhs, hrhs⟩ := compoundWords_none hwords
    have hst := ht.marks_eq (length_segment htu.count_le) hlhs
    have htu' := htu.marks_eq (length_segment le_rfl) hrhs
    exact stays_reemit hsu (htu'.trans hst) ws
  · exact ((marked_basic.bind (marked_basic.emitOp op) fun _ => marked_basic.emitStore name) u).after
      (fun _ => hsu.toKept.trans) fun _ => hsu.trans

/-- An index ends with a word of its own, so marks come with one word more. -/
structure Indexed (s t : Parser) : Prop extends Marked s t where
  emitted : s.chunk.count + 1 ≤ t.chunk.count
  more : t.chunk.lineMarks ≠ s.chunk.lineMarks → s.chunk.count + 5 ≤ t.chunk.count

theorem Indexed.behind {s t u : Parser} (h : Marked s t) (h' : Indexed t u) : Indexed s u := by
  have hle := h.count_le
  have hemitted := h'.emitted
  refine ⟨h.trans h'.toMarked, by omega, fun hne => ?_⟩
  by_cases htu : u.chunk.lineMarks = t.chunk.lineMarks
  · have hgrown := h.grown (htu ▸ hne)
    omega
  · have hmore := h'.more htu
    omega

theorem indexed_behind (hp : (marking env fuel imports Marked).holds p)
    (hf : ∀ a, (marking env fuel imports Indexed).holds (f a)) :
    (marking env fuel imports Indexed).holds (p >>= f) :=
  fun s => (hp s).bind fun a v _ hv =>
    (hf a v).after (fun _ => hv.toKept.trans) fun _ => .behind hv

theorem indexed_emitOp (o : Opcode) : (marking env fuel imports Indexed).holds (emitOp o) := by
  intro s
  refine Stays.perform (.refl s) fun a v h => ?_
  have hmarked := (lengthens_execOn rfl h).marked
  have hv : v = s.setChunk (s.chunk.emit o.word) := by cases imports <;> cases h <;> rfl
  have hcount : v.chunk.count = s.chunk.count + 1 := by
    rw [hv]
    exact List.length_append
  exact ⟨hmarked.toKept, hmarked, hcount.ge, fun hne => absurd (hv ▸ rfl) hne⟩

theorem indexed_indexOrSlice {r : Parsers}
    (hr : (marking env fuel imports Marked).Calls r) :
    (marking env fuel imports Indexed).holds (parseIndexOrSlice r) := by
  have hb : (marking env fuel imports Marked).Basic := marked_basic
  have hindex : (marking env fuel imports Indexed).holds
      (do require .closeBracket "expected ']' after index"
          emitOp .indexGet) := indexed_behind (hb.require _ _) fun _ => indexed_emitOp _
  have hslice : (marking env fuel imports Indexed).holds
      (do if ← equal .closeBracket then emitPush .null else r.binary 0
          require .closeBracket "expected ']' after slice"
          emitOp .sliceGet) := by
    refine indexed_behind (hb.equal _) fun last => ?_
    split
    · exact indexed_behind (hb.emitPush _) fun _ => indexed_behind (hb.require _ _) fun _ =>
        indexed_emitOp _
    · exact indexed_behind (hr.binary 0) fun _ => indexed_behind (hb.require _ _) fun _ =>
        indexed_emitOp _
  unfold parseIndexOrSlice
  refine indexed_behind (hb.equal _) fun colon => ?_
  dsimp only
  split
  · refine indexed_behind (hr.binary 0) fun _ => indexed_behind (hb.consume _) fun slice => ?_
    split
    · exact hslice
    · exact hindex
  · refine indexed_behind (hb.consume _) fun slice => ?_
    split
    · exact indexed_behind (hb.emitPush _) fun _ => hslice
    · exact hindex

theorem marked_indexedName {r : Parsers}
    (hr : (marking env fuel imports Marked).Calls r) (name : Nat) :
    (marking env fuel imports Marked).holds (parseIndexedName r name) := by
  intro s
  unfold parseIndexedName
  refine stays_read (execOn_count s) (.refl s) ?_
  refine stays_bind (.refl s) (marked_basic.emitLoad name) fun _ t ht => ?_
  refine stays_read (execOn_count t) ht.toKept ?_
  have hindex := indexed_indexOrSlice hr t
  refine Stays.bind (M := fun _ u => Indexed t u)
    ⟨fun q v hv => ht.toKept.trans (hindex.reached q v hv), hindex.ended⟩ fun _ u _ htu => ?_
  have hsu := ht.trans htu.toMarked
  refine stays_read (execOn_count u) hsu.toKept ?_
  refine stays_read (execOn_segment _ _ u) hsu.toKept ?_
  split
  · refine stays_read (execOn_segment _ _ u) hsu.toKept ?_
    refine stays_read (execOn_segment _ _ u) hsu.toKept ?_
    dsimp only
    split
    · next ws hwords =>
      obtain ⟨harr, hidx⟩ := indexGetWords_none hwords
      have hst := ht.marks_eq (length_segment htu.count_le) harr
      have htu' : u.chunk.lineMarks = t.chunk.lineMarks := by
        by_contra hne
        have hmore := htu.more hne
        have hle := length_of_classify hidx
        have hstop : u.chunk.count - 1 ≤ u.chunk.code.length := Nat.sub_le _ 1
        rw [length_segment hstop] at hle
        omega
      exact stays_reemit hsu (htu'.trans hst) ws
    · exact .pure hsu.toKept hsu
  · exact .pure hsu.toKept hsu

theorem marked_closed : (marking env fuel imports Marked).ClosedOutside where
  toBasic := marked_basic
  bareCall := marked_bareCall marked_basic
  pipeArgs hr := marked_pipeArgs marked_basic hr
  nested := marked_nested marked_basic
  shortCircuit := marked_shortCircuit marked_basic
  ifExpr := marked_ifExpr marked_basic
  indexedName := marked_indexedName
  functionCode hr := marked_functionCode marked_basic (kept_compound hr.statement)
  capture _ _ := marked_capture marked_basic _
  returnStmt := marked_return marked_basic
  compoundAssignment := marked_compoundAssignment
  ifStmt hr := marked_if marked_basic hr (kept_compound hr.statement)
  forStmt hr := marked_for marked_basic hr (kept_compound hr.statement)
  breakStmt := marked_break marked_basic

end Programs

/-! Files and sessions. -/

/-- The states that the compilation of a file comes to: inside a statement, inside the recovery
from one, and between the lines. -/
inductive FileReaches (exec : Exec Op Op.Ans Parser Stop) (r : Parsers) : Parser → Parser → Prop
  | here (s : Parser) : FileReaches exec r s s
  | skip {s u : Parser} : s.tokenType = .newLine ∨ s.tokenType = .dedent →
      FileReaches exec r s.lex u → FileReaches exec r s u
  | inside {s u : Parser} {q : P (Nat × Nat)} : s.tokenType ≠ .endOfFile →
      Reaches exec (parseLine r.statement) s q u → FileReaches exec r s u
  | recovering {s t u : Parser} {saved : Nat × Nat} {q : P Unit} : s.tokenType ≠ .endOfFile →
      (parseLine r.statement).run exec s = .done saved t → t.parseHadError = true →
      Reaches exec (recover r.fuel [] saved.1 saved.2) { t with events := .checked :: t.events } q u →
      FileReaches exec r s u
  | next {s t u : Parser} {failed : Bool} : s.tokenType ≠ .endOfFile →
      parseFileLine exec r s = .done failed t → FileReaches exec r t u → FileReaches exec r s u

/-- The states of the compilers of a session. A chunk begins empty, for the programs of the
session or for an imported file. The programs are compiled behind each other, and each one
ends with `OP_HALT`; what goes on between two of them, and the instructions that run, leave the
code and the marks as they are. -/
inductive Compiling (env : Env) : Parser → Prop
  | start {s : Parser} : s.chunk = .init → Compiling env s
  | file {s u : Parser} (fuel imports : Nat) : Compiling env s →
      FileReaches (execOn env fuel imports) (parsers fuel) s.lex u → Compiling env u
  | halt {s : Parser} : Compiling env s → Compiling env (s.setChunk (s.chunk.emitOp .halt))
  | between {s t : Parser} : Compiling env s → t.chunk.code = s.chunk.code →
      t.chunk.lineMarks = s.chunk.lineMarks → Compiling env t

section Files
variable {env : Env} {fuel imports : Nat}

theorem kept_statement : (marking env fuel imports Marked).holds (parsers fuel).statement :=
  (marked_closed.parsers fuel).statement

theorem stays_recoverFile {s t : Parser} {saved : Nat × Nat}
    (h : (parseLine (parsers fuel).statement).run (execOn env fuel imports) s = .done saved t) :
    Stays (execOn env fuel imports) Kept Kept s { t with events := .checked :: t.events }
      (recover (parsers fuel).fuel [] saved.1 saved.2) := by
  have ht : Kept s t := (kept_parseLine kept_statement s).ended saved t h
  have hlook : Kept s { t with events := .checked :: t.events } := ⟨ht.wf, ht.count_le, ht.marks⟩
  rw [parseLine_answer h]
  exact stays_recover hlook [] _

theorem kept_fileLine {s t : Parser} {failed : Bool}
    (h : parseFileLine (execOn env fuel imports) (parsers fuel) s = .done failed t) : Kept s t := by
  obtain ⟨saved, u, hline, h⟩ := Outcome.andThen_eq_done.mp h
  have hu : Kept s u := (kept_parseLine kept_statement s).ended saved u hline
  dsimp only at h
  split at h
  · obtain ⟨_, v, hv, h⟩ := Outcome.andThen_eq_done.mp h
    cases h
    exact (stays_recoverFile hline).ended () _ hv
  · cases h
    exact ⟨hu.wf, hu.count_le, hu.marks⟩

/-- The marks are kept in every state that the compilation of a file comes to. -/
theorem kept_file {s u : Parser}
    (h : FileReaches (execOn env fuel imports) (parsers fuel) s u) : Kept s u := by
  induction h with
  | here s => exact .refl s
  | @skip s u _ _ ih => exact (Lengthens.of_chunk (lex_chunk s)).kept.trans ih
  | @inside s u q _ h => exact (kept_parseLine kept_statement s).reached q u h
  | @recovering s t u saved q _ hline _ h => exact (stays_recoverFile hline).reached q u h
  | next _ h _ ih => exact (kept_fileLine h).trans ih

theorem fileReaches_parse {s t : Parser}
    (h : parse (execOn env fuel imports) (parsers fuel) s = .done () t) :
    ∃ u, FileReaches (execOn env fuel imports) (parsers fuel) s u ∧ t.chunk = u.chunk := by
  suffices ∀ n anyError s, parseLines (execOn env fuel imports) (parsers fuel) n anyError s =
      .done () t →
      ∃ u, FileReaches (execOn env fuel imports) (parsers fuel) s u ∧ t.chunk = u.chunk from
    this _ _ s h
  intro n
  induction n with
  | zero =>
    intro anyError s h
    cases h
  | succ n ih =>
    intro anyError s h
    unfold parseLines at h
    split at h
    · cases h
      exact ⟨s, .here s, rfl⟩
    · next htype =>
      obtain ⟨u, hu, hchunk⟩ := ih _ _ h
      exact ⟨u, .skip (.inl htype) hu, hchunk⟩
    · next htype =>
      obtain ⟨u, hu, hchunk⟩ := ih _ _ h
      exact ⟨u, .skip (.inr htype) hu, hchunk⟩
    · next hend _ _ =>
      obtain ⟨failed, v, hv, h⟩ := Outcome.andThen_eq_done.mp h
      obtain ⟨u, hu, hchunk⟩ := ih _ _ h
      exact ⟨u, .next hend hv hu, hchunk⟩

/-- A program of the session is compiled to its end. -/
theorem Compiling.parse {s t : Parser} (hs : Compiling env s)
    (h : Compiler.parse (execOn env fuel imports) (parsers fuel) s.lex = .done () t) :
    Compiling env t := by
  obtain ⟨u, hu, hchunk⟩ := fileReaches_parse h
  exact .between (.file fuel imports hs hu) (by rw [hchunk]) (by rw [hchunk])

end Files

/-- In every state of every compilation of a session, however many statements have failed in
whatever blocks, the marks have strictly increasing offsets inside the code or at its end, and
the search finds for every offset the line of the last mark up to it. -/
theorem lineMarks_searchable {env : Env} {s : Parser} (h : Compiling env s) :
    s.chunk.MarksWf ∧ ∀ offset, s.chunk.lineForOffset offset = lineAt s.chunk.lineMarks offset := by
  have hwf : s.chunk.MarksWf := by
    induction h with
    | start hinit => exact hinit ▸ ⟨.nil, fun _ hm => nomatch hm⟩
    | @file s u fuel imports _ hfile ih =>
      exact ((Lengthens.of_chunk (lex_chunk s)).kept.trans (kept_file hfile)).wf ih
    | @halt s _ ih =>
      exact ih.of_count_le rfl (by simp [Parser.setChunk, Chunk.count, Chunk.emitOp, Chunk.emit])
    | between _ hcode hmarks ih => exact ih.of_count_le hmarks (congrArg List.length hcode).ge
  exact ⟨hwf, hwf.lineForOffset_eq⟩

/-- A file in which a statement fails inside a block. -/
def failingBlock : Parser :=
  .start .run (.open [] (bytes "x = 1\nif x:\n    )\n    y = 2\nz = 3\n")) .init .init

def failingBlockEnd : Parser := (parse (execOn .alone 20 0) (parsers 20) failingBlock.lex).state

theorem compiling_failingBlock : Compiling .alone failingBlockEnd := by
  have hdone : (parse (execOn .alone 20 0) (parsers 20) failingBlock.lex).isDone = true := by
    decide +kernel
  exact .parse (.start rfl) (Outcome.eq_done_of_isDone hdone)

theorem lineMarks_searchable_failingBlock :
    failingBlockEnd.chunk.lineMarks = [(0, 1), (5, 2), (11, 4), (17, 5)] ∧
      failingBlockEnd.chunk.MarksWf ∧
      ∀ offset, failingBlockEnd.chunk.lineForOffset offset =
        lineAt failingBlockEnd.chunk.lineMarks offset :=
  ⟨by decide +kernel, lineMarks_searchable compiling_failingBlock⟩

end Aer.Compiler
