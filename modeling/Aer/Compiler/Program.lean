import Aer.Compiler.Statements

set_option linter.all false

/-! Whole programs: the import of file modules, each compiled by the same parser in a
chunk of its own, and the compilation of the source at the cursor. -/
namespace Aer.Compiler

open Aer.Data Aer.Memory Aer.Machine Aer.Lib.Interaction

theorem lex_chunk (s : Parser) : s.lex.chunk = s.chunk := by
  have hrest : ∀ (rs : List Report) (u : Parser), (rs.foldl Parser.report u).chunk = u.chunk := by
    intro rs
    induction rs with
    | nil => exact fun _ => rfl
    | cons r rs ih => exact fun u => ih _
  unfold Parser.lex
  dsimp only
  cases s.lexer.lex.value <;> exact hrest _ _

/-- What a module's compilation leaves of the record of the error flag: the looks its
own `parse()` has taken are not those of the importing one. -/
def importEvents (inner : Parser) (outer : List Event) : List Event :=
  (if inner.parseHadError then [.raised] else []) ++ inner.events.filter (· ≠ .checked) ++ outer

/-- Back to the importing file, whatever has become of the module. -/
def Parser.resume (inner outer : Parser) : Parser :=
  { inner with
    lexer := outer.lexer
    tokenType := outer.tokenType
    tokenValue := outer.tokenValue
    chunk := outer.chunk
    loading := outer.loading
    runtimeHadError := false
    events := importEvents inner outer.events
    notes := outer.notes }

/-- Read, compile and run a file as the module `name`; `compile` is the nested
compilation. -/
def loadModule (env : Env) (compile : Parser → Result Unit) (name file : Bytes) (s : Parser) :
    Result Unit :=
  let inner := { s with chunk := .init, loading := s.loading ++ [file], events := [], notes := [] }
  match env.readFile file with
  | none => .done () ((inner.report ⟨false, s.lexer.file, bytes "Cannot open file: " ++ file⟩).resume s)
  | some text =>
      let inner := { inner with lexer := .start (.open file text) }
      if s.parseHadError then .done () (inner.resume s)
      else
        (compile inner).andThen fun _ inner =>
          let haltAddr := inner.chunk.count
          let inner := inner.setChunk (inner.chunk.emitOp .halt)
          if inner.parseHadError then .done () (inner.resume s)
          else
            match env.runModule inner.modules inner.chunk inner.heap with
            | none => .stop .stuck inner
            | some (failed, vm, chunk, heap) =>
                let inner := { inner with heap }
                if failed then
                  .done () ((inner.errorAt
                    (bytes "Error while loading module '" ++ name ++ bytes "'")).resume s)
                else
                  let loaded : FileModule := ⟨name, chunk, vm, haltAddr⟩
                  let inner := { inner with modules := inner.modules ++ [loaded] }
                  .done () ((inner.resume s).bindImport name)

def addImport (env : Env) (compile : Parser → Result Unit) (name path : Bytes) (s : Parser) :
    Result Unit :=
  if env.isNative name ∨ s.modules.any (·.name == name) then .done () (s.bindImport name)
  else
    let file := env.resolvePath s.lexer.file.name path
    if s.loading.contains file then
      .done () (s.errorAt (bytes "Circular import: '" ++ file ++ bytes "' is already being loaded"))
    else loadModule env compile name file s

section Parse
variable (exec : Exec Op Op.Ans Parser Stop) (r : Parsers)

/-- A statement of the file, `parse()`'s look at the error flag, and the recovery. -/
def parseFileLine (s : Parser) : Result Bool :=
  ((parseLine r.statement).run exec s).andThen fun saved s =>
    let looked := { s with events := .checked :: s.events }
    if s.parseHadError then
      ((recover r.fuel [] saved.1 saved.2).run exec looked).andThen fun _ s => .done true s
    else .done false looked

/-- The statements up to the end of the file; `anyError` tells whether one has failed. -/
def parseLines : Nat → Bool → Parser → Result Unit
  | 0, _, s => .stop .stuck s
  | n + 1, anyError, s =>
      match s.tokenType with
      | .endOfFile => .done () { s with parseHadError := anyError || s.parseHadError }
      | .newLine | .dedent => parseLines n anyError s.lex
      | _ =>
          (parseFileLine exec r s).andThen fun failed s => parseLines n (anyError || failed) s

def parse (s : Parser) : Result Unit := parseLines exec r r.fuel false s

end Parse

section Relation
variable {exec : Exec Op Op.Ans Parser Stop} {R : Parser → Parser → Prop}
  (hrefl : ∀ s, R s s) (htrans : ∀ s t u, R s t → R t u → R s u)
  (hlex : ∀ s, R s s.lex) (hflag : ∀ s flag log, R s { s with parseHadError := flag, events := log })
include hrefl htrans hlex hflag

omit hrefl in
/-- What relates a state to the next over every line of a file, a compilation relates. -/
theorem parse_lines_rel {r : Parsers} {s t : Parser}
    (hline : ∀ s failed t, parseFileLine exec r s = .done failed t → R s t)
    (h : parse exec r s = .done () t) : R s t := by
  suffices ∀ n anyError s, parseLines exec r n anyError s = .done () t → R s t from this _ _ _ h
  intro n
  induction n with
  | zero =>
    intro anyError s h
    cases h
  | succ n ih =>
    intro anyError s h
    unfold parseLines at h
    split at h
    · cases h
      exact hflag s _ s.events
    · exact htrans _ _ _ (hlex s) (ih _ _ h)
    · exact htrans _ _ _ (hlex s) (ih _ _ h)
    · obtain ⟨failed, u, hu, h⟩ := Outcome.andThen_eq_done.mp h
      exact htrans _ u _ (hline s failed u hu) (ih _ _ h)

omit hrefl hlex in
theorem parseFileLine_rel {r : Parsers} {s t : Parser} {failed : Bool}
    (hline : ∀ s saved t, (parseLine r.statement).run exec s = .done saved t → R s t)
    (hrecover : ∀ count marks s t, (recover r.fuel [] count marks).run exec s = .done () t → R s t)
    (h : parseFileLine exec r s = .done failed t) : R s t := by
  obtain ⟨saved, w, hw, h⟩ := Outcome.andThen_eq_done.mp h
  have hlook := hflag w w.parseHadError (.checked :: w.events)
  dsimp only at h
  split at h
  · obtain ⟨_, x, hx, h⟩ := Outcome.andThen_eq_done.mp h
    cases h
    exact htrans _ _ _ (hline s saved w hw) (htrans _ _ _ hlook (hrecover _ _ _ _ hx))
  · cases h
    exact htrans _ _ _ (hline s saved w hw) hlook

omit hlex hflag in
theorem run_rel (hop : ∀ o s a t, exec o s = .done a t → R s t) {α : Type} {p : P α} {s t : Parser}
    {a : α} (h : p.run exec s = .done a t) : R s t :=
  run_invariant h (hrefl s) fun o s' a s'' hs he => htrans s s' s'' hs (hop o s' a s'' he)

/-- What relates a state to the next in every operation, a compilation relates. -/
theorem parse_rel (hop : ∀ o s a t, exec o s = .done a t → R s t) {r : Parsers} {s t : Parser}
    (h : parse exec r s = .done () t) : R s t :=
  parse_lines_rel htrans hlex hflag (fun _ _ _ => parseFileLine_rel htrans hflag
    (fun _ _ _ => run_rel hrefl htrans hop) fun _ _ _ _ => run_rel hrefl htrans hop) h

end Relation

/-- The operations, with imports nested to a bound; `fuel` bounds the recursive calls. -/
def exec (env : Env) (fuel : Nat) : Nat → Exec Op Op.Ans Parser Stop
  | 0 => execBasic
  | n + 1 => fun o s =>
      match o with
      | .addImport name path =>
          addImport env (fun s => parse (exec env fuel n) (parsers fuel) s.lex) name path s
      | o => execBasic o s

/-- An environment without modules and files. -/
def Env.alone : Env := ⟨fun _ => false, fun _ path => path, fun _ => none, fun _ _ _ => none⟩

/-- `parse()` on a text of its own, in an environment without modules. -/
def parseText (fuel : Nat) (text : String) : Result Unit :=
  parse (exec .alone fuel 0) (parsers fuel)
    (Parser.start .run (.open [] (bytes text)) .init .init).lex

theorem exec_basic (env : Env) (fuel n : Nat) {o : Op} (ho : ∀ name path, o ≠ .addImport name path)
    (s : Parser) : exec env fuel n o s = execBasic o s := by
  cases n with
  | zero => rfl
  | succ n =>
    cases o with
    | addImport name path => exact absurd rfl (ho name path)
    | _ => rfl

/-- Compile the text at the cursor and end it with `OP_HALT`. -/
def compileProgram (env : Env) (fuel imports : Nat) (s : Parser) : Result Unit :=
  (parse (exec env fuel imports) (parsers fuel) s.lex).andThen fun _ s =>
    .done () (s.setChunk (s.chunk.emitOp .halt))

end Aer.Compiler
