import Aer.Compiler.Program

set_option linter.all false

/-! What every function of the parser has, once its building blocks have it: one
traversal of the parser for all properties that pass from parts to wholes. -/
namespace Aer.Compiler

open Aer.Data Aer.Machine Aer.Lib.Interaction

/-- A property of programs of the parser. -/
structure Property where
  holds : {α : Type} → P α → Prop

/-- The operations that neither change the context nor rewrite code. -/
def Op.isPlain : Op → Bool
  | .modify _ | .patch _ _ | .truncate _ _ | .beginStatement | .markLine | .addImport _ _ => false
  | _ => true

/-- The property of relating the states before and after every completed run. -/
def Property.related (exec : Exec Op Op.Ans Parser Stop) (R : Parser → Parser → Prop) : Property :=
  ⟨fun p => ∀ s a t, p.run exec s = .done a t → R s t⟩

/-- The property holds of the recursive calls. -/
structure Property.Calls (Q : Property) (r : Parsers) : Prop where
  bounded : ∃ n, r = parsers n
  statement : Q.holds r.statement
  binary : ∀ k, Q.holds (r.binary k)
  unary : Q.holds r.unary

section Related
variable {exec : Exec Op Op.Ans Parser Stop} {R : Parser → Parser → Prop} {α β : Type}

theorem run_bind_done {p : P α} {f : α → P β} {s t : Parser} {b : β} :
    (p >>= f).run exec s = .done b t ↔ ∃ a u, p.run exec s = .done a u ∧ (f a).run exec u = .done b t := by
  rw [run_bind]
  exact Outcome.andThen_eq_done

theorem related_pure (hrefl : ∀ s, R s s) (a : α) : (Property.related exec R).holds (pure a : P α) := by
  intro s b t h
  cases h
  exact hrefl s

theorem related_bind (htrans : ∀ s t u, R s t → R t u → R s u) {p : P α} {f : α → P β}
    (hp : (Property.related exec R).holds p) (hf : ∀ a, (Property.related exec R).holds (f a)) :
    (Property.related exec R).holds (p >>= f) := by
  intro s b t h
  obtain ⟨a, u, hu, h⟩ := run_bind_done.mp h
  exact htrans s u t (hp s a u hu) (hf a u b t h)

end Related

/-- What passes from parts to wholes: sequences, the operations that leave the context and the
code before them alone, imports, and the record of the names in use. -/
structure Property.Basic (Q : Property) : Prop where
  pure {α : Type} (a : α) : Q.holds (pure a : P α)
  bind {α β : Type} {p : P α} {f : α → P β} : Q.holds p → (∀ a, Q.holds (f a)) → Q.holds (p >>= f)
  plain {o : Op} : o.isPlain = true → Q.holds (perform o)
  importFile (name path : Bytes) : Q.holds (perform (.addImport name path))
  addLocal (name : Nat) : Q.holds (modify (·.captureAddLocal name))
  addCaptured (name : Nat) : Q.holds (modify (·.captureAddCaptured name))
  addOuterLocal (name : Nat) : Q.holds (modify (·.outerLocalsAdd name))

/-- The blocks in which the parser changes its context, leaves a jump open, or rewrites
or cuts off code. -/
structure Property.Closed (Q : Property) : Prop extends Property.Basic Q where
  bareCall (name n : Nat) : Q.holds (do
    emitCall name n
    let stop ← count
    modify fun c => { c with lastBareCallEnd := some stop })
  pipeArgs {r : Parsers} {emitTarget : Nat → P Unit} : Q.Calls r → (∀ n, Q.holds (emitTarget n)) →
    Q.holds (parsePipeArgs r emitTarget)
  nested {p : P Unit} : Q.holds p → Q.holds (nested p)
  shortCircuit {r : Parsers} : Q.Calls r → ∀ branch decided prec,
    Q.holds (parseShortCircuit r branch decided prec)
  ifExpr {r : Parsers} : Q.Calls r → Q.holds (parseIfExpr r)
  indexedName {r : Parsers} : Q.Calls r → ∀ name, Q.holds (parseIndexedName r name)
  compound {r : Parsers} : Q.Calls r → Q.holds (parseCompound r)
  scopedBlock {r : Parsers} : Q.holds (parseCompound r) → Q.holds (parseScopedCompound r)
  functionCode {r : Parsers} : Q.holds (parseCompound r) → ∀ params,
    Q.holds (parseFunctionCode r params)
  capture {α : Type} {p : P α} (capturing : Bool) (ctx : Context → CaptureCtx) : Q.holds p →
    Q.holds (withCapture (fun c => { c with capturing, captureCtx := ctx c }) p)
  returnStmt {r : Parsers} : Q.Calls r → Q.holds (parseReturn r)
  compoundAssignment {r : Parsers} : Q.Calls r → ∀ name op,
    Q.holds (parseCompoundAssignment r name op)
  ifStmt {r : Parsers} : Q.Calls r → Q.holds (parseScopedCompound r) → Q.holds (parseIf r)
  forStmt {r : Parsers} : Q.Calls r → (∀ k, Q.holds (parseBinaryOps r k)) →
    Q.holds (parseCompound r) → Q.holds (parseScopedCompound r) → Q.holds (parseFor r)
  breakStmt : Q.holds parseBreak

/-- As `Property.Closed`, for a property that an indented block need not have by itself, only
the statement or the function around it. -/
structure Property.ClosedOutside (Q : Property) : Prop extends Property.Basic Q where
  bareCall (name n : Nat) : Q.holds (do
    emitCall name n
    let stop ← count
    modify fun c => { c with lastBareCallEnd := some stop })
  pipeArgs {r : Parsers} {emitTarget : Nat → P Unit} : Q.Calls r → (∀ n, Q.holds (emitTarget n)) →
    Q.holds (parsePipeArgs r emitTarget)
  nested {p : P Unit} : Q.holds p → Q.holds (nested p)
  shortCircuit {r : Parsers} : Q.Calls r → ∀ branch decided prec,
    Q.holds (parseShortCircuit r branch decided prec)
  ifExpr {r : Parsers} : Q.Calls r → Q.holds (parseIfExpr r)
  indexedName {r : Parsers} : Q.Calls r → ∀ name, Q.holds (parseIndexedName r name)
  functionCode {r : Parsers} : Q.Calls r → ∀ params, Q.holds (parseFunctionCode r params)
  capture {α : Type} {p : P α} (capturing : Bool) (ctx : Context → CaptureCtx) : Q.holds p →
    Q.holds (withCapture (fun c => { c with capturing, captureCtx := ctx c }) p)
  returnStmt {r : Parsers} : Q.Calls r → Q.holds (parseReturn r)
  compoundAssignment {r : Parsers} : Q.Calls r → ∀ name op,
    Q.holds (parseCompoundAssignment r name op)
  ifStmt {r : Parsers} : Q.Calls r → Q.holds (parseIf r)
  forStmt {r : Parsers} : Q.Calls r → (∀ k, Q.holds (parseBinaryOps r k)) → Q.holds (parseFor r)
  breakStmt : Q.holds parseBreak

theorem Property.Closed.outside {Q : Property} (h : Q.Closed) : Q.ClosedOutside := {
  h with
  functionCode := fun hr => h.functionCode (h.compound hr)
  ifStmt := fun hr => h.ifStmt hr (h.scopedBlock (h.compound hr))
  forStmt := fun hr hops => h.forStmt hr hops (h.compound hr) (h.scopedBlock (h.compound hr)) }

attribute [grind →] Property.Calls.unary Property.ClosedOutside.toBasic

attribute [grind ←] Property.Calls.binary

section Basic
variable {Q : Property} (h : Q.Basic)
include h

namespace Property.Basic

/-! Operations. -/

@[grind ←] theorem lex : Q.holds lex := h.plain rfl

@[grind ←] theorem errorAt (msg : String) : Q.holds (errorAt msg) := h.plain rfl

@[grind ←] theorem context : Q.holds context := h.plain rfl

@[grind ←] theorem count : Q.holds count := h.plain rfl

@[grind ←] theorem emit (word : Int) : Q.holds (emit word) := h.plain rfl

@[grind ←] theorem emitOp (o : Opcode) : Q.holds (emitOp o) := h.emit o.word

@[grind ←] theorem emitNat (n : Nat) : Q.holds (emitNat n) := h.emit n

@[grind ←] theorem addPool (v : AerVal) : Q.holds (addPool v) := h.plain rfl

@[grind ←] theorem addAddrCache : Q.holds addAddrCache := h.plain rfl

@[grind ←] theorem stuck {α : Type} : Q.holds (stuck : P α) := by
  unfold Compiler.stuck
  exact h.bind (h.plain rfl) fun e => e.elim

@[grind ←] theorem perform {o : Op} (ho : o.isPlain = true) : Q.holds (perform o) := h.plain ho

attribute [grind ←] Property.Basic.pure Property.Basic.bind Property.Basic.importFile

attribute [grind] Op.isPlain

@[grind ←] theorem equal (type : TokenType) : Q.holds (equal type) := by
  unfold Compiler.equal
  grind -ring -linarith

@[grind ←] theorem require (type : TokenType) (msg : String) : Q.holds (require type msg) := by
  unfold Compiler.require
  grind -ring -linarith

@[grind ←] theorem consume (type : TokenType) : Q.holds (consume type) := by
  unfold Compiler.consume
  grind -ring -linarith

@[grind ←] theorem poolToken : Q.holds poolToken := by
  unfold Compiler.poolToken
  grind -ring -linarith

@[grind ←] theorem emitJump (o : Opcode) : Q.holds (emitJump o) := by
  unfold Compiler.emitJump
  grind -ring -linarith

@[grind ←] theorem emitPush (v : AerVal) : Q.holds (emitPush v) := by
  unfold Compiler.emitPush
  grind -ring -linarith

@[grind ←] theorem loop {α β : Type} {body : α → P (α ⊕ β)} (hbody : ∀ a, Q.holds (body a)) (n : Nat) (a : α) :
    Q.holds (loop body n a) := by
  induction n generalizing a with
  | zero => exact h.stuck
  | succ n ih =>
    refine h.bind (hbody a) fun r => ?_
    cases r with
    | inl a => exact ih a
    | inr b => exact h.pure b

/-! Variables. -/

@[grind ←] theorem captureClassify (name : Nat) (asWrite : Bool) :
    Q.holds (captureClassify name asWrite) := by
  have hlocal := h.addLocal name
  have hcaptured := h.addCaptured name
  unfold Compiler.captureClassify
  grind -ring -linarith

@[grind ←] theorem emitLoad (name : Nat) : Q.holds (emitLoad name) := by
  unfold Compiler.emitLoad
  grind -ring -linarith

@[grind ←] theorem emitPlainStore (name : Nat) : Q.holds (emitPlainStore name) := by
  unfold Compiler.emitPlainStore
  grind -ring -linarith

@[grind ←] theorem emitStore (name : Nat) : Q.holds (emitStore name) := by
  have houter := h.addOuterLocal name
  unfold Compiler.emitStore
  grind -ring -linarith

@[grind ←] theorem registerLocal (name : Nat) : Q.holds (registerLocal name) := by
  have hlocal := h.addLocal name
  have houter := h.addOuterLocal name
  unfold Compiler.registerLocal
  grind -ring -linarith

@[grind ←] theorem emitDefine (name : Nat) : Q.holds (emitDefine name) := by
  unfold Compiler.emitDefine
  grind -ring -linarith

@[grind ←] theorem emitWords (ws : List Int) : Q.holds (emitWords ws) := by
  induction ws with
  | nil => exact h.pure ()
  | cons w ws ih =>
    unfold Compiler.emitWords
    grind -ring -linarith

/-! Expressions. -/

@[grind ←] theorem atModuleName : Q.holds atModuleName := by
  unfold Compiler.atModuleName
  grind -ring -linarith

@[grind ←] theorem unlessForbidden {p : P Unit} (hp : Q.holds p) : Q.holds (unlessForbidden p) := by
  unfold Compiler.unlessForbidden
  grind -ring -linarith

@[grind ←] theorem emitCall (name n : Nat) : Q.holds (emitCall name n) := by
  unfold Compiler.emitCall
  grind -ring -linarith

@[grind ←] theorem emitCallModule (module fn n : Nat) : Q.holds (emitCallModule module fn n) := by
  unfold Compiler.emitCallModule
  grind -ring -linarith

@[grind ←] theorem parseModuleName (missing : String) : Q.holds (parseModuleName missing) := by
  unfold Compiler.parseModuleName
  grind -ring -linarith

@[grind ←] theorem emitCast (name : Bytes) (type : Nat) : Q.holds (emitCast name type) := by
  unfold Compiler.emitCast
  grind -ring -linarith

@[grind ←] theorem parseCast : Q.holds parseCast := by
  unfold Compiler.parseCast
  grind -ring -linarith

@[grind ←] theorem poolEscapedString (b : Bytes) : Q.holds (poolEscapedString b) := by
  unfold Compiler.poolEscapedString
  grind -ring -linarith

@[grind ←] theorem joinPart (parts : Nat) : Q.holds (joinPart parts) := by
  unfold Compiler.joinPart
  grind -ring -linarith

@[grind ←] theorem parseStringPart (a : Bytes × Nat) : Q.holds (parseStringPart a) := by
  obtain ⟨s, parts⟩ := a
  unfold Compiler.parseStringPart
  dsimp only
  split
  · refine h.bind (h.pure _) fun parts => ?_
    split
    · grind -ring -linarith
    · split
      · grind -ring -linarith
      · split <;> grind -ring -linarith
  · refine h.bind (h.emitOp _) fun _ => h.bind (h.poolEscapedString _) fun _ =>
      h.bind (h.emitNat _) fun _ => h.bind (h.joinPart _) fun parts => ?_
    split
    · grind -ring -linarith
    · split
      · grind -ring -linarith
      · split <;> grind -ring -linarith

@[grind ←] theorem parseString (r : Parsers) : Q.holds (parseString r) := by
  unfold Compiler.parseString
  grind -ring -linarith

@[grind ←] theorem parseConstant (v : AerVal) : Q.holds (parseConstant v) := by
  unfold Compiler.parseConstant
  grind -ring -linarith

/-! Functions. -/

@[grind ←] theorem parseLiteralDefault : Q.holds parseLiteralDefault := by
  unfold Compiler.parseLiteralDefault
  refine h.bind (h.consume _) fun negative => h.bind (h.plain rfl) fun type => ?_
  split
  · grind -ring -linarith
  · grind -ring -linarith
  · split
    · grind -ring -linarith
    · split <;> grind -ring -linarith

@[grind ←] theorem parseReceiver (l : ParamList) : Q.holds (parseReceiver l) := by
  unfold Compiler.parseReceiver
  grind -ring -linarith

@[grind ←] theorem parseParamDefault (l : ParamList) : Q.holds (parseParamDefault l) := by
  unfold Compiler.parseParamDefault
  grind -ring -linarith

@[grind ←] theorem parseParam (l : ParamList) : Q.holds (parseParam l) := by
  unfold Compiler.parseParam
  refine h.bind (h.equal _) fun name => ?_
  split
  · split
    · grind -ring -linarith
    · refine h.bind h.poolToken fun _ => h.bind h.lex fun _ => h.bind (h.parseReceiver l) fun o => ?_
      cases o <;> grind -ring -linarith
  · grind -ring -linarith

@[grind ←] theorem parseParams (r : Parsers) : Q.holds (parseParams r) := by
  unfold Compiler.parseParams
  grind -ring -linarith

@[grind ←] theorem poolVals (is : List Nat) : Q.holds (poolVals is) := by
  induction is with
  | nil => exact h.pure []
  | cons i is ih =>
    unfold Compiler.poolVals
    grind -ring -linarith

@[grind ←] theorem emitPlainFunctionValue (sig : FunctionSig) :
    Q.holds (emitPlainFunctionValue sig) := by
  unfold Compiler.emitPlainFunctionValue
  grind -ring -linarith

@[grind ←] theorem emitCaptures (names : List Nat) : Q.holds (emitCaptures names) := by
  induction names with
  | nil => exact h.pure ()
  | cons name names ih =>
    unfold Compiler.emitCaptures
    grind -ring -linarith

@[grind ←] theorem emitClosure (sig : FunctionSig) (captured : List Nat) :
    Q.holds (emitClosure sig captured) := by
  unfold Compiler.emitClosure
  exact h.bind (h.emitCaptures _) fun _ => h.bind (h.emitOp _) fun _ => h.bind (h.emitNat _) fun _ =>
    h.bind (h.emitNat _) fun _ => h.bind (h.emitNat _) fun _ => h.bind (h.emitNat _) fun _ =>
    h.bind (h.emitNat _) fun _ => h.bind (h.emitNat _) fun _ => h.emitWords _

@[grind ←] theorem noteExit (back : Nat) : Q.holds (noteExit back) := by
  unfold Compiler.noteExit
  grind -ring -linarith

@[grind ←] theorem emitReturn : Q.holds emitReturn := by
  unfold Compiler.emitReturn
  grind -ring -linarith

/-! Statements. -/

@[grind ←] theorem emitDiscard : Q.holds emitDiscard := by
  unfold Compiler.emitDiscard
  grind -ring -linarith

@[grind ←] theorem emitGet (step : PendingStep) : Q.holds step.emitGet := by
  cases step <;> unfold PendingStep.emitGet <;> grind -ring -linarith

@[grind ←] theorem emitSet (step : PendingStep) : Q.holds step.emitSet := by
  cases step <;> unfold PendingStep.emitSet <;> grind -ring -linarith

@[grind ←] theorem emitUnpack (i : Nat) (names : List Nat) : Q.holds (emitUnpack i names) := by
  induction names generalizing i with
  | nil => exact h.pure ()
  | cons name names ih =>
    unfold Compiler.emitUnpack
    grind -ring -linarith

@[grind ←] theorem emitTimes (o : Opcode) (n : Nat) : Q.holds (emitTimes o n) := by
  induction n with
  | zero => exact h.pure ()
  | succ n ih =>
    unfold Compiler.emitTimes
    grind -ring -linarith

@[grind ←] theorem parseContinue : Q.holds parseContinue := by
  unfold Compiler.parseContinue
  grind -ring -linarith

@[grind ←] theorem emitFields (fields : List (Nat × AerVal)) : Q.holds (emitFields fields) := by
  induction fields with
  | nil => exact h.pure ()
  | cons field fields ih =>
    unfold Compiler.emitFields
    grind -ring -linarith

@[grind ←] theorem skipLine (fuel : Nat) (stops : List TokenType) : Q.holds (skipLine fuel stops) := by
  unfold Compiler.skipLine
  refine h.loop (fun _ => h.bind (h.plain rfl) fun type => ?_) _ _
  split <;> grind -ring -linarith

@[grind ←] theorem skipOrphanedBlock (fuel : Nat) : Q.holds (skipOrphanedBlock fuel) := by
  unfold Compiler.skipOrphanedBlock
  refine h.bind (h.consume _) fun newLine => ?_
  split
  · refine h.bind (h.equal _) fun indent => ?_
    split
    · refine h.loop (fun depth => h.bind (h.equal _) fun indent => ?_) _ _
      split
      · grind -ring -linarith
      · refine h.bind (h.equal _) fun dedent => ?_
        split <;> grind -ring -linarith
    · exact h.pure ()
  · exact h.pure ()

@[grind ←] theorem parseFields (r : Parsers) : Q.holds (parseFields r) := by
  unfold Compiler.parseFields
  refine h.loop (fun fields => h.bind (h.plain rfl) fun type => ?_) _ _
  split
  · grind -ring -linarith
  · refine h.bind (h.consume _) fun newLine => ?_
    split
    · grind -ring -linarith
    · refine h.bind (h.equal _) fun name => ?_
      split
      · split
        · grind -ring -linarith
        · refine h.bind h.poolToken fun _ => h.bind h.lex fun _ => h.bind (h.consume _) fun _ => ?_
          split
          · refine h.bind h.parseLiteralDefault fun dflt => ?_
            cases dflt <;> grind -ring -linarith
          · grind -ring -linarith
      · grind -ring -linarith

@[grind ←] theorem parseTargets (r : Parsers) (first : Nat) : Q.holds (parseTargets r first) := by
  unfold Compiler.parseTargets
  grind -ring -linarith

@[grind ←] theorem parseStruct (r : Parsers) : Q.holds (parseStruct r) := by
  unfold Compiler.parseStruct
  refine h.bind (h.equal _) fun name => ?_
  split
  · refine h.bind h.poolToken fun _ => h.bind h.lex fun _ => h.bind (h.require _ _) fun _ =>
      h.bind (h.require _ _) fun _ => h.bind (h.require _ _) fun _ =>
      h.bind (h.parseFields r) fun fields => ?_
    cases fields with
    | none => exact h.pure ()
    | some fields => grind -ring -linarith
  · grind -ring -linarith

@[grind ←] theorem parseImportPath (r : Parsers) : Q.holds (parseImportPath r) := by
  unfold Compiler.parseImportPath
  grind -ring -linarith

@[grind ←] theorem parseImport (r : Parsers) : Q.holds (parseImport r) := by
  unfold Compiler.parseImport
  grind -ring -linarith

section Calls
variable {r : Parsers} (hr : Q.Calls r)
include hr

@[grind ←] theorem parseList : Q.holds (parseList r) := by
  unfold Compiler.parseList
  grind -ring -linarith

@[grind ←] theorem parseArgList : Q.holds (parseArgList r) := by
  unfold Compiler.parseArgList
  grind -ring -linarith

@[grind ←] theorem parseModuleCall : Q.holds (parseModuleCall r) := by
  unfold Compiler.parseModuleCall
  grind -ring -linarith

@[grind ←] theorem parseIndexOrSlice : Q.holds (parseIndexOrSlice r) := by
  unfold Compiler.parseIndexOrSlice
  grind -ring -linarith

@[grind ←] theorem parsePostfix : Q.holds (parsePostfix r) := by
  unfold Compiler.parsePostfix
  refine h.loop (fun _ => h.bind (h.consume _) fun bracket => ?_) _ _
  split
  · grind -ring -linarith
  · refine h.bind (h.consume _) fun paren => ?_
    split <;> grind -ring -linarith

@[grind ←] theorem parseArray : Q.holds (parseArray r) := by
  unfold Compiler.parseArray
  grind -ring -linarith

@[grind ←] theorem parseDict : Q.holds (parseDict r) := by
  unfold Compiler.parseDict
  refine h.bind (h.equal _) fun empty => ?_
  split
  · grind -ring -linarith
  · refine h.bind (h.loop (fun n => ?_) _ _) fun n => ?_ <;> grind -ring -linarith

@[grind ←] theorem parseStep : Q.holds (parseStep r) := by
  unfold Compiler.parseStep
  grind -ring -linarith

@[grind ←] theorem parseSteps : Q.holds (parseSteps r) := by
  unfold Compiler.parseSteps
  refine h.bind (h.parseStep hr) fun step => ?_
  cases step with
  | none => exact h.pure none
  | some step =>
    refine h.loop (fun step => h.bind (h.plain rfl) fun type => ?_) _ _
    split
    · refine h.bind (h.emitGet step) fun _ => h.bind (h.parseStep hr) fun step => ?_
      cases step <;> exact h.pure _
    · exact h.pure _

end Calls

end Property.Basic

end Basic

section Closed
variable {Q : Property} (h : Q.ClosedOutside)
include h

namespace Property.ClosedOutside

attribute [grind ←] Property.ClosedOutside.pipeArgs Property.ClosedOutside.nested
  Property.ClosedOutside.shortCircuit Property.ClosedOutside.ifExpr
  Property.ClosedOutside.indexedName Property.ClosedOutside.functionCode
  Property.ClosedOutside.returnStmt Property.ClosedOutside.compoundAssignment
  Property.ClosedOutside.ifStmt Property.ClosedOutside.forStmt Property.ClosedOutside.breakStmt

section Calls
variable {r : Parsers} (hr : Q.Calls r)
include hr

@[grind ←] theorem parseCallArgs (name : Nat) : Q.holds (parseCallArgs r name) := by
  have hcall := h.bareCall name
  unfold Compiler.parseCallArgs
  grind -ring -linarith

@[grind ←] theorem parsePipe : Q.holds (parsePipe r) := by
  unfold Compiler.parsePipe
  grind -ring -linarith

@[grind ←] theorem parseOperand (prec : Nat) (op : Opcode) : Q.holds (parseOperand r prec op) := by
  unfold Compiler.parseOperand
  grind -ring -linarith

@[grind ←] theorem parseBinaryOps (k : Nat) : Q.holds (parseBinaryOps r k) := by
  unfold Compiler.parseBinaryOps
  grind -ring -linarith

theorem parseBinary (k : Nat) : Q.holds (parseBinary r k) := by
  have hunary := hr.unary
  unfold Compiler.parseBinary
  grind -ring -linarith

@[grind ←] theorem parseName : Q.holds (parseName r) := by
  unfold Compiler.parseName
  grind -ring -linarith

theorem parsePrimary {functionExpr : P Unit} (hf : Q.holds functionExpr) :
    Q.holds (parsePrimary r functionExpr) := by
  unfold Compiler.parsePrimary Compiler.parsePrimaryInner
  grind -ring -linarith

theorem parseUnary {functionExpr : P Unit} (hf : Q.holds functionExpr) :
    Q.holds (parseUnary r functionExpr) := by
  have hunary := hr.unary
  have hprimary := h.parsePrimary hr hf
  unfold Compiler.parseUnary Compiler.parseUnaryInner
  grind -ring -linarith

@[grind ←] theorem parseFunctionBody : Q.holds (parseFunctionBody r) := by
  have hcode := h.functionCode hr
  unfold Compiler.parseFunctionBody
  refine h.bind (h.require _ _) fun _ => h.bind (h.parseParams r) fun l => ?_
  cases l with
  | none => exact h.pure _
  | some l =>
    exact h.bind (h.require _ _) fun _ => h.bind (h.require _ _) fun _ =>
      h.bind (hcode l.params) fun start => h.pure _

@[grind ←] theorem parseFunction : Q.holds (parseFunction r) := by
  have hbody := h.capture false (fun c => c.captureCtx) (h.parseFunctionBody hr)
  unfold Compiler.parseFunction
  refine h.bind h.context fun c => ?_
  dsimp only
  split
  on_goal 1 => refine h.bind (h.errorAt _) fun _ => ?_
  all_goals
    refine h.bind (h.equal _) fun name => ?_
    split
    · refine h.bind h.poolToken fun _ => h.bind h.lex fun _ => h.bind hbody fun sig => ?_
      grind -ring -linarith
    · grind -ring -linarith

@[grind ←] theorem parseFunctionExpr : Q.holds (parseFunctionExpr r) := by
  unfold Compiler.parseFunctionExpr
  refine h.bind h.context fun c => h.capture _ _ (h.bind (h.parseFunctionBody hr) fun sig => ?_)
  grind -ring -linarith

@[grind ←] theorem parseDefer : Q.holds (parseDefer r) := by
  unfold Compiler.parseDefer
  refine h.bind h.context fun _ => ?_
  split
  · grind -ring -linarith
  · refine h.bind (h.equal _) fun name => ?_
    split
    · refine h.bind h.poolToken fun _ => h.bind h.lex fun _ => h.bind (h.require _ _) fun _ =>
        h.bind (h.parseArgList hr) fun n => ?_
      grind -ring -linarith
    · grind -ring -linarith

@[grind ←] theorem parsePathStatement (name : Nat) : Q.holds (parsePathStatement r name) := by
  unfold Compiler.parsePathStatement
  refine h.bind (h.emitLoad name) fun _ => h.bind (h.parseSteps hr) fun step => ?_
  cases step with
  | none => exact h.pure ()
  | some step =>
    refine h.bind (h.consume _) fun assign => ?_
    split <;> grind -ring -linarith

@[grind ←] theorem parseDestructuring (first : Nat) : Q.holds (parseDestructuring r first) := by
  unfold Compiler.parseDestructuring
  refine h.bind (h.parseTargets r first) fun names => ?_
  cases names with
  | none => exact h.pure ()
  | some names => grind -ring -linarith

@[grind ←] theorem parseAssignment : Q.holds (parseAssignment r) := by
  unfold Compiler.parseAssignment
  grind -ring -linarith

theorem parseStatement : Q.holds (parseStatement r) := by
  unfold Compiler.parseStatement
  grind -ring -linarith

end Calls

/-- The property holds of the whole parser. -/
theorem parsers (n : Nat) : Q.Calls (parsers n) := by
  induction n with
  | zero => exact ⟨⟨0, rfl⟩, h.stuck, fun _ => h.stuck, h.stuck⟩
  | succ n ih =>
    exact ⟨⟨n + 1, rfl⟩, h.parseStatement ih, h.parseBinary ih, h.parseUnary ih (h.parseFunctionExpr ih)⟩

end Property.ClosedOutside

end Closed

theorem Property.Closed.parsers {Q : Property} (h : Q.Closed) (n : Nat) :
    Q.Calls (Compiler.parsers n) :=
  h.outside.parsers n

end Aer.Compiler
