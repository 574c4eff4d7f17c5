import Aer.Compiler.Guarded
import Aer.Compiler.Traversal

set_option linter.all false

/-! The context of the parser before and after a statement. -/
namespace Aer.Compiler

open Aer.Data Aer.Memory Aer.Machine Aer.Lib.Interaction

/-- The context after a piece of a program against the one before it. The names that a
closure's body uses are recorded as they come; `le` relates the loop depths. -/
structure Context.Keeps (le : Nat → Nat → Prop) (c d : Context) : Prop where
  loopDepth : le c.loopDepth d.loopDepth
  loopFloor : d.loopFloor = c.loopFloor
  compileScopeDepth : d.compileScopeDepth = c.compileScopeDepth
  functionDepth : d.functionDepth = c.functionDepth
  exprDepth : d.exprDepth = c.exprDepth
  capturing : d.capturing = c.capturing
  localNames : c.captureCtx.localNames <+: d.captureCtx.localNames
  capturedNames : c.captureCtx.capturedNames <+: d.captureCtx.capturedNames
  pipeForbidCalls : d.pipeForbidCalls = c.pipeForbidCalls
  currentParams : d.currentParams = c.currentParams

/-- The context a statement leaves is the one it has found. -/
abbrev Context.Balanced : Context → Context → Prop := Context.Keeps (· = ·)

/-- The context of a new loop. -/
def openLoop (i : Nat) (c : Context) : Context :=
  { c.setLoop i
      { c.loopStack i with patches := [], scopeDepth := c.compileScopeDepth, iterSlots := 0 } with
    loopDepth := i + 1 }

/-- Whether the header of loop `i`, behind `for`, begins with a name and no `in`, and then
fails behind the name: that is where the parser gives the loop up without leaving it. -/
def leftOpen (r : Parsers) (i : Nat) : P Bool := do
  if ← equal .isIn then return false
  else if ← equal .identifier then
    let name ← poolToken
    lex
    match ← parseSecondName with
    | none => return false
    | some _ =>
        if ← consume .isIn then return false
        else
          let top ← count
          modifyLoop i fun l => { l with top := top }
          emitLoad name
          return !(← parsePostfix r)
  else return false

/-- The rest of a loop, once it is open. -/
def forLoop (r : Parsers) (i : Nat) : P Unit := do
  if ← equal .isIn then
    failLoop "Expected loop variable name before 'in'; use 'for x in collection:'"
  else if ← equal .identifier then
    let name1 ← poolToken
    lex
    match ← parseSecondName with
    | none => return
    | some name2 =>
        if ← consume .isIn then parseForIn r i name1 name2
        else parseWhileName r i name1
  else
    let top ← count
    modifyLoop i fun l => { l with top := top }
    r.binary 0
    parseWhileBody r i

theorem parseFor_eq (r : Parsers) : parseFor r = (do
    let i := (← context).loopDepth
    if loopMax ≤ i then errorAt "Too many nested loops"
    else
      modify (openLoop i)
      forLoop r i) := rfl

namespace Context.Keeps

variable {le : Nat → Nat → Prop} {c d e : Context}

theorem refl (hrefl : ∀ n, le n n) (c : Context) : c.Keeps le c :=
  ⟨hrefl _, rfl, rfl, rfl, rfl, rfl, List.prefix_rfl, List.prefix_rfl, rfl, rfl⟩

theorem trans (htrans : ∀ l m n, le l m → le m n → le l n) (h : c.Keeps le d) (h' : d.Keeps le e) :
    c.Keeps le e where
  loopDepth := htrans _ _ _ h.loopDepth h'.loopDepth
  loopFloor := h'.loopFloor.trans h.loopFloor
  compileScopeDepth := h'.compileScopeDepth.trans h.compileScopeDepth
  functionDepth := h'.functionDepth.trans h.functionDepth
  exprDepth := h'.exprDepth.trans h.exprDepth
  capturing := h'.capturing.trans h.capturing
  localNames := h.localNames.trans h'.localNames
  capturedNames := h.capturedNames.trans h'.capturedNames
  pipeForbidCalls := h'.pipeForbidCalls.trans h.pipeForbidCalls
  currentParams := h'.currentParams.trans h.currentParams

end Context.Keeps

/-- What the traversal has to know of the operations and of a header that fails. -/
structure Basis (exec : Exec Op Op.Ans Parser Stop) (le : Nat → Nat → Prop) : Prop where
  refl : ∀ n, le n n
  trans : ∀ l m n, le l m → le m n → le l n
  leave : ∀ m n, le (m + 1) n → 0 < n ∧ le m (n - 1)
  other : ∀ {o s a t}, (∀ f, o ≠ .modify f) → exec o s = .done a t → s.ctx.Keeps le t.ctx
  modify : ∀ {f s a t}, exec (.modify f) s = .done a t → t.ctx = f s.ctx
  context : ∀ {s a t}, exec .context s = .done a t → a = s.ctx ∧ t = s
  headerLeft : ∀ {n i s a t u}, exec (.modify (openLoop i)) s = .done a t →
    (leftOpen (parsers n) i).run exec t = .done true u → le i (i + 1)

/-- The context once the loop compiled innermost is left. -/
def Context.leaveLoop (c : Context) : Context := { c with loopDepth := c.loopDepth - 1 }

/-- Programs that keep the context. -/
def keeping (exec : Exec Op Op.Ans Parser Stop) (le : Nat → Nat → Prop) : Property :=
  .related exec fun s t => s.ctx.Keeps le t.ctx

namespace Basis

variable {exec : Exec Op Op.Ans Parser Stop} {le : Nat → Nat → Prop} (b : Basis exec le)
include b

theorem op {o : Op} (ho : ∀ f, o ≠ .modify f) : (keeping exec le).holds (perform o) := by
  intro s a t h
  exact b.other ho ((run_perform _ _ _).symm.trans h)

/-- A change that the relation allows. -/
theorem change {f : Context → Context} (hf : ∀ c : Context, c.Keeps le (f c)) :
    (keeping exec le).holds (Compiler.modify f) := by
  intro s a t h
  have hctx : t.ctx = f s.ctx := b.modify ((run_perform _ _ _).symm.trans h)
  exact hctx ▸ hf s.ctx

theorem basic : (keeping exec le).Basic where
  pure := related_pure fun s => .refl b.refl s.ctx
  bind := related_bind fun _ _ _ => .trans b.trans
  plain {o} ho := b.op fun f he => by
    subst he
    cases ho
  importFile name path := b.op (by simp)
  addLocal name := b.change fun c => by
    unfold Context.captureAddLocal
    split
    · exact ⟨b.refl _, rfl, rfl, rfl, rfl, rfl, List.prefix_append _ _, List.prefix_rfl, rfl, rfl⟩
    · exact .refl b.refl c
  addCaptured name := b.change fun c =>
    ⟨b.refl _, rfl, rfl, rfl, rfl, rfl, List.prefix_rfl, List.prefix_append _ _, rfl, rfl⟩
  addOuterLocal name := b.change fun c => by
    unfold Context.outerLocalsAdd
    split <;> exact ⟨b.refl _, rfl, rfl, rfl, rfl, rfl, List.prefix_rfl, List.prefix_rfl, rfl, rfl⟩

theorem run_modify {f : Context → Context} {s t : Parser} {a : Unit}
    (h : (Compiler.modify f).run exec s = .done a t) : t.ctx = f s.ctx :=
  b.modify ((run_perform _ _ _).symm.trans h)

theorem run_context {s t : Parser} {c : Context} (h : Compiler.context.run exec s = .done c t) :
    c = s.ctx ∧ t = s :=
  b.context ((run_perform _ _ _).symm.trans h)

/-- A change of the context that is undone behind the program. -/
theorem bracket {α β : Type} (change : Context → Context → Context)
    (undo : Context → α → Context → Context) {p : P α} {f : Context → α → P β}
    (hp : (keeping exec le).holds p) (hf : ∀ c a, (keeping exec le).holds (f c a))
    (hundo : ∀ c d a, (change c c).Keeps le d → c.Keeps le (undo c a d)) :
    (keeping exec le).holds (do
      let c ← Compiler.context
      Compiler.modify (change c)
      let a ← p
      Compiler.modify (undo c a)
      f c a) := by
  intro s r t h
  obtain ⟨c, s₁, hc, h⟩ := run_bind_done.mp h
  obtain ⟨rfl, rfl⟩ := b.run_context hc
  obtain ⟨_, s₂, hchange, h⟩ := run_bind_done.mp h
  obtain ⟨a, s₃, hp', h⟩ := run_bind_done.mp h
  obtain ⟨_, s₄, hundone, h⟩ := run_bind_done.mp h
  have hkept : s₂.ctx.Keeps le s₃.ctx := hp s₂ a s₃ hp'
  rw [b.run_modify hchange] at hkept
  have hback := hundo _ _ a hkept
  rw [← b.run_modify hundone] at hback
  exact hback.trans b.trans (hf _ a s₄ r t h)

/-! The blocks that keep the context. -/

theorem bareCall (name n : Nat) : (keeping exec le).holds (do
    emitCall name n
    let stop ← count
    Compiler.modify fun c => { c with lastBareCallEnd := some stop }) :=
  b.basic.bind (b.basic.emitCall name n) fun _ => b.basic.bind b.basic.count fun _ =>
    b.change fun _ => ⟨b.refl _, rfl, rfl, rfl, rfl, rfl, List.prefix_rfl, List.prefix_rfl, rfl, rfl⟩

theorem pipeArgs {r : Parsers} {emitTarget : Nat → P Unit} (hr : (keeping exec le).Calls r)
    (htarget : ∀ n, (keeping exec le).holds (emitTarget n)) :
    (keeping exec le).holds (parsePipeArgs r emitTarget) := by
  have hb := b.basic
  refine b.bracket (fun _ c => { c with pipeForbidCalls := true })
    (fun c _ d => { d with pipeForbidCalls := c.pipeForbidCalls })
    (f := fun c n => if c.pipeForbidCalls then do
        errorAt nestedCall
        return false
      else do
        emitTarget (n + 1)
        return true)
    (hb.parseArgList hr) (fun c n => ?_) fun c d _ hk => ?_
  · grind -ring -linarith
  · exact ⟨hk.loopDepth, hk.loopFloor, hk.compileScopeDepth, hk.functionDepth, hk.exprDepth,
      hk.capturing, hk.localNames, hk.capturedNames, rfl, hk.currentParams⟩

theorem nested {p : P Unit} (hp : (keeping exec le).holds p) :
    (keeping exec le).holds (Compiler.nested p) := by
  intro s _ t h
  obtain ⟨entered, s₁, henter, h⟩ := run_bind_done.mp h
  obtain ⟨c, s₂, hc, henter⟩ := run_bind_done.mp henter
  obtain ⟨rfl, rfl⟩ := b.run_context hc
  split at henter
  · obtain ⟨_, s₃, herror, henter⟩ := run_bind_done.mp henter
    cases henter
    cases h
    exact b.basic.errorAt _ _ _ _ herror
  · obtain ⟨_, s₃, hmodify, henter⟩ := run_bind_done.mp henter
    cases henter
    obtain ⟨_, s₄, hrun, h⟩ := run_bind_done.mp h
    have hk : s₁.ctx.Keeps le s₄.ctx := hp _ _ _ hrun
    rw [b.run_modify hmodify] at hk
    rw [b.run_modify h]
    exact ⟨hk.loopDepth, hk.loopFloor, hk.compileScopeDepth, hk.functionDepth,
      congrArg (· - 1) hk.exprDepth, hk.capturing, hk.localNames, hk.capturedNames,
      hk.pipeForbidCalls, hk.currentParams⟩

@[grind ←] theorem patchHere (i : Nat) : (keeping exec le).holds (Compiler.patchHere i) :=
  b.basic.bind b.basic.count fun _ => b.op (by simp)

@[grind ←] theorem reemit (start : Nat) (ws : List Int) :
    (keeping exec le).holds (Compiler.reemit start ws) :=
  b.basic.bind (b.basic.plain rfl) fun _ => b.basic.bind (b.op (by simp)) fun _ =>
    b.basic.emitWords ws

theorem recover (fuel : Nat) (stops : List TokenType) (saved marks : Nat) :
    (keeping exec le).holds (Compiler.recover fuel stops saved marks) := by
  have hb := b.basic
  unfold Compiler.recover
  refine hb.bind (b.op (by simp)) fun _ => ?_
  grind -ring -linarith

theorem parseLine {p : P Unit} (hp : (keeping exec le).holds p) :
    (keeping exec le).holds (Compiler.parseLine p) :=
  b.basic.bind (b.op (by simp)) fun _ => b.basic.bind b.basic.count fun _ =>
    b.basic.bind (b.basic.plain rfl) fun _ => b.basic.bind (b.op (by simp)) fun _ =>
    b.basic.bind hp fun _ => b.basic.pure _

/-- The note that a block has been left behind is no part of the relation. -/
theorem noteBoundary (boundary : Bool) : (keeping exec le).holds
    (Compiler.modify fun c => { c with recoveredAtBoundary := boundary }) :=
  b.change fun _ => ⟨b.refl _, rfl, rfl, rfl, rfl, rfl, List.prefix_rfl, List.prefix_rfl, rfl, rfl⟩

theorem compound {r : Parsers} (hr : (keeping exec le).Calls r) :
    (keeping exec le).holds (parseCompound r) := by
  have hb := b.basic
  have hline := b.parseLine hr.statement
  have hrecover := b.recover r.fuel [.else]
  have hboundary := b.noteBoundary true
  unfold parseCompound
  refine hb.bind (hb.require _ _) fun _ => hb.bind (hb.require _ _) fun _ =>
    hb.bind (hb.loop (fun _ => hb.bind (hb.plain rfl) fun type => ?_) _ _) fun _ =>
    hb.bind (hb.consume _) fun _ => hboundary
  split
  · exact hb.pure _
  · refine hb.bind (hb.consume _) fun newLine => ?_
    split
    · exact hb.pure _
    · refine hb.bind hline fun saved => hb.bind (hb.plain rfl) fun failed => ?_
      split
      · exact hb.bind (hrecover _ _) fun _ => hb.pure _
      · exact hb.pure _

theorem scopedBlock {r : Parsers} (hc : (keeping exec le).holds (parseCompound r)) :
    (keeping exec le).holds (parseScopedCompound r) := by
  intro s a t h
  obtain ⟨_, s₁, hdeeper, h⟩ := run_bind_done.mp h
  obtain ⟨_, s₂, hpush, h⟩ := run_bind_done.mp h
  obtain ⟨_, s₃, hblock, h⟩ := run_bind_done.mp h
  obtain ⟨_, s₄, hpop, h⟩ := run_bind_done.mp h
  have hk : s₁.ctx.Keeps le s₄.ctx :=
    (b.basic.emitOp _ _ _ _ hpush).trans b.trans ((hc _ _ _ hblock).trans b.trans
      (b.basic.emitOp _ _ _ _ hpop))
  rw [b.run_modify hdeeper] at hk
  rw [b.run_modify h]
  exact ⟨hk.loopDepth, hk.loopFloor, congrArg (· - 1) hk.compileScopeDepth, hk.functionDepth,
    hk.exprDepth, hk.capturing, hk.localNames, hk.capturedNames, hk.pipeForbidCalls,
    hk.currentParams⟩

/-- The parameters of a function are recorded, besides what `Keeps` allows. -/
theorem defineParams {names : List Nat} {s t : Parser}
    (h : (emitDefineParams names).run exec s = .done () t) :
    ({ s.ctx with currentParams := [] }).Keeps le { t.ctx with currentParams := [] } := by
  induction names generalizing s with
  | nil =>
    cases h
    exact .refl b.refl _
  | cons name names ih =>
    obtain ⟨_, s₁, hparam, h⟩ := run_bind_done.mp h
    refine .trans b.trans ?_ (ih h)
    have hb := b.basic
    obtain ⟨_, s₂, hregister, hparam⟩ := run_bind_done.mp hparam
    obtain ⟨c, s₃, hc, hparam⟩ := run_bind_done.mp hparam
    obtain ⟨rfl, rfl⟩ := b.run_context hc
    have hk : s.ctx.Keeps le s₃.ctx := hb.registerLocal name _ _ _ hregister
    have hclear : ∀ {c d : Context}, c.Keeps le d →
        ({ c with currentParams := [] }).Keeps le { d with currentParams := [] } := fun hk =>
      ⟨hk.loopDepth, hk.loopFloor, hk.compileScopeDepth, hk.functionDepth, hk.exprDepth, hk.capturing,
        hk.localNames, hk.capturedNames, hk.pipeForbidCalls, rfl⟩
    have htail : ∀ {u : Parser} {slot : Nat}, (do
        emitOp .defineLocal
        emitNat slot
        emitNat name : P Unit).run exec u = .done () s₁ → u.ctx.Keeps le s₁.ctx :=
      fun {u slot} hu => (hb.bind (hb.emitOp _) fun _ => hb.bind (hb.emitNat slot) fun _ =>
        hb.emitNat name) u () s₁ hu
    refine (hclear hk).trans b.trans ?_
    dsimp only at hparam
    split at hparam
    · obtain ⟨_, s₄, hadd, hparam⟩ := run_bind_done.mp hparam
      have hk := hclear (htail hparam)
      rw [b.run_modify hadd] at hk
      exact hk
    · exact hclear (htail hparam)

/-- The part of a function's code that is compiled with its own context. -/
theorem functionScope {r : Parsers} (hc : (keeping exec le).holds (parseCompound r))
    (params : List Nat) (patch start : Nat) : (keeping exec le).holds (do
      let saved ← Compiler.context
      Compiler.modify fun c =>
        { c with
          loopFloor := c.loopDepth
          functionDepth := c.functionDepth + 1
          currentParams := []
          compileScopeDepth := c.compileScopeDepth + 1 }
      emitOp .pushScope
      emitDefineParams params.reverse
      parseCompound r
      Compiler.modify fun c => { c with compileScopeDepth := c.compileScopeDepth - 1 }
      emitPush .null
      emitReturn
      Compiler.modify fun c =>
        { c with
          currentParams := saved.currentParams
          functionDepth := c.functionDepth - 1
          loopDepth := saved.loopDepth
          loopFloor := saved.loopFloor }
      Compiler.patchHere patch
      return start) := by
  have hb := b.basic
  intro s a t h
  obtain ⟨c, s₁, hctx, h⟩ := run_bind_done.mp h
  obtain ⟨hc', hs'⟩ := b.run_context hctx
  subst hc' hs'
  obtain ⟨_, s₂, henter, h⟩ := run_bind_done.mp h
  obtain ⟨_, s₃, hpush, h⟩ := run_bind_done.mp h
  obtain ⟨_, s₄, hparams, h⟩ := run_bind_done.mp h
  obtain ⟨_, s₅, hblock, h⟩ := run_bind_done.mp h
  obtain ⟨_, s₆, hscope, h⟩ := run_bind_done.mp h
  obtain ⟨_, s₇, hnull, h⟩ := run_bind_done.mp h
  obtain ⟨_, s₈, hret, h⟩ := run_bind_done.mp h
  obtain ⟨_, s₉, hleave, h⟩ := run_bind_done.mp h
  have henter := b.run_modify henter
  have hscope := b.run_modify hscope
  have hleave := b.run_modify hleave
  have hpush : s₂.ctx.Keeps le s₃.ctx := hb.emitOp _ _ _ _ hpush
  have hparams := b.defineParams hparams
  have hblock : s₄.ctx.Keeps le s₅.ctx := hc _ _ _ hblock
  have hend : s₆.ctx.Keeps le s₈.ctx :=
    .trans b.trans (hb.emitPush _ _ _ _ hnull) (hb.emitReturn _ _ _ hret)
  have hlast : s₉.ctx.Keeps le t.ctx :=
    (hb.bind (b.patchHere patch) fun _ => hb.pure start) _ _ _ h
  refine .trans b.trans ?_ hlast
  rw [henter] at hpush
  rw [hscope] at hend
  rw [hleave]
  exact
    { loopDepth := b.refl _
      loopFloor := rfl
      compileScopeDepth := by
        rw [hend.compileScopeDepth, hblock.compileScopeDepth]
        exact congrArg (· - 1) (hparams.compileScopeDepth.trans hpush.compileScopeDepth)
      functionDepth := by
        change s₈.ctx.functionDepth - 1 = _
        rw [hend.functionDepth]
        change s₅.ctx.functionDepth - 1 = _
        rw [hblock.functionDepth]
        exact congrArg (· - 1) (hparams.functionDepth.trans hpush.functionDepth)
      exprDepth := hend.exprDepth.trans (hblock.exprDepth.trans (hparams.exprDepth.trans hpush.exprDepth))
      capturing := hend.capturing.trans (hblock.capturing.trans (hparams.capturing.trans hpush.capturing))
      localNames :=
        (hpush.localNames.trans hparams.localNames).trans (hblock.localNames.trans hend.localNames)
      capturedNames := (hpush.capturedNames.trans hparams.capturedNames).trans
        (hblock.capturedNames.trans hend.capturedNames)
      pipeForbidCalls := hend.pipeForbidCalls.trans (hblock.pipeForbidCalls.trans
        (hparams.pipeForbidCalls.trans hpush.pipeForbidCalls))
      currentParams := rfl }

theorem functionCode {r : Parsers} (hc : (keeping exec le).holds (parseCompound r))
    (params : List Nat) : (keeping exec le).holds (parseFunctionCode r params) := by
  have hb := b.basic
  have hscope := b.functionScope hc params
  refine hb.bind (hb.emitJump _) fun patch => hb.bind hb.count fun start => hb.bind hb.context fun c => ?_
  split
  · exact hb.bind (b.change fun c => ⟨b.refl _, rfl, rfl, rfl, rfl, rfl, List.prefix_rfl,
      List.prefix_rfl, rfl, rfl⟩) fun _ => hscope patch start
  · exact hscope patch start

theorem capture {α : Type} {p : P α} (capturing : Bool) (ctx : Context → CaptureCtx)
    (hp : (keeping exec le).holds p) : (keeping exec le).holds
      (withCapture (fun c => { c with capturing, captureCtx := ctx c }) p) := by
  refine b.bracket (fun _ c => { c with capturing, captureCtx := ctx c })
    (fun c _ d => { d with capturing := c.capturing, captureCtx := c.captureCtx })
    (f := fun _ a => Pure.pure a) hp (fun _ a => b.basic.pure a) fun c d _ hk => ?_
  exact ⟨hk.loopDepth, hk.loopFloor, hk.compileScopeDepth, hk.functionDepth, hk.exprDepth, rfl,
    List.prefix_rfl, List.prefix_rfl, hk.pipeForbidCalls, hk.currentParams⟩

theorem shortCircuit {r : Parsers} (hr : (keeping exec le).Calls r) (branch : Opcode) (decided : Bool)
    (prec : Nat) : (keeping exec le).holds (parseShortCircuit r branch decided prec) := by
  have hb := b.basic
  exact hb.bind (hb.emitJump _) fun lhs => hb.bind (hr.binary prec) fun _ =>
    hb.bind (hb.emitJump _) fun rhs => hb.bind (hb.emitPush _) fun _ =>
    hb.bind (hb.emitJump _) fun stop => hb.bind (b.patchHere lhs) fun _ =>
    hb.bind (b.patchHere rhs) fun _ => hb.bind (hb.emitPush _) fun _ =>
    hb.bind (b.patchHere stop) fun _ => hb.pure true

theorem ifExpr {r : Parsers} (hr : (keeping exec le).Calls r) :
    (keeping exec le).holds (parseIfExpr r) := by
  have hb := b.basic
  refine hb.bind (hr.binary 0) fun _ => hb.bind (hb.require _ _) fun _ =>
    hb.bind (hb.emitJump _) fun jif => hb.bind (hr.binary 0) fun _ =>
    hb.bind (hb.emitJump _) fun jmp => hb.bind (b.patchHere jif) fun _ =>
    hb.bind (hb.consume _) fun hasElse => ?_
  split
  · exact hb.bind (hb.require _ _) fun _ => hb.bind (hr.binary 0) fun _ => b.patchHere jmp
  · exact hb.bind (hb.emitPush _) fun _ => b.patchHere jmp

theorem indexedName {r : Parsers} (hr : (keeping exec le).Calls r) (name : Nat) :
    (keeping exec le).holds (parseIndexedName r name) := by
  have hb := b.basic
  refine hb.bind hb.count fun start => hb.bind (hb.emitLoad name) fun _ => hb.bind hb.count fun _ =>
    hb.bind (hb.parseIndexOrSlice hr) fun _ => hb.bind hb.count fun _ =>
    hb.bind (hb.plain rfl) fun last => ?_
  split
  · refine hb.bind (hb.plain rfl) fun _ => hb.bind (hb.plain rfl) fun _ => ?_
    dsimp only
    split
    · exact b.reemit start _
    · exact hb.pure _
  · exact hb.pure _

theorem compoundAssignment {r : Parsers} (hr : (keeping exec le).Calls r) (name : Nat) (op : Opcode) :
    (keeping exec le).holds (parseCompoundAssignment r name op) := by
  have hb := b.basic
  refine hb.bind hb.count fun start => hb.bind (hb.emitLoad name) fun _ => hb.bind hb.count fun _ =>
    hb.bind (hr.binary 0) fun _ => hb.bind hb.count fun _ => hb.bind (hb.plain rfl) fun _ =>
    hb.bind (hb.plain rfl) fun _ => ?_
  dsimp only
  split
  · exact b.reemit start _
  · exact hb.bind (hb.emitOp _) fun _ => hb.emitStore name

theorem returnStmt {r : Parsers} (hr : (keeping exec le).Calls r) :
    (keeping exec le).holds (parseReturn r) := by
  have hb := b.basic
  refine hb.bind hb.context fun c => ?_
  split
  · exact hb.errorAt _
  · refine hb.bind (hb.plain rfl) fun type => ?_
    split
    · exact hb.bind (hb.emitPush _) fun _ => hb.emitReturn
    · refine hb.bind (hb.parseList hr) fun n => ?_
      split
      · exact hb.bind (hb.emitOp _) fun _ => hb.bind (hb.emitNat _) fun _ => hb.emitReturn
      · refine hb.bind hb.count fun stop => hb.bind hb.context fun c => ?_
        split
        · exact hb.bind (hb.noteExit _) fun _ => hb.bind (b.op (by simp)) fun _ => hb.emitReturn
        · exact hb.emitReturn

theorem ifStmt {r : Parsers} (hr : (keeping exec le).Calls r)
    (hblock : (keeping exec le).holds (parseScopedCompound r)) :
    (keeping exec le).holds (parseIf r) := by
  have hb := b.basic
  refine hb.bind (hr.binary 0) fun _ => hb.bind (hb.require _ _) fun _ =>
    hb.bind (hb.emitJump _) fun jif => hb.bind hblock fun _ => hb.bind (hb.consume _) fun hasElse => ?_
  split
  · exact hb.bind (b.noteBoundary false) fun _ => hb.bind (hb.require _ _) fun _ =>
      hb.bind (hb.emitJump _) fun jmp => hb.bind (b.patchHere jif) fun _ => hb.bind hblock fun _ =>
      b.patchHere jmp
  · exact b.patchHere jif

/-! Loops. -/

/-- A program that leaves the loop compiled innermost, and else keeps the context. -/
def Closes {α : Type} (_ : Basis exec le) (p : P α) : Prop :=
  ∀ s a t, p.run exec s = .done a t → 0 < s.ctx.loopDepth → s.ctx.leaveLoop.Keeps le t.ctx

/-- A change of a loop's own context. -/
theorem modifyLoop (i : Nat) (f : LoopContext → LoopContext) :
    (keeping exec le).holds (Compiler.modifyLoop i f) :=
  b.change fun _ => ⟨b.refl _, rfl, rfl, rfl, rfl, rfl, List.prefix_rfl, List.prefix_rfl, rfl, rfl⟩

theorem left {c d : Context} (h : c.Keeps le d) (hpos : 0 < c.loopDepth) :
    0 < d.loopDepth ∧ c.leaveLoop.Keeps le d.leaveLoop := by
  obtain ⟨m, hm⟩ := Nat.exists_eq_succ_of_ne_zero hpos.ne'
  have hdepth := h.loopDepth
  rw [hm] at hdepth
  obtain ⟨hpos', hleave⟩ := b.leave m _ hdepth
  refine ⟨hpos', ?_, h.loopFloor, h.compileScopeDepth, h.functionDepth, h.exprDepth, h.capturing,
    h.localNames, h.capturedNames, h.pipeForbidCalls, h.currentParams⟩
  change le (c.loopDepth - 1) (d.loopDepth - 1)
  rw [hm]
  exact hleave

theorem closes_bind {α β : Type} {p : P α} {f : α → P β} (hp : (keeping exec le).holds p)
    (hf : ∀ a, b.Closes (f a)) : b.Closes (p >>= f) := by
  intro s r t h hpos
  obtain ⟨a, u, hu, h⟩ := run_bind_done.mp h
  obtain ⟨hpos', hleft⟩ := b.left (hp s a u hu) hpos
  exact hleft.trans b.trans (hf a u r t h hpos')

theorem closes_leaveLoop : b.Closes leaveLoop := by
  intro s a t h _
  rw [b.run_modify h]
  exact .refl b.refl _

theorem closes_failLoop (msg : String) : b.Closes (failLoop msg) :=
  b.closes_bind (b.basic.errorAt msg) fun _ => b.closes_leaveLoop

theorem patchAll (target : Nat) (is : List Nat) :
    (keeping exec le).holds (Compiler.patchAll target is) := by
  induction is with
  | nil => exact b.basic.pure ()
  | cons i is ih => exact b.basic.bind (b.op (by simp)) fun _ => ih

theorem closes_finishLoop (i patchExit : Nat) : b.Closes (finishLoop i patchExit) := by
  have hb := b.basic
  exact b.closes_bind (hb.emitOp _) fun _ => b.closes_bind hb.context fun _ =>
    b.closes_bind (hb.emitNat _) fun _ => b.closes_bind (b.patchHere _) fun _ =>
    b.closes_bind hb.count fun _ => b.closes_bind hb.context fun _ =>
    b.closes_bind (b.patchAll _ _) fun _ => b.closes_leaveLoop

/-- A part of a loop's header: it has left the loop if it answers that it has failed. -/
def ClosesOnFailure {α : Type} (_ : Basis exec le) (p : P (Option α)) : Prop :=
  ∀ s o t, p.run exec s = .done o t → 0 < s.ctx.loopDepth →
    (if o.isSome then s.ctx else s.ctx.leaveLoop).Keeps le t.ctx

theorem closesOnFailure_bind {α β : Type} {p : P α} {f : α → P (Option β)}
    (hp : (keeping exec le).holds p) (hf : ∀ a, b.ClosesOnFailure (f a)) :
    b.ClosesOnFailure (p >>= f) := by
  intro s o t h hpos
  obtain ⟨a, u, hu, h⟩ := run_bind_done.mp h
  have hk : s.ctx.Keeps le u.ctx := hp s a u hu
  obtain ⟨hpos', hleft⟩ := b.left hk hpos
  refine .trans b.trans ?_ (hf a u o t h hpos')
  split
  · exact hk
  · exact hleft

theorem closesOnFailure_fail {α : Type} (msg : String) : b.ClosesOnFailure (do
    failLoop msg
    return (none : Option α)) := by
  intro s o t h hpos
  obtain ⟨_, u, hu, h⟩ := run_bind_done.mp h
  cases h
  exact b.closes_failLoop msg s _ t hu hpos

theorem closesOnFailure_some {α : Type} (a : α) : b.ClosesOnFailure (Pure.pure (some a)) := by
  intro s o t h hpos
  cases h
  exact .refl b.refl _

/-- What comes behind a part of a header. -/
theorem closes_of_part {α β : Type} {p : P (Option α)} {f : Option α → P β}
    (hp : b.ClosesOnFailure p) (hnone : (keeping exec le).holds (f none))
    (hsome : ∀ a, b.Closes (f (some a))) : b.Closes (p >>= f) := by
  intro s r t h hpos
  obtain ⟨o, u, hu, h⟩ := run_bind_done.mp h
  have hk := hp s o u hu hpos
  cases o with
  | none => exact hk.trans b.trans (hnone u r t h)
  | some a =>
    obtain ⟨hpos', hleft⟩ := b.left hk hpos
    exact hleft.trans b.trans (hsome a u r t h hpos')

theorem closesOnFailure_parseSecondName : b.ClosesOnFailure parseSecondName := by
  have hb := b.basic
  refine b.closesOnFailure_bind (hb.consume _) fun comma => ?_
  split
  · refine b.closesOnFailure_bind (hb.equal _) fun name => ?_
    split
    · exact b.closesOnFailure_bind hb.poolToken fun _ => b.closesOnFailure_bind hb.lex fun _ =>
        b.closesOnFailure_some _
    · exact b.closesOnFailure_fail _
  · exact b.closesOnFailure_some _

omit b in
theorem carry (b : Basis exec le) {s t u : Parser} {A A' : Prop} (hk : s.ctx.Keeps le u.ctx)
    (hpos : 0 < s.ctx.loopDepth)
    (h : 0 < u.ctx.loopDepth → u.ctx.leaveLoop.Keeps le t.ctx ∨ (A ∧ u.ctx.Keeps le t.ctx))
    (hA : A → A') : s.ctx.leaveLoop.Keeps le t.ctx ∨ (A' ∧ s.ctx.Keeps le t.ctx) := by
  obtain ⟨hpos', hleft⟩ := b.left hk hpos
  rcases h hpos' with h | ⟨ha, h⟩
  · exact .inl (hleft.trans b.trans h)
  · exact .inr ⟨hA ha, hk.trans b.trans h⟩

section Body
variable {r : Parsers} (hr : (keeping exec le).Calls r)
include hr

theorem closesOnFailure_parseIterator (isPair : Bool) : b.ClosesOnFailure (parseIterator r isPair) := by
  have hb := b.basic
  refine b.closesOnFailure_bind (hr.binary 0) fun _ => b.closesOnFailure_bind (hb.consume _) fun range => ?_
  split
  · split
    · exact b.closesOnFailure_fail _
    · refine b.closesOnFailure_bind (hr.binary 0) fun _ =>
        b.closesOnFailure_bind (hb.consume _) fun step => ?_
      split
      · exact b.closesOnFailure_bind (hr.binary 0) fun _ => b.closesOnFailure_some 3
      · exact b.closesOnFailure_bind (hb.plain rfl) fun _ =>
          b.closesOnFailure_bind (hb.emitPush _) fun _ => b.closesOnFailure_some 3
  · exact b.closesOnFailure_bind (hb.plain rfl) fun _ =>
      b.closesOnFailure_bind (hb.emitPush _) fun _ => b.closesOnFailure_some 2

theorem closes_parseForIn (hblock : (keeping exec le).holds (parseScopedCompound r)) (i name1 : Nat)
    (name2 : Option Nat) : b.Closes (parseForIn r i name1 name2) := by
  have hb := b.basic
  refine b.closes_of_part (b.closesOnFailure_parseIterator hr _) (hb.pure ()) fun slots =>
    b.closes_bind (hb.require _ _) fun _ => b.closes_bind (hb.plain rfl) fun failed => ?_
  split
  · exact b.closes_leaveLoop
  · refine b.closes_bind hb.count fun top => b.closes_bind (b.modifyLoop _ _) fun _ =>
      b.closes_bind (hb.emitJump _) fun patchExit => ?_
    have hbody : b.Closes (do
        parseScopedCompound r
        finishLoop i patchExit) := b.closes_bind hblock fun _ => b.closes_finishLoop _ _
    cases name2 with
    | none => exact b.closes_bind (hb.emitDefine _) fun _ => hbody
    | some name2 =>
      exact b.closes_bind (hb.emitDefine _) fun _ => b.closes_bind (hb.emitDefine _) fun _ => hbody

theorem closes_parseWhileBody (hblock : (keeping exec le).holds (parseCompound r)) (i : Nat) :
    b.Closes (parseWhileBody r i) := by
  have hb := b.basic
  refine b.closes_bind (hb.require _ _) fun _ => b.closes_bind (hb.plain rfl) fun failed => ?_
  split
  · exact b.closes_leaveLoop
  · exact b.closes_bind (hb.emitJump _) fun patchExit => b.closes_bind hblock fun _ =>
      b.closes_finishLoop _ _

/-- A loop is left, unless its header fails behind a name. -/
theorem run_forLoop (hops : ∀ k, (keeping exec le).holds (parseBinaryOps r k))
    (hblock : (keeping exec le).holds (parseCompound r))
    (hscoped : (keeping exec le).holds (parseScopedCompound r)) {i : Nat} {s t : Parser}
    (h : (forLoop r i).run exec s = .done () t) (hpos : 0 < s.ctx.loopDepth) :
    s.ctx.leaveLoop.Keeps le t.ctx ∨
      ((leftOpen r i).run exec s = .done true t ∧ s.ctx.Keeps le t.ctx) := by
  have hb := b.basic
  obtain ⟨isIn, s₁, h₁, h⟩ := run_bind_done.mp h
  refine b.carry (hb.equal _ _ _ _ h₁) hpos (fun hpos => ?_) fun hopen => run_bind_done.mpr ⟨_, _, h₁, hopen⟩
  split at h
  · exact .inl (b.closes_failLoop _ _ _ _ h hpos)
  next hisIn =>
  rw [if_neg hisIn]
  obtain ⟨isName, s₂, h₂, h⟩ := run_bind_done.mp h
  refine b.carry (hb.equal _ _ _ _ h₂) hpos (fun hpos => ?_) fun hopen => run_bind_done.mpr ⟨_, _, h₂, hopen⟩
  split at h
  · next hisName =>
    rw [if_pos hisName]
    obtain ⟨name, s₃, h₃, h⟩ := run_bind_done.mp h
    refine b.carry (hb.poolToken _ _ _ h₃) hpos (fun hpos => ?_) fun hopen => run_bind_done.mpr ⟨_, _, h₃, hopen⟩
    obtain ⟨_, s₄, h₄, h⟩ := run_bind_done.mp h
    refine b.carry (hb.lex _ _ _ h₄) hpos (fun hpos => ?_) fun hopen => run_bind_done.mpr ⟨_, _, h₄, hopen⟩
    obtain ⟨name2, s₅, h₅, h⟩ := run_bind_done.mp h
    have hsecond := b.closesOnFailure_parseSecondName _ _ _ h₅ hpos
    cases name2 with
    | none =>
      cases h
      exact .inl hsecond
    | some name2 =>
      refine b.carry hsecond hpos (fun hpos => ?_) fun hopen => run_bind_done.mpr ⟨_, _, h₅, hopen⟩
      obtain ⟨isIn, s₆, h₆, h⟩ := run_bind_done.mp h
      refine b.carry (hb.consume _ _ _ _ h₆) hpos (fun hpos => ?_) fun hopen => run_bind_done.mpr ⟨_, _, h₆, hopen⟩
      split at h
      · exact .inl (b.closes_parseForIn hr hscoped _ _ _ _ _ _ h hpos)
      next hisIn =>
      rw [if_neg hisIn]
      obtain ⟨top, s₇, h₇, h⟩ := run_bind_done.mp h
      refine b.carry (hb.count _ _ _ h₇) hpos (fun hpos => ?_) fun hopen => run_bind_done.mpr ⟨_, _, h₇, hopen⟩
      obtain ⟨_, s₈, h₈, h⟩ := run_bind_done.mp h
      refine b.carry (b.modifyLoop _ _ _ _ _ h₈) hpos (fun hpos => ?_) fun hopen =>
        run_bind_done.mpr ⟨_, _, h₈, hopen⟩
      obtain ⟨_, s₉, h₉, h⟩ := run_bind_done.mp h
      refine b.carry (hb.emitLoad _ _ _ _ h₉) hpos (fun hpos => ?_) fun hopen =>
        run_bind_done.mpr ⟨_, _, h₉, hopen⟩
      obtain ⟨more, s', hpostfix, h⟩ := run_bind_done.mp h
      have hk : s₉.ctx.Keeps le s'.ctx := hb.parsePostfix hr _ _ _ hpostfix
      cases more with
      | true =>
        obtain ⟨hpos, hleft⟩ := b.left hk hpos
        exact .inl (hleft.trans b.trans (b.closes_bind (hops 0) (fun _ =>
          b.closes_parseWhileBody hr hblock i) _ _ _ h hpos))
      | false =>
        cases h
        exact .inr ⟨run_bind_done.mpr ⟨_, _, hpostfix, rfl⟩, hk⟩
  · exact .inl (b.closes_bind hb.count (fun _ => b.closes_bind (b.modifyLoop _ _) fun _ =>
      b.closes_bind (hr.binary 0) fun _ => b.closes_parseWhileBody hr hblock i) _ _ _ h hpos)

theorem forStmt (hops : ∀ k, (keeping exec le).holds (parseBinaryOps r k))
    (hblock : (keeping exec le).holds (parseCompound r))
    (hscoped : (keeping exec le).holds (parseScopedCompound r)) : (keeping exec le).holds (parseFor r) := by
  have hb := b.basic
  intro s a t h
  rw [parseFor_eq] at h
  obtain ⟨c, s₁, hctx, h⟩ := run_bind_done.mp h
  obtain ⟨hc', hs'⟩ := b.run_context hctx
  subst hc' hs'
  dsimp only at h
  split at h
  · exact hb.errorAt _ _ _ _ h
  · obtain ⟨_, s₂, hopen, h⟩ := run_bind_done.mp h
    have hctx := b.run_modify hopen
    have hpos : 0 < s₂.ctx.loopDepth := by
      rw [hctx]
      exact Nat.succ_pos _
    rcases b.run_forLoop hr hops hblock hscoped h hpos with hk | ⟨hleft, hk⟩
    · rw [hctx] at hk
      exact ⟨hk.loopDepth, hk.loopFloor, hk.compileScopeDepth, hk.functionDepth, hk.exprDepth,
        hk.capturing, hk.localNames, hk.capturedNames, hk.pipeForbidCalls, hk.currentParams⟩
    · obtain ⟨n, rfl⟩ := hr.bounded
      have hle := b.headerLeft ((run_perform _ _ _).symm.trans hopen) hleft
      rw [hctx] at hk
      exact ⟨b.trans _ _ _ hle hk.loopDepth, hk.loopFloor, hk.compileScopeDepth, hk.functionDepth,
        hk.exprDepth, hk.capturing, hk.localNames, hk.capturedNames, hk.pipeForbidCalls,
        hk.currentParams⟩

end Body

theorem emitTimes (o : Opcode) (n : Nat) : (keeping exec le).holds (Compiler.emitTimes o n) :=
  b.basic.emitTimes o n

theorem breakStmt : (keeping exec le).holds parseBreak := by
  have hb := b.basic
  refine hb.bind hb.context fun c => ?_
  split
  · exact hb.errorAt _
  · refine hb.bind (hb.emitTimes _ _) fun _ => hb.bind (hb.emitTimes _ _) fun _ =>
      hb.bind (hb.emitOp _) fun _ => ?_
    split
    · exact hb.errorAt _
    · exact hb.bind hb.count fun _ => hb.bind (b.modifyLoop _ _) fun _ => hb.emitNat 0

theorem closed : (keeping exec le).Closed where
  toBasic := b.basic
  bareCall := b.bareCall
  pipeArgs := b.pipeArgs
  nested := b.nested
  shortCircuit := b.shortCircuit
  ifExpr := b.ifExpr
  indexedName := b.indexedName
  compound := b.compound
  scopedBlock := b.scopedBlock
  functionCode := b.functionCode
  capture := b.capture
  returnStmt := b.returnStmt
  compoundAssignment := b.compoundAssignment
  ifStmt := b.ifStmt
  forStmt := b.forStmt
  breakStmt := b.breakStmt

end Basis

/-! The operations. -/

theorem lex_ctx (s : Parser) : s.lex.ctx = s.ctx := by
  have hreports : ∀ (rs : List Report) (u : Parser), (rs.foldl Parser.report u).ctx = u.ctx := by
    intro rs
    induction rs with
    | nil => exact fun _ => rfl
    | cons r rs ih => exact fun u => ih _
  unfold Parser.lex
  dsimp only
  cases s.lexer.lex.value <;> exact hreports _ _

theorem bindImport_ctx (s : Parser) (name : Bytes) : (s.bindImport name).ctx = s.ctx := by
  unfold Parser.bindImport
  split <;> rfl

section Operations
variable {le : Nat → Nat → Prop} (hrefl : ∀ n, le n n)
include hrefl

theorem keeps_of_eq {c d : Context} (h : d = c) : c.Keeps le d := h ▸ .refl hrefl c

theorem execBasic_keeps {o : Op} {s t : Parser} {a : o.Ans} (ho : ∀ f, o ≠ .modify f)
    (h : execBasic o s = .done a t) : s.ctx.Keeps le t.ctx := by
  cases o with
  | lex =>
    cases h
    exact keeps_of_eq hrefl (lex_ctx s)
  | beginStatement =>
    cases h
    exact ⟨hrefl _, rfl, rfl, rfl, rfl, rfl, List.prefix_rfl, List.prefix_rfl, rfl, rfl⟩
  | modify f => exact absurd rfl (ho f)
  | addPool v =>
    cases h
    refine keeps_of_eq hrefl ?_
    unfold Parser.addPool
    cases v <;> dsimp only <;> split <;> rfl
  | tokenText | tokenInt | tokenReal | tokenBool | patch _ _ | poolVal _ =>
    simp only [execBasic, Parser.orStuck] at h
    split at h <;> cases h
    exact .refl hrefl _
  | addImport _ _ | stuck => cases h
  | _ =>
    cases h
    exact .refl hrefl _

/-- A module is compiled with the importing file's context, and leaves it as it compiles. -/
theorem addImport_keeps {env : Env} {compile : Parser → Result Unit} {name path : Bytes}
    {s t : Parser} (hcompile : ∀ s t, compile s = .done () t → s.ctx.Keeps le t.ctx)
    (h : addImport env compile name path s = .done () t) : s.ctx.Keeps le t.ctx := by
  unfold addImport loadModule at h
  split at h
  · cases h
    exact keeps_of_eq hrefl (bindImport_ctx s name)
  · dsimp only at h
    split at h
    · cases h
      exact .refl hrefl _
    · split at h
      · cases h
        exact .refl hrefl _
      · split at h
        · cases h
          exact .refl hrefl _
        · obtain ⟨_, u, hu, h⟩ := Outcome.andThen_eq_done.mp h
          have hcompiled := hcompile _ _ hu
          have hinner : s.ctx.Keeps le u.ctx := hcompiled
          split at h
          · cases h
            exact hinner
          · split at h
            · cases h
            · split at h
              · cases h
                exact hinner
              · cases h
                rw [bindImport_ctx]
                exact hinner

end Operations

namespace Basis

variable {exec : Exec Op Op.Ans Parser Stop} {le : Nat → Nat → Prop}

/-- Whole files. -/
theorem run_parse (b : Basis exec le) {fuel : Nat} {s t : Parser} (h : parse exec (parsers fuel) s = .done () t) :
    s.ctx.Keeps le t.ctx := by
  refine parse_lines_rel (R := fun s t => s.ctx.Keeps le t.ctx) (fun _ _ _ => .trans b.trans)
    (fun s => ?_) (fun s _ _ => .refl b.refl s.ctx) (fun s failed t hline => ?_) h
  · exact keeps_of_eq b.refl (lex_ctx s)
  · refine parseFileLine_rel (R := fun s t => s.ctx.Keeps le t.ctx) (fun _ _ _ => .trans b.trans)
      (fun s _ _ => .refl b.refl s.ctx)
      (fun s saved t => b.parseLine (b.closed.parsers fuel).statement s saved t)
      (fun saved marks s t => b.recover _ [] saved marks s () t) hline

/-- The compiler, with imports nested to any depth, is a basis as soon as the condition on its
operations speaks of the headers that fail. -/
theorem execWhile {env : Env} {fuel : Nat} {ok : Nat → Op → Parser → Prop}
    (refl : ∀ n, le n n) (trans : ∀ l m n, le l m → le m n → le l n)
    (leave : ∀ m n, le (m + 1) n → 0 < n ∧ le m (n - 1))
    (header : ∀ n k i s u, ok n (.modify (openLoop i)) s →
      (leftOpen (parsers k) i).run (execWhile env fuel ok n) { s with ctx := openLoop i s.ctx } =
        .done true u → le i (i + 1)) (n : Nat) : Basis (Compiler.execWhile env fuel ok n) le := by
  have hbasic : ∀ {n o s a t}, (∀ name path, o ≠ .addImport name path) →
      Compiler.execWhile env fuel ok n o s = .done a t → execBasic o s = .done a t := by
    intro n o s a t himport h
    have hexec := exec_of_execWhile n o s a t h
    rwa [exec_basic env fuel n himport] at hexec
  have hbasis : ∀ n, (∀ name path s a t,
      Compiler.execWhile env fuel ok n (.addImport name path) s = .done a t → s.ctx.Keeps le t.ctx) →
      Basis (Compiler.execWhile env fuel ok n) le := fun n himport =>
    { refl, trans, leave
      other := fun {o s a t} ho h => by
        by_cases hi : ∃ name path, o = .addImport name path
        · obtain ⟨name, path, rfl⟩ := hi
          exact himport name path s a t h
        · exact execBasic_keeps refl ho (hbasic (fun name path he => hi ⟨name, path, he⟩) h)
      modify := fun h => by
        cases hbasic (by simp) h
        rfl
      context := fun h => by
        cases hbasic (by simp) h
        exact ⟨rfl, rfl⟩
      headerLeft := fun {k i s a t u} hopen hleft => by
        have hok := ok_of_execWhile hopen
        cases hbasic (by simp) hopen
        exact header n k i s u hok hleft }
  induction n with
  | zero =>
    refine hbasis 0 fun name path s a t h => ?_
    unfold Compiler.execWhile at h
    split at h <;> cases h
  | succ n ih =>
    refine hbasis (n + 1) fun name path s a t h => ?_
    unfold Compiler.execWhile at h
    split at h
    · exact addImport_keeps refl (fun s t ht =>
        (keeps_of_eq refl (lex_ctx s)).trans trans (ih.run_parse ht)) h
    · cases h

theorem leftOpen (b : Basis exec le) {r : Parsers} (hr : (keeping exec le).Calls r) {i : Nat} (s t : Parser)
    (h : (leftOpen r i).run exec s = .done true t) (hpos : 0 < s.ctx.loopDepth) : s.ctx.Keeps le t.ctx := by
  have hb := b.basic
  obtain ⟨isIn, s₁, h₁, h⟩ := run_bind_done.mp h
  obtain ⟨hpos, -⟩ := b.left (hb.equal _ _ _ _ h₁) hpos
  refine (hb.equal _ _ _ _ h₁).trans b.trans ?_
  split at h
  · cases h
  obtain ⟨isName, s₂, h₂, h⟩ := run_bind_done.mp h
  obtain ⟨hpos, -⟩ := b.left (hb.equal _ _ _ _ h₂) hpos
  refine (hb.equal _ _ _ _ h₂).trans b.trans ?_
  split at h
  · obtain ⟨name, s₃, h₃, h⟩ := run_bind_done.mp h
    obtain ⟨hpos, -⟩ := b.left (hb.poolToken _ _ _ h₃) hpos
    refine (hb.poolToken _ _ _ h₃).trans b.trans ?_
    obtain ⟨_, s₄, h₄, h⟩ := run_bind_done.mp h
    obtain ⟨hpos, -⟩ := b.left (hb.lex _ _ _ h₄) hpos
    refine (hb.lex _ _ _ h₄).trans b.trans ?_
    obtain ⟨name2, s₅, h₅, h⟩ := run_bind_done.mp h
    have hsecond := b.closesOnFailure_parseSecondName _ _ _ h₅ hpos
    cases name2 with
    | none => cases h
    | some name2 =>
      refine Context.Keeps.trans b.trans hsecond ?_
      obtain ⟨isIn, s₆, h₆, h⟩ := run_bind_done.mp h
      refine (hb.consume _ _ _ _ h₆).trans b.trans ?_
      split at h
      · cases h
      · exact (hb.bind hb.count fun _ => hb.bind (b.modifyLoop _ _) fun _ => hb.bind (hb.emitLoad _)
          fun _ => hb.bind (hb.parsePostfix hr) fun more => hb.pure (!more)) _ _ _ h
  · cases h

end Basis

theorem forLoop_of_leftOpen {exec : Exec Op Op.Ans Parser Stop} {r : Parsers} {i : Nat} {s t : Parser}
    (h : (leftOpen r i).run exec s = .done true t) : (forLoop r i).run exec s = .done () t := by
  obtain ⟨isIn, s₁, h₁, h⟩ := run_bind_done.mp h
  refine run_bind_done.mpr ⟨isIn, s₁, h₁, ?_⟩
  split at h
  · cases h
  next hisIn =>
  rw [if_neg hisIn]
  obtain ⟨isName, s₂, h₂, h⟩ := run_bind_done.mp h
  refine run_bind_done.mpr ⟨isName, s₂, h₂, ?_⟩
  split at h
  · next hisName =>
    rw [if_pos hisName]
    obtain ⟨name, s₃, h₃, h⟩ := run_bind_done.mp h
    refine run_bind_done.mpr ⟨name, s₃, h₃, ?_⟩
    obtain ⟨_, s₄, h₄, h⟩ := run_bind_done.mp h
    refine run_bind_done.mpr ⟨(), s₄, h₄, ?_⟩
    obtain ⟨name2, s₅, h₅, h⟩ := run_bind_done.mp h
    refine run_bind_done.mpr ⟨name2, s₅, h₅, ?_⟩
    cases name2 with
    | none => cases h
    | some name2 =>
      obtain ⟨isIn, s₆, h₆, h⟩ := run_bind_done.mp h
      refine run_bind_done.mpr ⟨isIn, s₆, h₆, ?_⟩
      split at h
      · cases h
      next hisIn =>
      rw [if_neg hisIn]
      obtain ⟨top, s₇, h₇, h⟩ := run_bind_done.mp h
      refine run_bind_done.mpr ⟨top, s₇, h₇, ?_⟩
      obtain ⟨_, s₈, h₈, h⟩ := run_bind_done.mp h
      refine run_bind_done.mpr ⟨(), s₈, h₈, ?_⟩
      obtain ⟨_, s₉, h₉, h⟩ := run_bind_done.mp h
      refine run_bind_done.mpr ⟨(), s₉, h₉, ?_⟩
      obtain ⟨more, s', hpostfix, h⟩ := run_bind_done.mp h
      refine run_bind_done.mpr ⟨more, s', hpostfix, ?_⟩
      cases more with
      | true => cases h
      | false =>
        cases h
        rfl
  · cases h

section Statements
variable {env : Env} {fuel : Nat}

/-- The condition on a loop that is opened: if its header begins with a name and no `in`, the
parser gets through what stands behind the name. -/
def NamedHeadersEnd (env : Env) (fuel n : Nat) (o : Op) (s : Parser) : Prop :=
  ∀ i k u, o = .modify (openLoop i) →
    (leftOpen (parsers k) i).run (exec env fuel n) { s with ctx := openLoop i s.ctx } ≠ .done true u

theorem execWhile_true (env : Env) (fuel n : Nat) : execWhile env fuel (fun _ _ _ => True) n = exec env fuel n := by
  induction n with
  | zero =>
    funext o s
    exact if_pos trivial
  | succ n ih =>
    funext o s
    unfold execWhile
    rw [if_pos trivial, ih]
    rfl

/-- A loop whose header fails behind a name is not left. -/
theorem forStmt_leftOpen {n k i : Nat} {s t : Parser} (hi : s.ctx.loopDepth = i) (hmax : i < loopMax)
    (h : (leftOpen (parsers k) i).run (exec env fuel n) { s with ctx := openLoop i s.ctx } =
      .done true t) :
    (parseFor (parsers k)).run (exec env fuel n) s = .done () t ∧
      s.ctx.loopDepth < t.ctx.loopDepth := by
  have b : Basis (exec env fuel n) (· ≤ ·) :=
    execWhile_true env fuel n ▸ .execWhile le_refl (fun _ _ _ => le_trans) (fun m n h => by omega)
      (fun _ _ i _ _ _ _ => i.le_succ) n
  have hopen : (Compiler.modify (openLoop i)).run (exec env fuel n) s =
      .done () { s with ctx := openLoop i s.ctx } := by
    rw [Compiler.modify, run_perform', exec_basic env fuel n (by simp)]
    rfl
  have hctx : Compiler.context.run (exec env fuel n) s = .done s.ctx s := by
    rw [Compiler.context, run_perform', exec_basic env fuel n (by simp)]
    rfl
  constructor
  · rw [parseFor_eq]
    refine run_bind_done.mpr ⟨_, _, hctx, ?_⟩
    rw [hi, if_neg (by omega)]
    exact run_bind_done.mpr ⟨_, _, hopen, forLoop_of_leftOpen h⟩
  · have hk := b.leftOpen (b.closed.parsers k) _ _ h (Nat.succ_pos i)
    have hdepth : i + 1 ≤ t.ctx.loopDepth := hk.loopDepth
    omega

end Statements

/-- The compiler at the start of a text, in an environment without modules. -/
def Parser.onText (text : String) : Parser :=
  (Parser.start .run (.open [] (bytes text)) .init .init).lex

/-- Whether a change of the context, made to an empty one, opens a loop. -/
def opensLoop : Op → Bool
  | .modify f => (f .init).loopDepth != 0
  | _ => false

/-- The body of a closure, whose statement makes `x` a local name of the closure. -/
def closureText : Parser :=
  .onText "function f():\n    g = function():\n        x = 1\n        return x\n    return g\n"

/-- Where a statement of a closure's body begins, with no name recorded yet. -/
def beginsBody (o : Op) (s : Parser) : Bool :=
  match o with
  | .beginStatement => s.ctx.capturing && s.ctx.captureCtx.localNames.isEmpty
  | _ => false

/-- A statement as a block compiles it. -/
def blockStatement (fuel : Nat) : P Unit := do
  perform .beginStatement
  (parsers fuel).statement

end Aer.Compiler
