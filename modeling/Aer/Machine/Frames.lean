import Aer.Machine.ValueOps

set_option linter.all false

/-! Which instructions touch the call frames, and what they can do to them. -/
namespace Aer.Machine

open Aer.Data Aer.Memory Aer.Lib.Interaction

/-- Whether an operation leaves the call frames alone. -/
@[grind] def Op.isFrameFree : Op → Bool
  | .pushFrame _ _ | .setFrameFunction _ | .setDefers _ | .stashReturn _ | .takeReturn
  | .popFrame => false
  | _ => true

def FrameFree {α : Type} (p : Handler α) : Prop := p.Only fun o => o.isFrameFree = true

namespace FrameFree

variable {α β : Type}

@[grind ←] theorem pure (a : α) : FrameFree (pure a) := trivial

@[grind ←] theorem perform {o : Op} (h : o.isFrameFree = true) : FrameFree (perform o) :=
  Only.perform h

@[grind ←] theorem bind {p : Handler α} {f : α → Handler β} (hp : FrameFree p)
    (hf : ∀ a, FrameFree (f a)) : FrameFree (p >>= f) :=
  Only.bind hp hf

end FrameFree

/-! The parts of the handlers that compute with values. -/

theorem ValueOnly.frameFree {α : Type} {p : Handler α} (h : ValueOnly p) : FrameFree p := by
  refine Only.mono h fun o ho => ?_
  cases o <;> first | rfl | cases ho

@[grind ←] theorem frameFree_vmTruthy (v) : FrameFree (vmTruthy v) :=
  (valueOnly_vmTruthy v).frameFree

@[grind ←] theorem frameFree_errorWith (m v) : FrameFree (errorWith m v) :=
  (valueOnly_errorWith m v).frameFree

@[grind ←] theorem frameFree_errorNull (m) : FrameFree (errorNull m) := by
  unfold errorNull
  grind -ring -linarith

@[grind ←] theorem frameFree_vmBinary (a b op) : FrameFree (vmBinary a b op) :=
  (valueOnly_vmBinary a b op).frameFree

@[grind ←] theorem frameFree_vmIndexGetCompute (a b) : FrameFree (vmIndexGetCompute a b) :=
  (valueOnly_vmIndexGetCompute a b).frameFree

@[grind ←] theorem frameFree_vmToStr (v) : FrameFree (vmToStr v) := by
  unfold vmToStr
  grind -ring -linarith

@[grind ←] theorem frameFree_vmSliceBounds (start stop len) :
    FrameFree (vmSliceBounds start stop len) := by
  unfold vmSliceBounds
  refine .bind (by grind -ring -linarith) fun lo => ?_
  cases lo with
  | none => exact .pure _
  | some lo =>
    refine .bind (by grind -ring -linarith) fun hi => ?_
    cases hi <;> exact .pure _

@[grind ←] theorem frameFree_vmCast (t v) : FrameFree (vmCast t v) := by
  unfold vmCast
  grind -ring -linarith

@[grind ←] theorem frameFree_push (v) : FrameFree (push v) := by
  unfold push
  grind -ring -linarith

@[grind ←] theorem frameFree_pop : FrameFree pop := by
  unfold pop
  grind -ring -linarith

@[grind ←] theorem frameFree_popArgs (n) : FrameFree (popArgs n) := by
  induction n with
  | zero => exact .pure _
  | succ n ih =>
    unfold popArgs
    grind -ring -linarith

@[grind ←] theorem frameFree_popN (n) : FrameFree (popN n) := by
  unfold popN
  grind -ring -linarith

@[grind ←] theorem frameFree_pushAll (vs) : FrameFree (pushAll vs) := by
  induction vs with
  | nil => exact .pure _
  | cons v vs ih =>
    unfold pushAll
    grind -ring -linarith

@[grind ←] theorem frameFree_vmResolveNameCached (i c) : FrameFree (vmResolveNameCached i c) := by
  unfold vmResolveNameCached
  grind -ring -linarith

@[grind ←] theorem frameFree_read (o) : FrameFree (Operand.read o) := by
  unfold Operand.read
  grind -ring -linarith

@[grind ←] theorem frameFree_printValue (v) : FrameFree (printValue v) := by
  unfold printValue
  grind -ring -linarith

@[grind ←] theorem frameFree_builtinLength (f v) : FrameFree (builtinLength f v) := by
  unfold builtinLength
  grind -ring -linarith

@[grind ←] theorem frameFree_builtinDelete (o k) : FrameFree (builtinDelete o k) := by
  unfold builtinDelete
  split
  · grind -ring -linarith
  · refine .bind (.perform rfl) fun a => ?_
    grind -ring -linarith
  · grind -ring -linarith

@[grind ←] theorem frameFree_builtinAppend (o k) : FrameFree (builtinAppend o k) := by
  unfold builtinAppend
  grind -ring -linarith

@[grind ←] theorem frameFree_builtinAssert (o k) : FrameFree (builtinAssert o k) := by
  unfold builtinAssert
  grind -ring -linarith

@[grind ←] theorem frameFree_builtinPanic (o) : FrameFree (builtinPanic o) := by
  unfold builtinPanic
  grind -ring -linarith

@[grind ←] theorem frameFree_runBuiltin (f n a) : FrameFree (runBuiltin f n a) := by
  unfold runBuiltin
  grind -ring -linarith

@[grind ←] theorem frameFree_construct (n i a) : FrameFree (construct n i a) := by
  unfold construct
  grind -ring -linarith

@[grind ←] theorem frameFree_callUnbound (n c) : FrameFree (callUnbound n c) := by
  unfold callUnbound
  grind -ring -linarith

@[grind ←] theorem frameFree_vmCallBuiltin (n a) : FrameFree (vmCallBuiltin n a) := by
  unfold vmCallBuiltin
  grind -ring -linarith

@[grind ←] theorem frameFree_isInstance (v i) : FrameFree (isInstance v i) := by
  unfold isInstance
  grind -ring -linarith

@[grind ←] theorem frameFree_readOpcode : FrameFree readOpcode := by
  unfold readOpcode
  grind -ring -linarith

@[grind ←] theorem frameFree_readConst : FrameFree readConst := by
  unfold readConst
  grind -ring -linarith

@[grind ←] theorem frameFree_readSlot : FrameFree readSlot := by
  unfold readSlot
  grind -ring -linarith

@[grind ←] theorem frameFree_readName : FrameFree readName := by
  unfold readName
  grind -ring -linarith

@[grind ←] theorem frameFree_compoundName {readRhs} (h : FrameFree readRhs) :
    FrameFree (compoundName readRhs) := by
  unfold compoundName
  repeat' first | with_reducible refine .bind ?_ fun _ => ?_ | split
  all_goals grind -ring -linarith

@[grind ←] theorem frameFree_compoundLocal {readRhs} (h : FrameFree readRhs) :
    FrameFree (compoundLocal readRhs) := by
  unfold compoundLocal
  repeat' first | with_reducible refine .bind ?_ fun _ => ?_ | split
  all_goals grind -ring -linarith

@[grind ←] theorem frameFree_indexGetFused {readObj readIdx} (h : FrameFree readObj)
    (h' : FrameFree readIdx) :
    FrameFree (indexGetFused readObj readIdx) := by
  unfold indexGetFused
  repeat' first | with_reducible refine .bind ?_ fun _ => ?_ | split
  all_goals grind -ring -linarith

@[grind ←] theorem frameFree_popEntries (n d) : FrameFree (popEntries n d) := by
  induction n generalizing d with
  | zero => exact .pure _
  | succ n ih =>
    unfold popEntries
    grind -ring -linarith

@[grind ←] theorem frameFree_readFields (n) : FrameFree (readFields n) := by
  induction n with
  | zero => exact .pure _
  | succ n ih =>
    unfold readFields
    grind -ring -linarith

@[grind ←] theorem frameFree_readConstants (n) : FrameFree (readConstants n) := by
  induction n with
  | zero => exact .pure _
  | succ n ih =>
    unfold readConstants
    grind -ring -linarith

@[grind ←] theorem frameFree_asStruct (v) : FrameFree (asStruct v) := by
  unfold asStruct
  grind -ring -linarith

@[grind ←] theorem frameFree_noField (s i) : FrameFree (noField s i) := by
  unfold noField
  grind -ring -linarith

@[grind ←] theorem frameFree_leaveLoop (n a) : FrameFree (leaveLoop n a) := by
  unfold leaveLoop
  grind -ring -linarith

@[grind ←] theorem frameFree_advance (i) : FrameFree (advance i) := by
  unfold advance
  grind -ring -linarith

theorem frameFree_lblIndexSet : FrameFree lblIndexSet := by
  unfold lblIndexSet
  repeat' first | with_reducible refine .bind ?_ fun _ => ?_ | split
  all_goals grind -ring -linarith

theorem frameFree_lblSliceGet : FrameFree lblSliceGet := by
  unfold lblSliceGet
  repeat' first | with_reducible refine .bind ?_ fun _ => ?_ | split
  all_goals grind -ring -linarith

theorem frameFree_lblUnpack : FrameFree lblUnpack := by
  unfold lblUnpack
  repeat' first | with_reducible refine .bind ?_ fun _ => ?_ | split
  all_goals grind -ring -linarith

theorem frameFree_lblIterNext : FrameFree lblIterNext := by
  unfold lblIterNext
  repeat' first | with_reducible refine .bind ?_ fun _ => ?_ | split
  all_goals grind -ring -linarith

theorem frameFree_lblIterNextPair : FrameFree lblIterNextPair := by
  unfold lblIterNextPair
  repeat' first | with_reducible refine .bind ?_ fun _ => ?_ | split
  all_goals grind -ring -linarith

theorem frameFree_lblIterRange : FrameFree lblIterRange := by
  unfold lblIterRange
  repeat' first | with_reducible refine .bind ?_ fun _ => ?_ | split
  all_goals grind -ring -linarith

theorem frameFree_lblFieldGet : FrameFree lblFieldGet := by
  unfold lblFieldGet
  repeat' first | with_reducible refine .bind ?_ fun _ => ?_ | split
  all_goals grind -ring -linarith

theorem frameFree_lblFieldSet : FrameFree lblFieldSet := by
  unfold lblFieldSet
  repeat' first | with_reducible refine .bind ?_ fun _ => ?_ | split
  all_goals grind -ring -linarith

theorem frameFree_lblMakeClosure : FrameFree lblMakeClosure := by
  unfold lblMakeClosure
  repeat' first | with_reducible refine .bind ?_ fun _ => ?_ | split
  all_goals grind -ring -linarith

theorem frameFree_lblCallModule : FrameFree lblCallModule := by
  unfold lblCallModule
  repeat' first | with_reducible refine .bind ?_ fun _ => ?_ | split
  all_goals grind -ring -linarith

/-- The instructions that enter, leave or change a call. -/
def Opcode.usesFrames : Opcode → Bool
  | .call | .tailCall | .callValue | .ret | .deferPush => true
  | _ => false

theorem frameFree_handler {op : Opcode} (h : op.usesFrames = false) : FrameFree (handler op) := by
  cases op
  case call | tailCall | callValue | ret | deferPush => cases h
  case indexSet => exact frameFree_lblIndexSet
  case sliceGet => exact frameFree_lblSliceGet
  case unpack => exact frameFree_lblUnpack
  case iterNext => exact frameFree_lblIterNext
  case iterNextPair => exact frameFree_lblIterNextPair
  case iterRange => exact frameFree_lblIterRange
  case fieldGet => exact frameFree_lblFieldGet
  case fieldSet => exact frameFree_lblFieldSet
  case makeClosure => exact frameFree_lblMakeClosure
  case callModule => exact frameFree_lblCallModule
  case push | load | store | define | loadLocal | storeLocal | defineLocal =>
    simp only [handler, lblPush, lblLoad, lblStore, lblDefine, lblLoadLocal, lblStoreLocal, lblDefineLocal]
    grind -ring -linarith
  case compoundNameConst | compoundNameName | compoundLocalConst | compoundLocalLocal | compoundLocalName | compoundNameLocal =>
    simp only [handler, lblCompoundNameConst, lblCompoundNameName, lblCompoundLocalConst, lblCompoundLocalLocal, lblCompoundLocalName, lblCompoundNameLocal]
    grind -ring -linarith
  case negate | not | bitwiseNot | jump | jumpIfFalse | jumpIfTrue | pushScope | popScope =>
    simp only [handler, lblNegate, lblNot, lblBitwiseNot, lblJump, lblJumpIf, lblPushScope, lblPopScope]
    grind -ring -linarith
  case arrayNew | dictNew | indexGet | defineStruct | checkShape =>
    simp only [handler, lblArrayNew, lblDictNew, lblIndexGet, lblDefineStruct, lblCheckShape]
    grind -ring -linarith
  case indexGetLocalConst | indexGetLocalLocal | indexGetLocalName | indexGetNameConst | indexGetNameLocal | indexGetNameName =>
    simp only [handler, lblIndexGetLocalConst, lblIndexGetLocalLocal, lblIndexGetLocalName, lblIndexGetNameConst, lblIndexGetNameLocal, lblIndexGetNameName]
    grind -ring -linarith
  case capture | loadUpvalue | storeUpvalue =>
    simp only [handler, lblCapture, lblLoadUpvalue, lblStoreUpvalue]
    grind -ring -linarith
  case printRepl | pop | toStr | cast =>
    simp only [handler, lblPrintRepl, lblPop, lblToStr, lblCast]
    grind -ring -linarith
  all_goals
    simp only [handler, lblBinary]
    grind -ring -linarith

/-- Whether an operation leaves the deferred calls of every frame alone. -/
@[grind] def Op.keepsDefers : Op → Bool
  | .setDefers _ | .stashReturn _ | .takeReturn | .popFrame => false
  | _ => true

theorem Op.keepsDefers_of_isFrameFree {o : Op} (h : o.isFrameFree = true) :
    o.keepsDefers = true := by
  cases o <;> first | rfl | cases h

def KeepsDefers {α : Type} (p : Handler α) : Prop := p.Only fun o => o.keepsDefers = true

namespace KeepsDefers

variable {α β : Type}

@[grind ←] theorem of_frameFree {p : Handler α} (h : FrameFree p) : KeepsDefers p :=
  Only.mono h fun _ => Op.keepsDefers_of_isFrameFree

@[grind ←] theorem perform {o : Op} (h : o.keepsDefers = true) : KeepsDefers (perform o) :=
  Only.perform h

@[grind ←] theorem bind {p : Handler α} {f : α → Handler β} (hp : KeepsDefers p)
    (hf : ∀ a, KeepsDefers (f a)) : KeepsDefers (p >>= f) :=
  Only.bind hp hf

end KeepsDefers

@[grind ←] theorem keepsDefers_enterFunction (tail cell f) :
    KeepsDefers (enterFunction tail cell f) := by
  unfold enterFunction
  repeat' first | with_reducible refine .bind ?_ fun _ => ?_ | split
  all_goals grind -ring -linarith

@[grind ←] theorem keepsDefers_callFunction (tail name cell n) :
    KeepsDefers (callFunction tail name cell n) := by
  unfold callFunction
  repeat' first | with_reducible refine .bind ?_ fun _ => ?_ | split
  all_goals grind -ring -linarith

@[grind ←] theorem keepsDefers_vmSetupCall (fv n ip) : KeepsDefers (vmSetupCall fv n ip) := by
  unfold vmSetupCall
  repeat' first | with_reducible refine .bind ?_ fun _ => ?_ | split
  all_goals grind -ring -linarith

theorem keepsDefers_lblCall (tail) : KeepsDefers (lblCall tail) := by
  unfold lblCall
  repeat' first | with_reducible refine .bind ?_ fun _ => ?_ | split
  all_goals grind -ring -linarith

theorem keepsDefers_lblCallValue : KeepsDefers lblCallValue := by
  unfold lblCallValue
  repeat' first | with_reducible refine .bind ?_ fun _ => ?_ | split
  all_goals grind -ring -linarith

/-- Only a return and a deferral touch deferred calls. -/
theorem keepsDefers_handler {op : Opcode} (hret : op ≠ .ret) (hdefer : op ≠ .deferPush) :
    KeepsDefers (handler op) := by
  by_cases h : op.usesFrames = false
  · exact .of_frameFree (frameFree_handler h)
  cases op
  case call => exact keepsDefers_lblCall false
  case tailCall => exact keepsDefers_lblCall true
  case callValue => exact keepsDefers_lblCallValue
  case ret => exact absurd rfl hret
  case deferPush => exact absurd rfl hdefer
  all_goals exact absurd rfl h

end Aer.Machine
