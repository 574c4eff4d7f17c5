import Aer.Compiler.Balance
import Aer.Machine.ScopeStore
import Aer.Machine.StringParts

set_option linter.all false

/-! The names in the body of a closure: how each use of a name is compiled, and the
variable that it uses when the body runs. -/
namespace Aer.Compiler

open Aer.Data Aer.Memory Aer.Machine Aer.Lib Aer.Lib.Interaction

/-! Uses of names, as they are compiled. -/

/-- An instruction that uses a variable. -/
inductive NameUse
  | load (l : Loader)
  | store (l : Loader)
  | define (name : Nat)

namespace NameUse

def words : NameUse → List Int
  | load l => l.words
  | store (.name n c) => instructionWords .store [n, c]
  | store (.slot i) => instructionWords .storeLocal [i]
  | store (.upvalue i) => instructionWords .storeUpvalue [i]
  | define n => instructionWords .define [n]

theorem word_eq_iff {o o' : Opcode} : o.word = o'.word ↔ o = o' :=
  ⟨Opcode.word_inj, congrArg _⟩

theorem words_inj {x y : NameUse} (h : x.words = y.words) : x = y := by
  rcases x with (_ | _ | _) | (_ | _ | _) | _ <;> rcases y with (_ | _ | _) | (_ | _ | _) | _ <;>
    simp_all [words, Loader.words, instructionWords, word_eq_iff]

/-- The assignment that a fused instruction makes to the operand it reads. -/
def assigned : NameUse → NameUse
  | load l => store l
  | x => x

end NameUse

/-- How the parser has classified a name of a closure's body. -/
inductive Classified
  | param (slot : Nat)
  | upvalue (slot : Nat)
  /-- A local; the table of locals has had no room for it if it was dropped. -/
  | named (dropped : Bool)
  deriving DecidableEq

/-- What a body does with a name. A compound assignment is a read and a write, unless its two
instructions are fused into one. -/
inductive Occurrence
  | read
  | write
  | fused
  | loopVar
  deriving DecidableEq

/-- The parser compiles a use of the name, and reports no error. -/
inductive Emitted (n : Nat) (u t : Parser) : Occurrence → NameUse → Prop
  | read {x : NameUse} : (emitLoad n).run execBasic u = .done () t → t.reports = u.reports →
      t.chunk.code = u.chunk.code ++ x.words → Emitted n u t .read x
  | write {x : NameUse} : (emitStore n).run execBasic u = .done () t → t.reports = u.reports →
      t.chunk.code = u.chunk.code ++ x.words → Emitted n u t .write x
  | fused {x : NameUse} {op : Opcode} {rhs : Operand} {ws : List Int} :
      (emitLoad n).run execBasic u = .done () t → t.reports = u.reports →
      t.chunk.code = u.chunk.code ++ x.words →
      compoundWords op (classifyOperand x.words) rhs = some ws → Emitted n u t .fused x.assigned
  | loopVar {x : NameUse} : (emitDefine n).run execBasic u = .done () t → t.reports = u.reports →
      t.chunk.code = u.chunk.code ++ x.words → Emitted n u t .loopVar x

namespace NameUse

/-- The instruction uses the variable that the name was classified as. -/
def Is (n : Nat) (x : NameUse) : Classified → Prop
  | .param i => x = .load (.slot i) ∨ x = .store (.slot i)
  | .upvalue i => x = .load (.upvalue i) ∨ x = .store (.upvalue i)
  | .named _ => ∃ c, x = .load (.name n c) ∨ x = .store (.name n c)

end NameUse

namespace Context

/-- What the tables of the parser say of a name that has been classified. -/
def Binds (c : Context) (n : Nat) : Classified → Prop
  | .param i => n ∈ c.captureCtx.localNames ∧ c.currentParamSlot n = some i
  | .upvalue i => n ∉ c.captureCtx.localNames ∧ n ∈ c.captureCtx.capturedNames ∧ c.captureSlot n = i
  | .named dropped => c.currentParamSlot n = none ∧ (dropped = false → n ∈ c.captureCtx.localNames)

/-- The name has not been classified. -/
structure Unseen (c : Context) (n : Nat) : Prop where
  notLocal : n ∉ c.captureCtx.localNames
  notCaptured : n ∉ c.captureCtx.capturedNames
  notParam : c.currentParamSlot n = none

end Context

/-! The programs, as functions of the tables. -/

theorem captureClassify_run (n : Nat) (asWrite : Bool) (u : Parser) :
    (captureClassify n asWrite).run execBasic u =
      if u.ctx.captureIsLocal n then .done false u
      else if u.ctx.captureIsCaptured n then .done true u
      else if asWrite ∧ n ∉ u.ctx.outerLocals then
        .done false { u with ctx := u.ctx.captureAddLocal n }
      else if u.ctx.captureCtx.capturedNames.length < maxCaptures then
        .done true { u with ctx := u.ctx.captureAddCaptured n }
      else .done true (u.errorAt (bytes "Too many captured variables in one closure (max 16)")) := by
  unfold captureClassify context
  rw [run_bind, run_perform']
  change ((if u.ctx.captureIsLocal n = true then pure false else _ : P Bool).run execBasic u) = _
  split
  · rfl
  split
  · rfl
  split
  · rfl
  split <;> rfl

/-- The code that a program has appended, and the context it has left. -/
structure Appends (u t : Parser) (c : Context) (x : NameUse) : Prop where
  ctx : t.ctx = c
  code : t.chunk.code = u.chunk.code ++ x.words

/-- How a name that is not captured is addressed: by its slot, if it is a parameter. -/
def Context.Plain (c : Context) (n : Nat) (l : Loader) : Prop :=
  match c.currentParamSlot n with
  | some i => l = .slot i
  | none => ∃ cache, l = .name n cache

section Runs
variable {n : Nat} {u t : Parser}

/-- An access to a name that is not captured. -/
theorem plainAccess_run {byName bySlot : Opcode} {f : Loader → NameUse}
    (hname : ∀ c, (f (.name n c)).words = instructionWords byName [n, c])
    (hslot : ∀ i, (f (.slot i)).words = instructionWords bySlot [i])
    (h : (do
        match (← context).currentParamSlot n with
        | some slot =>
            emitOp bySlot
            emitNat slot
        | none =>
            emitOp byName
            emitNat n
            emitNat (← addAddrCache) : P Unit).run execBasic u = .done () t) :
    ∃ l, u.ctx.Plain n l ∧ Appends u t u.ctx (f l) := by
  unfold context at h
  rw [run_bind, run_perform'] at h
  change ((match u.ctx.currentParamSlot n with
    | some slot => _
    | none => _ : P Unit).run execBasic u) = _ at h
  unfold Context.Plain
  split at h
  · next slot _ =>
    cases h
    refine ⟨.slot slot, rfl, rfl, ?_⟩
    rw [hslot]
    exact List.append_assoc _ _ _
  · cases h
    refine ⟨.name n u.chunk.addrCache.length, ⟨_, rfl⟩, rfl, ?_⟩
    rw [hname]
    change ((u.chunk.code ++ [_]) ++ [_]) ++ [_] = _
    rw [List.append_assoc, List.append_assoc]
    rfl

/-- The tables behind the first use of a name that is captured by it. -/
def Context.captured (c : Context) (n : Nat) : Context :=
  if n ∈ c.captureCtx.capturedNames then c else c.captureAddCaptured n

/-- A read in a closure's body. -/
theorem emitLoad_run (hcapturing : u.ctx.capturing = true)
    (h : (emitLoad n).run execBasic u = .done () t) (hreports : t.reports = u.reports) :
    (n ∈ u.ctx.captureCtx.localNames ∧ ∃ l, u.ctx.Plain n l ∧ Appends u t u.ctx (.load l)) ∨
    (n ∉ u.ctx.captureCtx.localNames ∧
      Appends u t (u.ctx.captured n) (.load (.upvalue ((u.ctx.captured n).captureSlot n)))) := by
  unfold emitLoad context at h
  rw [run_bind, run_perform'] at h
  change ((if u.ctx.capturing = true then _ else _ : P Unit).run execBasic u) = _ at h
  rw [if_pos hcapturing, run_bind, captureClassify_run] at h
  unfold Context.captured
  simp only [Context.captureIsLocal, Context.captureIsCaptured, List.contains_iff_mem] at h
  split at h
  · next hlocal =>
    exact .inl ⟨hlocal, plainAccess_run (fun _ => rfl) (fun _ => rfl) h⟩
  next hlocal =>
  refine .inr ⟨hlocal, ?_⟩
  split at h
  · next hcaptured =>
    cases h
    rw [if_pos hcaptured]
    exact ⟨rfl, List.append_assoc _ _ _⟩
  next hcaptured =>
  rw [if_neg hcaptured]
  split at h
  · next hwrite => exact absurd hwrite.1 Bool.false_ne_true
  split at h
  · cases h
    exact ⟨rfl, List.append_assoc _ _ _⟩
  · cases h
    exact absurd (congrArg List.length hreports) (Nat.succ_ne_self _)

/-- The context once the name is among those that the enclosing function has assigned. -/
def Context.noted (c : Context) (n : Nat) : Context :=
  if c.functionDepth = 1 then c.outerLocalsAdd n else c

/-- Only the record of the enclosing function is changed. -/
theorem Context.noted_eq (c : Context) (n : Nat) :
    ∃ names, c.noted n = { c with outerLocals := names } := by
  unfold Context.noted Context.outerLocalsAdd
  split
  · split
    · exact ⟨_, rfl⟩
    · exact ⟨_, rfl⟩
  · exact ⟨_, rfl⟩

theorem run_noted {α : Type} {p : P α} :
    (do
      if (← context).functionDepth = 1 then modify (·.outerLocalsAdd n)
      p : P α).run execBasic u = p.run execBasic { u with ctx := u.ctx.noted n } := by
  unfold context
  rw [run_bind, run_perform']
  change ((if u.ctx.functionDepth = 1 then _ else _ : P α).run execBasic u) = _
  unfold Context.noted
  split <;> rfl

/-- A write in a closure's body: the first one makes a local, unless the enclosing function
has assigned the name. -/
theorem emitStore_run (hcapturing : u.ctx.capturing = true)
    (h : (emitStore n).run execBasic u = .done () t) (hreports : t.reports = u.reports) :
    (n ∈ u.ctx.captureCtx.localNames ∧ ∃ l, u.ctx.Plain n l ∧ Appends u t (u.ctx.noted n) (.store l)) ∨
    (n ∉ u.ctx.captureCtx.localNames ∧
      Appends u t ((u.ctx.noted n).captured n)
        (.store (.upvalue (((u.ctx.noted n).captured n).captureSlot n)))) ∨
    (n ∉ u.ctx.captureCtx.localNames ∧ n ∉ u.ctx.captureCtx.capturedNames ∧
      Appends u t ((u.ctx.noted n).captureAddLocal n) (.define n)) := by
  unfold emitStore at h
  rw [run_noted] at h
  obtain ⟨names, hnoted⟩ := u.ctx.noted_eq n
  rw [hnoted]
  rw [hnoted] at h
  unfold context at h
  rw [run_bind, run_perform'] at h
  change ((if u.ctx.capturing = true then _ else _ : P Unit).run execBasic _) = _ at h
  rw [if_pos hcapturing, run_bind, captureClassify_run] at h
  simp only [Context.captureIsLocal, Context.captureIsCaptured, List.contains_iff_mem] at h
  unfold Context.captured
  dsimp only
  split at h
  · next hlocal =>
    have hclassified : (u.ctx.captureCtx.localNames.contains n ||
        u.ctx.captureCtx.capturedNames.contains n) = true := by
      simp [hlocal]
    change ((if (u.ctx.captureCtx.localNames.contains n ||
        u.ctx.captureCtx.capturedNames.contains n) = true then emitPlainStore n
      else _ : P Unit).run execBasic _) = _ at h
    rw [if_pos hclassified] at h
    obtain ⟨l, hl, hap⟩ := plainAccess_run (f := .store) (fun _ => rfl) (fun _ => rfl) h
    exact .inl ⟨hlocal, l, hl, hap.ctx, hap.code⟩
  next hlocal =>
  right
  split at h
  · next hcaptured =>
    left
    cases h
    rw [if_pos hcaptured]
    exact ⟨hlocal, rfl, List.append_assoc _ _ _⟩
  next hcaptured =>
  split at h
  · right
    have hclassified : ¬ (u.ctx.captureCtx.localNames.contains n ||
        u.ctx.captureCtx.capturedNames.contains n) = true := by
      simp [hlocal, hcaptured]
    change ((if (u.ctx.captureCtx.localNames.contains n ||
        u.ctx.captureCtx.capturedNames.contains n) = true then _
      else _ : P Unit).run execBasic _) = _ at h
    rw [if_neg hclassified] at h
    cases h
    exact ⟨hlocal, hcaptured, rfl, List.append_assoc _ _ _⟩
  split at h
  · left
    cases h
    rw [if_neg hcaptured]
    exact ⟨hlocal, rfl, List.append_assoc _ _ _⟩
  · cases h
    exact absurd (congrArg List.length hreports) (Nat.succ_ne_self _)

/-- The context once a loop variable or a parameter is among the names of the body. -/
def Context.registered (c : Context) (n : Nat) : Context :=
  if n ∈ c.captureCtx.localNames ∨ n ∈ c.captureCtx.capturedNames then c.noted n
  else (c.noted n).captureAddLocal n

theorem registerLocal_run (hcapturing : u.ctx.capturing = true) :
    (registerLocal n).run execBasic u = .done () { u with ctx := u.ctx.registered n } := by
  unfold registerLocal Context.registered
  rw [run_noted]
  obtain ⟨names, hnoted⟩ := u.ctx.noted_eq n
  rw [hnoted]
  unfold context
  rw [run_bind, run_perform']
  change ((if (u.ctx.capturing && !u.ctx.captureCtx.localNames.contains n &&
      !u.ctx.captureCtx.capturedNames.contains n) = true then _ else _ : P Unit).run
    execBasic _) = _
  by_cases hseen : n ∈ u.ctx.captureCtx.localNames ∨ n ∈ u.ctx.captureCtx.capturedNames
  · rw [if_pos hseen, if_neg]
    · rfl
    · intro hnew
      have hunseen : n ∉ u.ctx.captureCtx.localNames ∧ n ∉ u.ctx.captureCtx.capturedNames := by
        simpa [hcapturing] using hnew
      exact hseen.elim hunseen.1 hunseen.2
  · rw [if_neg hseen, if_pos]
    · rfl
    · simpa [hcapturing] using hseen

/-- A loop variable is made a local, unless it has been classified. -/
theorem emitDefine_run (hcapturing : u.ctx.capturing = true)
    (h : (emitDefine n).run execBasic u = .done () t) :
    Appends u t (u.ctx.registered n) (.define n) := by
  unfold emitDefine at h
  rw [run_bind, registerLocal_run hcapturing] at h
  cases h
  exact ⟨rfl, List.append_assoc _ _ _⟩

end Runs

/-! What a use does to a name, known or not. -/

namespace NameUse

/-- How an instruction classifies a name that it is the first to use. -/
def classify (full : Bool) : NameUse → Classified
  | load (.upvalue i) | store (.upvalue i) => .upvalue i
  | load (.slot i) | store (.slot i) => .param i
  | load (.name _ _) | store (.name _ _) | define _ => .named full

def isDefine : NameUse → Bool
  | define _ => true
  | load _ | store _ => false

end NameUse

/-- The table of local names is full. -/
def Context.full (c : Context) : Bool := decide (maxTrackedLocals ≤ c.captureCtx.localNames.length)

section Classify
variable {n : Nat} {c : Context}

theorem binds_captured {cl : Classified} (h : c.Binds n cl) : (c.captured n).Binds n cl := by
  unfold Context.captured
  split
  · exact h
  next hcaptured =>
  cases cl with
  | param i => exact h
  | upvalue i => exact absurd h.2.1 hcaptured
  | named dropped => exact h

/-- A name that is captured has its slot from then on. -/
theorem captured_binds (hlocal : n ∉ c.captureCtx.localNames) :
    (c.captured n).Binds n (.upvalue ((c.captured n).captureSlot n)) := by
  unfold Context.captured
  split
  · next hcaptured => exact ⟨hlocal, hcaptured, rfl⟩
  · exact ⟨hlocal, List.mem_append_right _ (List.mem_singleton_self n), rfl⟩

theorem binds_noted {cl : Classified} (h : c.Binds n cl) : (c.noted n).Binds n cl := by
  obtain ⟨names, hnoted⟩ := c.noted_eq n
  rw [hnoted]
  exact h

theorem binds_addLocal {cl : Classified} (h : c.Binds n cl) (hslot : ∀ i, cl ≠ .upvalue i) :
    (c.captureAddLocal n).Binds n cl := by
  unfold Context.captureAddLocal
  split
  · cases cl with
    | param i => exact ⟨List.mem_append_left _ h.1, h.2⟩
    | upvalue i => exact absurd rfl (hslot i)
    | named dropped => exact ⟨h.1, fun hd => List.mem_append_left _ (h.2 hd)⟩
  · exact h

/-- A name that becomes a local is in the table, unless the table is full. -/
theorem addLocal_binds (hparam : c.currentParamSlot n = none) :
    (c.captureAddLocal n).Binds n (.named c.full) := by
  unfold Context.captureAddLocal Context.full
  split
  · exact ⟨hparam, fun _ => List.mem_append_right _ (List.mem_singleton_self n)⟩
  · next hroom => exact ⟨hparam, fun hfull => absurd (Nat.le_of_not_lt hroom) (of_decide_eq_false hfull)⟩

variable {u t : Parser} {o : Occurrence} {x : NameUse} {cl : Classified}

/-- An access to a local is one to its slot or by its name. -/
theorem is_of_plain {l : Loader} (hl : c.Plain n l) (hb : c.Binds n cl) (hlocal : n ∈ c.captureCtx.localNames) :
    (NameUse.load l).Is n cl ∧ (NameUse.store l).Is n cl := by
  unfold Context.Plain at hl
  cases cl with
  | param i =>
    rw [hb.2] at hl
    cases hl
    exact ⟨.inl rfl, .inr rfl⟩
  | upvalue i => exact absurd hlocal hb.1
  | named dropped =>
    rw [hb.1] at hl
    obtain ⟨cache, rfl⟩ := hl
    exact ⟨⟨cache, .inl rfl⟩, cache, .inr rfl⟩

theorem is_of_captured {i : Nat} (hb : c.Binds n cl) (hlocal : n ∉ c.captureCtx.localNames)
    (hkept : ∀ d, cl = .named d → d = false) (hi : (c.captured n).captureSlot n = i) :
    (NameUse.load (.upvalue i)).Is n cl ∧ (NameUse.store (.upvalue i)).Is n cl := by
  cases cl with
  | param j => exact absurd hb.1 hlocal
  | upvalue j =>
    unfold Context.captured at hi
    rw [if_pos hb.2.1, hb.2.2] at hi
    subst hi
    exact ⟨.inl rfl, .inr rfl⟩
  | named dropped => exact absurd (hb.2 (hkept _ rfl)) hlocal

theorem captured_capturing : (c.captured n).capturing = c.capturing := by
  unfold Context.captured
  split <;> rfl

theorem noted_capturing : (c.noted n).capturing = c.capturing := by
  obtain ⟨names, hnoted⟩ := c.noted_eq n
  rw [hnoted]

theorem addLocal_capturing : (c.captureAddLocal n).capturing = c.capturing := by
  unfold Context.captureAddLocal
  split <;> rfl

theorem noted_captureCtx : (c.noted n).captureCtx = c.captureCtx := by
  obtain ⟨names, hnoted⟩ := c.noted_eq n
  rw [hnoted]

/-- A name that has been classified stays so, and its uses are those of its class. -/
theorem emitted_binds (hcapturing : u.ctx.capturing = true) (h : Emitted n u t o x)
    (hb : u.ctx.Binds n cl) : t.ctx.capturing = true ∧ t.ctx.Binds n cl ∧
      (o ≠ .loopVar → (∀ d, cl = .named d → d = false) → x.Is n cl) := by
  cases h with
  | read hrun hreports hcode =>
    rcases emitLoad_run hcapturing hrun hreports with ⟨hlocal, l, hl, hap⟩ | ⟨hlocal, hap⟩
    · cases NameUse.words_inj (List.append_cancel_left (hcode.symm.trans hap.code))
      rw [hap.ctx]
      exact ⟨hcapturing, hb, fun _ _ => (is_of_plain hl hb hlocal).1⟩
    · cases NameUse.words_inj (List.append_cancel_left (hcode.symm.trans hap.code))
      rw [hap.ctx, captured_capturing]
      exact ⟨hcapturing, binds_captured hb, fun _ hkept => (is_of_captured hb hlocal hkept rfl).1⟩
  | write hrun hreports hcode =>
    have hb' := binds_noted hb
    rcases emitStore_run hcapturing hrun hreports with
      ⟨hlocal, l, hl, hap⟩ | ⟨hlocal, hap⟩ | ⟨hlocal, hcaptured, hap⟩
    · cases NameUse.words_inj (List.append_cancel_left (hcode.symm.trans hap.code))
      rw [hap.ctx, noted_capturing]
      exact ⟨hcapturing, hb', fun _ _ => (is_of_plain hl hb hlocal).2⟩
    · cases NameUse.words_inj (List.append_cancel_left (hcode.symm.trans hap.code))
      rw [hap.ctx, captured_capturing, noted_capturing]
      have hlocal' : n ∉ (u.ctx.noted n).captureCtx.localNames := by rwa [noted_captureCtx]
      exact ⟨hcapturing, binds_captured hb', fun _ hkept => (is_of_captured hb' hlocal' hkept rfl).2⟩
    · rw [hap.ctx, addLocal_capturing, noted_capturing]
      have hslot : ∀ i, cl ≠ .upvalue i := by
        rintro i rfl
        exact hcaptured hb.2.1
      refine ⟨hcapturing, binds_addLocal hb' hslot, fun _ hkept => ?_⟩
      cases cl with
      | param i => exact absurd hb.1 hlocal
      | upvalue i => exact absurd rfl (hslot i)
      | named dropped => exact absurd (hb.2 (hkept _ rfl)) hlocal
  | @fused x op rhs ws hrun hreports hcode _ =>
    rcases emitLoad_run hcapturing hrun hreports with ⟨hlocal, l, hl, hap⟩ | ⟨hlocal, hap⟩
    · cases NameUse.words_inj (List.append_cancel_left (hcode.symm.trans hap.code))
      rw [hap.ctx]
      exact ⟨hcapturing, hb, fun _ _ => (is_of_plain hl hb hlocal).2⟩
    · cases NameUse.words_inj (List.append_cancel_left (hcode.symm.trans hap.code))
      rw [hap.ctx, captured_capturing]
      exact ⟨hcapturing, binds_captured hb, fun _ hkept => (is_of_captured hb hlocal hkept rfl).2⟩
  | loopVar hrun hreports hcode =>
    have hap := emitDefine_run hcapturing hrun
    rw [hap.ctx]
    unfold Context.registered
    refine ⟨?_, ?_, fun h => absurd rfl h⟩
    · split <;> simp only [addLocal_capturing, noted_capturing, hcapturing]
    · split
      · exact binds_noted hb
      · next hunseen =>
        refine binds_addLocal (binds_noted hb) ?_
        rintro i rfl
        exact hunseen (.inr hb.2.1)

/-- The first use of a name classifies it. -/
theorem emitted_unseen (hcapturing : u.ctx.capturing = true) (h : Emitted n u t o x)
    (hu : u.ctx.Unseen n) :
    t.ctx.capturing = true ∧ t.ctx.Binds n (x.classify u.ctx.full) := by
  have hfull : (u.ctx.noted n).full = u.ctx.full := by
    unfold Context.full
    rw [noted_captureCtx]
  have hparam : (u.ctx.noted n).currentParamSlot n = none := by
    obtain ⟨names, hnoted⟩ := u.ctx.noted_eq n
    rw [hnoted]
    exact hu.notParam
  cases h with
  | read hrun hreports hcode =>
    rcases emitLoad_run hcapturing hrun hreports with ⟨hlocal, _⟩ | ⟨hlocal, hap⟩
    · exact absurd hlocal hu.notLocal
    · cases NameUse.words_inj (List.append_cancel_left (hcode.symm.trans hap.code))
      rw [hap.ctx, captured_capturing]
      exact ⟨hcapturing, captured_binds hlocal⟩
  | write hrun hreports hcode =>
    rcases emitStore_run hcapturing hrun hreports with
      ⟨hlocal, _⟩ | ⟨hlocal, hap⟩ | ⟨hlocal, hcaptured, hap⟩
    · exact absurd hlocal hu.notLocal
    · cases NameUse.words_inj (List.append_cancel_left (hcode.symm.trans hap.code))
      rw [hap.ctx, captured_capturing, noted_capturing]
      have hlocal' : n ∉ (u.ctx.noted n).captureCtx.localNames := by rwa [noted_captureCtx]
      exact ⟨hcapturing, captured_binds hlocal'⟩
    · cases NameUse.words_inj (List.append_cancel_left (hcode.symm.trans hap.code))
      rw [hap.ctx, addLocal_capturing, noted_capturing, ← hfull]
      exact ⟨hcapturing, addLocal_binds hparam⟩
  | @fused x op rhs ws hrun hreports hcode hfused =>
    rcases emitLoad_run hcapturing hrun hreports with ⟨hlocal, _⟩ | ⟨hlocal, hap⟩
    · exact absurd hlocal hu.notLocal
    · cases NameUse.words_inj (List.append_cancel_left (hcode.symm.trans hap.code))
      rw [hap.ctx, captured_capturing]
      exact ⟨hcapturing, captured_binds hlocal⟩
  | loopVar hrun hreports hcode =>
    have hap := emitDefine_run hcapturing hrun
    cases NameUse.words_inj (List.append_cancel_left (hcode.symm.trans hap.code))
    have hunseen : ¬ (n ∈ u.ctx.captureCtx.localNames ∨ n ∈ u.ctx.captureCtx.capturedNames) :=
      fun h => h.elim hu.notLocal hu.notCaptured
    rw [hap.ctx, Context.registered, if_neg hunseen, addLocal_capturing, noted_capturing, ← hfull]
    exact ⟨hcapturing, addLocal_binds hparam⟩

/-- A definition is one of the name itself. -/
theorem emitted_define {m : Nat} (hcapturing : u.ctx.capturing = true)
    (h : Emitted n u t o x) (hx : x = .define m) : m = n := by
  subst hx
  generalize hy : NameUse.define m = y at h
  cases h with
  | read hrun hreports hcode =>
    subst hy
    rcases emitLoad_run hcapturing hrun hreports with ⟨_, l, _, hap⟩ | ⟨_, hap⟩ <;>
      cases NameUse.words_inj (List.append_cancel_left (hcode.symm.trans hap.code))
  | write hrun hreports hcode =>
    subst hy
    rcases emitStore_run hcapturing hrun hreports with ⟨_, l, _, hap⟩ | ⟨_, hap⟩ | ⟨_, _, hap⟩ <;>
      cases NameUse.words_inj (List.append_cancel_left (hcode.symm.trans hap.code))
    rfl
  | @fused x op rhs ws hrun hreports hcode _ =>
    rcases emitLoad_run hcapturing hrun hreports with ⟨_, l, _, hap⟩ | ⟨_, hap⟩ <;>
      cases NameUse.words_inj (List.append_cancel_left (hcode.symm.trans hap.code)) <;> cases hy
  | loopVar hrun hreports hcode =>
    subst hy
    have hap := emitDefine_run hcapturing hrun
    cases NameUse.words_inj (List.append_cancel_left (hcode.symm.trans hap.code))
    rfl

end Classify

/-! The body: its blocks, as they are compiled and as they run. -/

/-- What the parser does between two uses of a name: other names may be classified. -/
structure Context.Extends (n : Nat) (c d : Context) : Prop where
  capturing : d.capturing = c.capturing
  currentParams : d.currentParams = c.currentParams
  localNames : c.captureCtx.localNames <+: d.captureCtx.localNames
  capturedNames : c.captureCtx.capturedNames <+: d.captureCtx.capturedNames
  notLocal : n ∈ d.captureCtx.localNames → n ∈ c.captureCtx.localNames
  notCaptured : n ∈ d.captureCtx.capturedNames → n ∈ c.captureCtx.capturedNames

/-- The uses of a name in a body. With each use stands whether the table of local names was
full; a block has a scope of its own, or none, as the body of a loop with a condition. -/
inductive BodyCode
  | done
  | use (o : Occurrence) (x : NameUse) (full : Bool) (rest : BodyCode)
  | block (ownScope : Bool) (inner rest : BodyCode)

/-- The parser compiles the body. -/
inductive Compiled (n : Nat) : Parser → BodyCode → Parser → Prop
  | done (u : Parser) : Compiled n u .done u
  | other {u u' t : Parser} {c : BodyCode} : u.ctx.Extends n u'.ctx → Compiled n u' c t →
      Compiled n u c t
  | use {u u' t : Parser} {o : Occurrence} {x : NameUse} {rest : BodyCode} : Emitted n u u' o x →
      Compiled n u' rest t → Compiled n u (.use o x u.ctx.full rest) t
  | block {u u' t : Parser} {ownScope : Bool} {inner rest : BodyCode} : Compiled n u inner u' →
      Compiled n u' rest t → Compiled n u (.block ownScope inner rest) t

namespace BodyCode

/-- How the name is classified behind the body. -/
def seen : BodyCode → Option Classified → Option Classified
  | done, cl => cl
  | use _ x full rest, cl => rest.seen (some (cl.getD (x.classify full)))
  | block _ inner rest, cl => rest.seen (inner.seen cl)

/-- A local name was not dropped, and its later uses stand in the block that defines it or in
the blocks inside. -/
def Fits : BodyCode → Option Classified → Bool → Prop
  | done, _, _ => True
  | use o x full rest, cl, visible =>
      (o ≠ .loopVar → ∀ dropped, cl = some (.named dropped) → dropped = false ∧ visible = true) ∧
        rest.Fits (some (cl.getD (x.classify full))) (visible || x.isDefine)
  | block _ inner rest, cl, visible => inner.Fits cl visible ∧ rest.Fits (inner.seen cl) visible

/-- Every use of the name is one of its class. -/
def Good (n : Nat) : BodyCode → Option Classified → Bool → Prop
  | done, _, _ => True
  | use o x full rest, cl, visible =>
      (o ≠ .loopVar → ∀ k, cl = some k → x.Is n k ∧ ∀ dropped, k = .named dropped → visible = true) ∧
        (∀ m, x = .define m → m = n) ∧
        rest.Good n (some (cl.getD (x.classify full))) (visible || x.isDefine)
  | block _ inner rest, cl, visible =>
      inner.Good n cl visible ∧ rest.Good n (inner.seen cl) visible

end BodyCode

/-- What the tables say of a name, classified or not. -/
def Context.Knows (c : Context) (n : Nat) : Option Classified → Prop
  | none => c.Unseen n
  | some cl => c.Binds n cl

section Compile
variable {n : Nat} {c d : Context} {u t : Parser} {b : BodyCode} {cl : Option Classified}

theorem knows_extends (h : c.Extends n d) (hk : c.Knows n cl) : d.Knows n cl := by
  have hslot : d.currentParamSlot n = c.currentParamSlot n := by
    unfold Context.currentParamSlot
    rw [h.currentParams]
  rcases cl with _ | i | i | dropped
  · exact ⟨fun hl => hk.notLocal (h.notLocal hl), fun hc => hk.notCaptured (h.notCaptured hc),
      hslot.trans hk.notParam⟩
  · exact ⟨h.localNames.subset hk.1, hslot.trans hk.2⟩
  · refine ⟨fun hl => hk.1 (h.notLocal hl), h.capturedNames.subset hk.2.1, ?_⟩
    obtain ⟨more, hmore⟩ := h.capturedNames
    rw [← hk.2.2]
    unfold Context.captureSlot
    rw [← hmore, List.idxOf_append_of_mem hk.2.1]
  · exact ⟨hslot.trans hk.1, fun hd => h.localNames.subset (hk.2 hd)⟩

/-- One use: the name is classified by it, if it has not been before. -/
theorem emitted_knows {o : Occurrence} {x : NameUse} (hcapturing : u.ctx.capturing = true)
    (h : Emitted n u t o x) (hk : u.ctx.Knows n cl) :
    t.ctx.capturing = true ∧ t.ctx.Knows n (some (cl.getD (x.classify u.ctx.full))) := by
  cases cl with
  | none => exact emitted_unseen hcapturing h hk
  | some k =>
    obtain ⟨hcapturing', hb, -⟩ := emitted_binds hcapturing h hk
    exact ⟨hcapturing', hb⟩

theorem compiled_knows (hcapturing : u.ctx.capturing = true) (h : Compiled n u b t)
    (hk : u.ctx.Knows n cl) : t.ctx.capturing = true ∧ t.ctx.Knows n (b.seen cl) := by
  induction h generalizing cl with
  | done u => exact ⟨hcapturing, hk⟩
  | other hext _ ih => exact ih (hext.capturing.trans hcapturing) (knows_extends hext hk)
  | use hemit _ ih =>
    obtain ⟨hcapturing', hk'⟩ := emitted_knows hcapturing hemit hk
    exact ih hcapturing' hk'
  | block _ _ ihinner ihrest =>
    obtain ⟨hcapturing', hk'⟩ := ihinner hcapturing hk
    exact ihrest hcapturing' hk'

/-- What is compiled under the conditions uses the name as it was classified. -/
theorem compiled_good {visible : Bool} (hcapturing : u.ctx.capturing = true) (h : Compiled n u b t)
    (hk : u.ctx.Knows n cl) (hfits : b.Fits cl visible) : b.Good n cl visible := by
  induction h generalizing cl visible with
  | done u => exact trivial
  | other hext _ ih => exact ih (hext.capturing.trans hcapturing) (knows_extends hext hk) hfits
  | use hemit _ ih =>
    obtain ⟨hcapturing', hk'⟩ := emitted_knows hcapturing hemit hk
    refine ⟨fun ho k hcl => ?_, fun m => emitted_define hcapturing hemit, ih hcapturing' hk' hfits.2⟩
    subst hcl
    have hkept := fun dropped hd => hfits.1 ho dropped (congrArg some hd)
    exact ⟨(emitted_binds hcapturing hemit hk).2.2 ho fun dropped hd => (hkept dropped hd).1,
      fun dropped hd => (hkept dropped hd).2⟩
  | block hinner _ ihinner ihrest =>
    obtain ⟨hcapturing', hk'⟩ := compiled_knows hcapturing hinner hk
    exact ⟨ihinner hcapturing hk hfits.1, ihrest hcapturing' hk' hfits.2⟩

end Compile

/-! The run of the body. -/

/-- The maps, with values changed and names added: what is bound stays bound. -/
structure Rebinds (n : Nat) (s t : ScopeStack Nat AerVal) : Prop where
  length : t.scopes.length = s.scopes.length
  floors : t.floors = s.floors
  bound : ∀ i, (s.valueAt n i).isSome → (t.valueAt n i).isSome

namespace NameUse

/-- What an instruction that finds its variable by the name does to the scopes. -/
def op (v : AerVal) : NameUse → Option ScopeOp
  | load (.name m c) => some (.load m c)
  | store (.name m c) => some (.store m c v)
  | define m => some (.define m v)
  | load _ | store _ => none

/-- A slot or an upvalue is read or written in place. -/
def Effect (n : Nat) (x : NameUse) (s t : ScopeStack Nat AerVal) : Prop :=
  ∃ v, match x.op v with
    | some op => ∃ seen, op.spec s = some (seen, t)
    | none => Rebinds n s t

/-- The map in which an instruction finds or makes its variable. -/
def place (s : ScopeStack Nat AerVal) : NameUse → Option Nat
  | load (.name m _) | store (.name m _) => s.nearest m
  | define _ => some (s.scopes.length - 1)
  | load _ | store _ => none

end NameUse

/-- A use of the name while the body runs: how the name was classified at its first use, if
that was before, and the scopes in which the use runs. -/
structure BodyEvent where
  cls : Option Classified
  occ : Occurrence
  use : NameUse
  scopes : ScopeStack Nat AerVal

/-- The use is of the parameter, of the upvalue or of the closure's own variable that the name
was at its first use. -/
def BodyEvent.Stable (n : Nat) (e : BodyEvent) : Prop :=
  e.occ ≠ .loopVar → ∀ cl, e.cls = some cl →
    match cl with
    | .param _ | .upvalue _ => e.use.Is n cl
    | .named _ =>
        ∃ i, e.scopes.nearest n = some i ∧ e.scopes.floor ≤ i ∧ e.use.place e.scopes = some i

def opened (ownScope : Bool) (s : ScopeStack Nat AerVal) : ScopeStack Nat AerVal :=
  if ownScope then s.push else s

/-- The scopes that a block has opened are gone. -/
def closedTo (s t : ScopeStack Nat AerVal) : ScopeStack Nat AerVal :=
  { t with scopes := t.scopes.take s.scopes.length }

/-- A run of the body, whole or cut short. A block may be passed over, or run, whole or cut
short, before it is met again or passed over. -/
inductive RunsBody (n : Nat) : BodyCode → Option Classified → ScopeStack Nat AerVal →
    List BodyEvent → ScopeStack Nat AerVal → Prop
  | stop (b : BodyCode) (cl : Option Classified) (s : ScopeStack Nat AerVal) : RunsBody n b cl s [] s
  | other {b : BodyCode} {cl : Option Classified} {s s' t : ScopeStack Nat AerVal}
      {es : List BodyEvent} : Rebinds n s s' → RunsBody n b cl s' es t → RunsBody n b cl s es t
  | use {o : Occurrence} {x : NameUse} {full : Bool} {rest : BodyCode} {cl : Option Classified}
      {s s' t : ScopeStack Nat AerVal} {es : List BodyEvent} : x.Effect n s s' →
      RunsBody n rest (some (cl.getD (x.classify full))) s' es t →
      RunsBody n (.use o x full rest) cl s (⟨cl, o, x, s⟩ :: es) t
  | skip {ownScope : Bool} {inner rest : BodyCode} {cl : Option Classified}
      {s t : ScopeStack Nat AerVal} {es : List BodyEvent} :
      RunsBody n rest (inner.seen cl) s es t → RunsBody n (.block ownScope inner rest) cl s es t
  | enter {ownScope : Bool} {inner rest : BodyCode} {cl : Option Classified}
      {s w t : ScopeStack Nat AerVal} {es es' : List BodyEvent} :
      RunsBody n inner cl (opened ownScope s) es w →
      RunsBody n (.block ownScope inner rest) cl (closedTo s w) es' t →
      RunsBody n (.block ownScope inner rest) cl s (es ++ es') t

/-- The call in progress has bound the name in one of its own maps. -/
def Owns (n : Nat) (s : ScopeStack Nat AerVal) : Prop :=
  ∃ i, s.floor ≤ i ∧ (s.valueAt n i).isSome

section Scopes
variable {n : Nat} {s t u : ScopeStack Nat AerVal}

theorem Rebinds.trans (h : Rebinds n s t) (h' : Rebinds n t u) : Rebinds n s u where
  length := h'.length.trans h.length
  floors := h'.floors.trans h.floors
  bound i hi := h'.bound i (h.bound i hi)

theorem Rebinds.owns (h : Rebinds n s t) (ho : Owns n s) : Owns n t := by
  obtain ⟨i, hfloor, hbound⟩ := ho
  refine ⟨i, ?_, h.bound i hbound⟩
  unfold ScopeStack.floor
  rwa [h.floors]

theorem lt_of_bound {i : Nat} (h : (s.valueAt n i).isSome) : i < s.scopes.length := by
  by_contra hge
  unfold ScopeStack.valueAt at h
  rw [List.getElem?_eq_none (Nat.le_of_not_lt hge)] at h
  cases h

/-- A name that the call has bound is found in one of its own maps. -/
theorem nearest_of_owns (h : Owns n s) : ∃ i, s.nearest n = some i ∧ s.floor ≤ i := by
  obtain ⟨i, hfloor, hbound⟩ := h
  have hlt := lt_of_bound hbound
  have hmem : i ∈ (List.range' s.floor (s.scopes.length - s.floor)).reverse := by
    rw [List.mem_reverse, List.mem_range'_1]
    omega
  unfold ScopeStack.nearest ScopeStack.chain
  rw [List.find?_append]
  cases hfind : (List.range' s.floor (s.scopes.length - s.floor)).reverse.find?
      (fun i => (s.valueAt n i).isSome) with
  | none => exact absurd hbound (List.find?_eq_none.mp hfind i hmem)
  | some j =>
    refine ⟨j, rfl, ?_⟩
    have hj := List.mem_of_find?_eq_some hfind
    rw [List.mem_reverse, List.mem_range'_1] at hj
    exact hj.1

theorem rebinds_bind (i m : Nat) (v : AerVal) : Rebinds n s (s.bind i m v) where
  length := List.length_modify _ _ _
  floors := rfl
  bound j hj := by
    unfold ScopeStack.valueAt ScopeStack.bind at *
    rw [List.getElem?_modify]
    cases hs : s.scopes[j]? with
    | none =>
      rw [hs] at hj
      cases hj
    | some f =>
      rw [hs] at hj
      change ((if i = j then Function.update f m (some v) else f) n).isSome
      split
      · by_cases hm : n = m
        · rw [hm, Function.update_self]
          rfl
        · rwa [Function.update_of_ne hm]
      · exact hj

theorem rebinds_effect {x : NameUse} (h : x.Effect n s t) : Rebinds n s t := by
  obtain ⟨v, h⟩ := h
  have hrefl : Rebinds n s s := ⟨rfl, rfl, fun _ => id⟩
  rcases x with (⟨m, c⟩ | _ | _) | (⟨m, c⟩ | _ | _) | m
  · obtain ⟨seen, h⟩ := h
    cases h
    exact hrefl
  · exact h
  · exact h
  · obtain ⟨seen, h⟩ := h
    cases h
    unfold ScopeStack.store
    split
    · exact rebinds_bind _ _ _
    · exact rebinds_bind _ _ _
  · exact h
  · exact h
  · obtain ⟨seen, h⟩ := h
    cases h
    exact rebinds_bind _ _ _

/-- A definition binds the name in the innermost map. -/
theorem owns_define (hscope : s.floor < s.scopes.length) (h : (NameUse.define n).Effect n s t) :
    Owns n t := by
  obtain ⟨v, seen, h⟩ := h
  cases h
  refine ⟨s.scopes.length - 1, Nat.le_sub_one_of_lt hscope, ?_⟩
  unfold ScopeStack.define
  rw [ScopeStack.valueAt_bind (by omega), if_pos ⟨rfl, rfl⟩]
  rfl

theorem owns_opened (ownScope : Bool) (h : Owns n s) : Owns n (opened ownScope s) := by
  unfold opened
  split
  · obtain ⟨i, hfloor, hbound⟩ := h
    refine ⟨i, hfloor, ?_⟩
    rwa [ScopeStack.valueAt_push, if_pos (lt_of_bound hbound)]
  · exact h

theorem rebinds_closed {ownScope : Bool} (h : Rebinds n (opened ownScope s) t) :
    Rebinds n s (closedTo s t) := by
  have hlength : s.scopes.length ≤ (opened ownScope s).scopes.length := by
    unfold opened ScopeStack.push
    split
    · rw [List.length_append]
      exact Nat.le_add_right _ _
    · exact le_rfl
  have hfloors : (opened ownScope s).floors = s.floors := by
    unfold opened ScopeStack.push
    split <;> rfl
  refine ⟨?_, h.floors.trans hfloors, fun i hi => ?_⟩
  · unfold closedTo
    rw [List.length_take, h.length]
    omega
  · have hlt := lt_of_bound hi
    have hopened : ((opened ownScope s).valueAt n i).isSome := by
      unfold opened
      split
      · rwa [ScopeStack.valueAt_push, if_pos hlt]
      · exact hi
    have hkept := h.bound i hopened
    unfold ScopeStack.valueAt closedTo at *
    rwa [List.getElem?_take_of_lt hlt]

/-- A run leaves the maps of the scopes around it in place. -/
theorem rebinds_run {b : BodyCode} {cl : Option Classified} {es : List BodyEvent}
    (h : RunsBody n b cl s es t) : Rebinds n s t := by
  induction h with
  | stop b cl s => exact ⟨rfl, rfl, fun _ => id⟩
  | other hr _ ih => exact hr.trans ih
  | use heffect _ ih => exact (rebinds_effect heffect).trans ih
  | skip _ ih => exact ih
  | enter _ _ ihinner ihrest => exact (rebinds_closed ihinner).trans ihrest

theorem opened_floor_lt (ownScope : Bool) (h : s.floor < s.scopes.length) :
    (opened ownScope s).floor < (opened ownScope s).scopes.length := by
  unfold opened
  split
  · change s.floor < (s.scopes ++ [_]).length
    rw [List.length_append]
    exact Nat.lt_add_right _ h
  · exact h

theorem Rebinds.floor_lt (h : Rebinds n s t) (hs : s.floor < s.scopes.length) :
    t.floor < t.scopes.length := by
  unfold ScopeStack.floor
  rwa [h.floors, h.length]

/-- One use of a name that the body has bound where it is visible. -/
theorem stable_use {o : Occurrence} {x : NameUse} {cl : Option Classified} {visible : Bool}
    (hgood : o ≠ .loopVar → ∀ k, cl = some k → x.Is n k ∧ ∀ dropped, k = .named dropped → visible = true)
    (howns : visible = true → Owns n s) : BodyEvent.Stable n ⟨cl, o, x, s⟩ := by
  intro ho k hk
  obtain ⟨his, hvisible⟩ := hgood ho k hk
  cases k with
  | param i => exact his
  | upvalue i => exact his
  | named dropped =>
    obtain ⟨i, hnearest, hfloor⟩ := nearest_of_owns (howns (hvisible dropped rfl))
    refine ⟨i, hnearest, hfloor, ?_⟩
    obtain ⟨c, rfl | rfl⟩ := his <;> exact hnearest

/-- A run of a body whose uses are those of the name's class. -/
theorem stable_run {b : BodyCode} {cl : Option Classified} {visible : Bool} {es : List BodyEvent}
    (hgood : b.Good n cl visible) (howns : visible = true → Owns n s)
    (hscope : s.floor < s.scopes.length) (h : RunsBody n b cl s es t) :
    ∀ e ∈ es, e.Stable n := by
  induction h generalizing visible with
  | stop b cl s => exact fun e he => nomatch he
  | other hr _ ih => exact ih hgood (fun hv => hr.owns (howns hv)) (hr.floor_lt hscope)
  | @use o x full rest cl s s' t es heffect _ ih =>
    have hr := rebinds_effect heffect
    intro e he
    rcases List.mem_cons.mp he with rfl | he
    · exact stable_use hgood.1 howns
    · refine ih hgood.2.2 (fun hv => ?_) (hr.floor_lt hscope) e he
      rcases Bool.or_eq_true_iff.mp hv with hv | hdefine
      · exact hr.owns (howns hv)
      · cases x with
        | define m =>
          cases hgood.2.1 m rfl
          exact owns_define hscope heffect
        | load l => cases hdefine
        | store l => cases hdefine
  | skip _ ih => exact ih hgood.2 howns hscope
  | enter hinner _ ihinner ihrest =>
    have hr := rebinds_closed (rebinds_run hinner)
    intro e he
    rcases List.mem_append.mp he with he | he
    · exact ihinner hgood.1 (fun hv => owns_opened _ (howns hv)) (opened_floor_lt _ hscope) e he
    · exact ihrest hgood (fun hv => hr.owns (howns hv)) (hr.floor_lt hscope) e he

end Scopes

/-- The body of a capturing function expression begins: its parameters are its names. -/
structure Context.BeginsBody (c : Context) : Prop where
  capturing : c.capturing = true
  params : ∀ n, n ∈ c.captureCtx.localNames ↔ n ∈ c.currentParams
  captured : c.captureCtx.capturedNames = []

/-- One parameter is recorded as a local and gets its slot. -/
theorem emitDefineParam_run {name : Nat} {u t : Parser} (hbegins : u.ctx.BeginsBody)
    (hroom : u.ctx.captureCtx.localNames.length < maxTrackedLocals)
    (hslot : u.ctx.currentParams.length < maxParams)
    (h : (emitDefineParam name).run execBasic u = .done () t) :
    t.ctx.capturing = true ∧ t.ctx.currentParams = u.ctx.currentParams ++ [name] ∧
      t.ctx.captureCtx.capturedNames = [] ∧
      t.ctx.captureCtx.localNames = if name ∈ u.ctx.captureCtx.localNames then
        u.ctx.captureCtx.localNames else u.ctx.captureCtx.localNames ++ [name] := by
  obtain ⟨more, hnoted⟩ := u.ctx.noted_eq name
  unfold emitDefineParam context at h
  rw [run_bind, registerLocal_run hbegins.capturing, Outcome.done_andThen, run_bind, run_perform'] at h
  have hsame : (u.ctx.registered name).currentParams = u.ctx.currentParams ∧
      (u.ctx.registered name).capturing = true ∧
      (u.ctx.registered name).captureCtx.capturedNames = [] ∧
      (u.ctx.registered name).captureCtx.localNames = if name ∈ u.ctx.captureCtx.localNames then
        u.ctx.captureCtx.localNames else u.ctx.captureCtx.localNames ++ [name] := by
    unfold Context.registered Context.captureAddLocal
    rw [hnoted, hbegins.captured]
    simp only [List.not_mem_nil, or_false, if_pos hroom]
    split
    · exact ⟨rfl, hbegins.capturing, hbegins.captured, rfl⟩
    · exact ⟨rfl, hbegins.capturing, hbegins.captured, rfl⟩
  obtain ⟨hparams, hcapturing, hcaptured, hlocals⟩ := hsame
  change ((if (u.ctx.registered name).currentParams.length < maxParams then _ else _ : P Unit).run
    execBasic _) = _ at h
  rw [hparams, if_pos hslot] at h
  cases h
  refine ⟨hcapturing, ?_, hcaptured, hlocals⟩
  change (u.ctx.registered name).currentParams ++ [name] = _
  rw [hparams]

/-- The parameters that the parser accepts fit into the tables. -/
theorem beginsBody_params {names : List Nat} {u t : Parser} (hbegins : u.ctx.BeginsBody)
    (hroom : u.ctx.captureCtx.localNames.length + names.length ≤ maxTrackedLocals)
    (hslots : u.ctx.currentParams.length + names.length ≤ maxParams)
    (h : (emitDefineParams names).run execBasic u = .done () t) : t.ctx.BeginsBody := by
  induction names generalizing u with
  | nil =>
    cases h
    exact hbegins
  | cons name names ih =>
    obtain ⟨_, v, hparam, h⟩ := run_bind_done.mp h
    rw [List.length_cons] at hroom hslots
    obtain ⟨hcapturing, hparams, hcaptured, hlocals⟩ :=
      emitDefineParam_run hbegins (by omega) (by omega) hparam
    refine ih ⟨hcapturing, fun n => ?_, hcaptured⟩ ?_ ?_ h
    · rw [hlocals, hparams, List.mem_append, List.mem_singleton, ← hbegins.params n]
      split
      · next hmem =>
        refine ⟨.inl, fun hn => hn.elim id ?_⟩
        rintro rfl
        exact hmem
      · rw [List.mem_append, List.mem_singleton]
    · rw [hlocals]
      split
      · omega
      · rw [List.length_append, List.length_singleton]
        omega
    · rw [hparams, List.length_append, List.length_singleton]
      omega

/-- The parameters are classified before the body. -/
def Context.begun (c : Context) (n : Nat) : Option Classified :=
  (c.currentParamSlot n).map Classified.param

theorem Context.BeginsBody.knows {c : Context} (h : c.BeginsBody) (n : Nat) : c.Knows n (c.begun n) := by
  unfold Context.begun
  cases hslot : c.currentParamSlot n with
  | none =>
    have hnot : n ∉ c.currentParams := by
      intro hmem
      have hnone := List.findIdx?_eq_none_iff.mp hslot n hmem
      simp at hnone
    have hempty : n ∉ c.captureCtx.capturedNames := by
      rw [h.captured]
      exact List.not_mem_nil
    exact ⟨fun hl => hnot ((h.params n).mp hl), hempty, hslot⟩
  | some i =>
    have hmem : n ∈ c.currentParams := by
      obtain ⟨hlt, heq, -⟩ := List.findIdx?_eq_some_iff_getElem.mp hslot
      have hn := eq_of_beq heq
      exact hn ▸ List.getElem_mem hlt
    exact ⟨(h.params n).mpr hmem, hslot⟩

/-- A statement or an expression that does not use the name is passed over. -/
theorem extends_run {α : Type} {p : P α} {env : Env} {fuel imports n : Nat} {s t : Parser} {a : α}
    (hp : ∀ {Q : Property}, Q.Closed → Q.holds p) (h : p.run (exec env fuel imports) s = .done a t)
    (hlocal : n ∈ t.ctx.captureCtx.localNames → n ∈ s.ctx.captureCtx.localNames)
    (hcaptured : n ∈ t.ctx.captureCtx.capturedNames → n ∈ s.ctx.captureCtx.capturedNames) :
    s.ctx.Extends n t.ctx := by
  have b : Basis (exec env fuel imports) (· ≤ ·) :=
    execWhile_true env fuel imports ▸ .execWhile le_refl (fun _ _ _ => le_trans)
      (fun m n h => by omega) (fun _ _ i _ _ _ _ => i.le_succ) imports
  have hk : s.ctx.Keeps (· ≤ ·) t.ctx := hp b.closed s a t h
  exact ⟨hk.capturing, hk.currentParams, hk.localNames, hk.capturedNames, hlocal, hcaptured⟩

/-- In the body of a capturing function expression, whatever names and blocks it has, every use
of a name behind its first one is of what that one has made it, provided the table of locals had
room for the name, and its uses stand in the block of its definition or inside. -/
theorem captures_stable {n : Nat} {u t : Parser} {b : BodyCode} {s w : ScopeStack Nat AerVal}
    {es : List BodyEvent} (hbegins : u.ctx.BeginsBody) (hcompiled : Compiled n u b t)
    (hfits : b.Fits (u.ctx.begun n) false) (hscope : s.floor < s.scopes.length)
    (hrun : RunsBody n b (u.ctx.begun n) s es w) : ∀ e ∈ es, e.Stable n :=
  stable_run (compiled_good hbegins.capturing hcompiled (hbegins.knows n) hfits)
    (absurd · Bool.false_ne_true) hscope hrun

/-- The body of a closure without parameters begins. -/
def bodyStart : Parser :=
  { Parser.onText "" with ctx := { Context.init with capturing := true, functionDepth := 2 } }

theorem beginsBody_bodyStart : bodyStart.ctx.BeginsBody := ⟨rfl, fun _ => Iff.rfl, rfl⟩

/-- The scopes of a call that has bound nothing. -/
def emptyCall : ScopeStack Nat AerVal := ⟨[fun _ => none, fun _ => none], [1]⟩

def writeNames : List Nat → P Unit
  | [] => return
  | n :: ns => do
      emitStore n
      writeNames ns

/-- The state behind a program that is known to end. -/
def after (p : P Unit) (u : Parser) : Parser := (p.run execBasic u).state

def emitsUse (p : P Unit) (u : Parser) (x : NameUse) : Bool :=
  (p.run execBasic u).isDone && (after p u).reports == u.reports &&
    (after p u).chunk.code == u.chunk.code ++ x.words

theorem of_emitsUse {p : P Unit} {u : Parser} {x : NameUse} (h : emitsUse p u x = true) :
    p.run execBasic u = .done () (after p u) ∧ (after p u).reports = u.reports ∧
      (after p u).chunk.code = u.chunk.code ++ x.words := by
  simp only [emitsUse, Bool.and_eq_true, beq_iff_eq] at h
  exact ⟨Outcome.eq_done_of_isDone h.1.1, h.1.2, h.2⟩

theorem emitted_write {n : Nat} {u : Parser} {x : NameUse} (h : emitsUse (emitStore n) u x = true) :
    Emitted n u (after (emitStore n) u) .write x :=
  .write (of_emitsUse h).1 (of_emitsUse h).2.1 (of_emitsUse h).2.2

theorem emitted_read {n : Nat} {u : Parser} {x : NameUse} (h : emitsUse (emitLoad n) u x = true) :
    Emitted n u (after (emitLoad n) u) .read x :=
  .read (of_emitsUse h).1 (of_emitsUse h).2.1 (of_emitsUse h).2.2

/-- The scopes once the body has defined name 0. -/
def definedCall : ScopeStack Nat AerVal := emptyCall.define 0 .null

theorem effect_define : (NameUse.define 0).Effect 0 emptyCall definedCall := ⟨.null, .nothing, rfl⟩

/-- A name is written, and read in a block. -/
theorem captures_stable_block :
    let b : BodyCode := .use .write (.define 0) false
      (.block true (.use .read (.load (.name 0 0)) false .done) .done)
    ∃ t es w, Compiled 0 bodyStart b t ∧ RunsBody 0 b none emptyCall es w ∧ es.length = 2 ∧
      ∀ e ∈ es, e.Stable 0 := by
  have hcompiled : Compiled 0 bodyStart (.use .write (.define 0) false
      (.block true (.use .read (.load (.name 0 0)) false .done) .done)) _ :=
    .use (emitted_write (by decide +kernel)) (.block (.use (emitted_read (by decide +kernel)) (.done _)) (.done _))
  have hread : (NameUse.load (.name 0 0)).Effect 0 definedCall.push definedCall.push := ⟨.null, _, rfl⟩
  have hrun : RunsBody 0 (.use .write (.define 0) false
      (.block true (.use .read (.load (.name 0 0)) false .done) .done)) none emptyCall _ _ :=
    .use effect_define (.enter (.use hread (.stop _ _ _)) (.skip (.stop _ _ _)))
  refine ⟨_, _, _, hcompiled, hrun, rfl, ?_⟩
  refine captures_stable beginsBody_bodyStart hcompiled ?_ (by decide) hrun
  refine ⟨fun _ d h => (nomatch h), ⟨⟨fun _ d h => ?_, trivial⟩, trivial⟩⟩
  cases h
  exact ⟨rfl, rfl⟩

/-- The body has written the names 0 to 31. -/
def fullBody : Parser := after (writeNames (List.range 32)) bodyStart

/-- A closure writes 33 names, and reads the last one; another writes a name in a block, and
reads it behind the block. -/
theorem captures_unstable :
    (∃ t es w, Compiled 32 bodyStart
        (.use .write (.define 32) true (.use .read (.load (.upvalue 0)) true .done)) t ∧
      RunsBody 32 (.use .write (.define 32) true (.use .read (.load (.upvalue 0)) true .done)) none
        emptyCall es w ∧ ¬ ∀ e ∈ es, e.Stable 32) ∧
    ∃ t es w, Compiled 0 bodyStart (.block true (.use .write (.define 0) false .done)
        (.use .read (.load (.name 0 0)) false .done)) t ∧
      RunsBody 0 (.block true (.use .write (.define 0) false .done)
        (.use .read (.load (.name 0 0)) false .done)) none emptyCall es w ∧
      ¬ ∀ e ∈ es, e.Stable 0 := by
  constructor
  · have hother : bodyStart.ctx.Extends 32 fullBody.ctx := by
      refine ⟨by decide +kernel, by decide +kernel, List.nil_prefix, List.nil_prefix, ?_, ?_⟩
      · have hnot : 32 ∉ fullBody.ctx.captureCtx.localNames := by decide +kernel
        exact fun h => absurd h hnot
      · have hnot : 32 ∉ fullBody.ctx.captureCtx.capturedNames := by decide +kernel
        exact fun h => absurd h hnot
    have hfull : fullBody.ctx.full = true := by decide +kernel
    have hread : (after (emitStore 32) fullBody).ctx.full = true := by decide +kernel
    have hcompiled := Compiled.other hother (.use (emitted_write (n := 32) (x := .define 32) (by decide +kernel))
      (.use (emitted_read (n := 32) (x := .load (.upvalue 0)) (by decide +kernel)) (.done _)))
    rw [hfull, hread] at hcompiled
    have hload : (NameUse.load (.upvalue 0)).Effect 32 (emptyCall.define 32 .null)
        (emptyCall.define 32 .null) := ⟨.null, rfl, rfl, fun _ => id⟩
    refine ⟨_, _, _, hcompiled, .use ⟨.null, .nothing, rfl⟩ (.use hload (.stop _ _ _)), fun h => ?_⟩
    obtain ⟨i, -, -, hplace⟩ := h _ (List.mem_cons_of_mem _ List.mem_cons_self) (by decide) _ rfl
    cases hplace
  · have hcompiled : Compiled 0 bodyStart (.block true (.use .write (.define 0) false .done)
        (.use .read (.load (.name 0 0)) false .done)) _ :=
      .block (.use (emitted_write (by decide +kernel)) (.done _))
        (.use (emitted_read (by decide +kernel)) (.done _))
    have hdefine : (NameUse.define 0).Effect 0 emptyCall.push (emptyCall.push.define 0 .null) :=
      ⟨.null, .nothing, rfl⟩
    have hload : (NameUse.load (.name 0 0)).Effect 0
        (closedTo emptyCall (emptyCall.push.define 0 .null))
        (closedTo emptyCall (emptyCall.push.define 0 .null)) := ⟨.null, _, rfl⟩
    refine ⟨_, _, _, hcompiled, .enter (.use hdefine (.stop _ _ _)) (.skip (.use hload (.stop _ _ _))),
      fun h => ?_⟩
    obtain ⟨i, hnearest, -, -⟩ := h _ (List.mem_cons_of_mem _ List.mem_cons_self) (by decide) _ rfl
    have hnone : (closedTo emptyCall (emptyCall.push.define 0 .null)).nearest 0 = none := by decide
    rw [hnone] at hnearest
    cases hnearest

end Aer.Compiler
