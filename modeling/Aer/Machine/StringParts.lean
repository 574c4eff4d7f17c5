import Aer.Machine.Fused

set_option linter.all false

/-! The code of an interpolated string: what its parts push, and what they are joined to. -/
namespace Aer.Machine

open Aer.Data Aer.Memory Aer.Lib.Interaction

/-- Only strings have been allocated. -/
structure State.Texts (s t : State) : Prop where
  values : s.Values t
  shapes : t.heap.shapes = s.heap.shapes
  longs : t.heap.longs = s.heap.longs
  functions : t.heap.functions = s.heap.functions
  error : t.runtimeHadError = s.runtimeHadError

theorem mapM_of_imp {α β : Type} {f g : α → Option β} (hfg : ∀ a b, f a = some b → g a = some b)
    {l : List α} {bs : List β} (h : l.mapM f = some bs) : l.mapM g = some bs := by
  induction l generalizing bs with
  | nil => exact h
  | cons a l ih =>
    rw [List.mapM_cons] at h ⊢
    cases ha : f a with
    | none =>
      rw [ha] at h
      cases h
    | some b =>
      cases hl : l.mapM f with
      | none =>
        rw [ha, hl] at h
        cases h
      | some bs' =>
        rw [ha, hl] at h
        rw [hfg a b ha, ih hl]
        exact h

namespace State.Texts
variable {s t u : State}

theorem refl (s : State) : s.Texts s := ⟨.refl s, rfl, rfl, rfl, rfl⟩

theorem trans (h : s.Texts t) (h' : t.Texts u) : s.Texts u where
  values := h.values.trans h'.values
  shapes := h'.shapes.trans h.shapes
  longs := h'.longs.trans h.longs
  functions := h'.functions.trans h.functions
  error := h'.error.trans h.error

theorem newString (s : State) (b : Bytes) :
    s.Texts { s with heap := (s.heap.aerMakeString b).2 } where
  values := ⟨rfl, rfl, rfl, rfl, rfl, rfl, fun hw => Heap.grows_aerMakeString hw b⟩
  shapes := rfl
  longs := rfl
  functions := rfl
  error := rfl

theorem namesLive (h : s.Texts t) (hs : NamesLive s) : NamesLive t where
  pools := (h.values.heap hs.pools).wf hs.pools
  live c hc := (h.values.heap hs.pools).live (.string c) (hs.live c (h.values.chunk ▸ hc))

variable (h : s.Texts t) (hs : NamesLive s)
include h hs

theorem stringData {c : Nat} {b : Bytes} (hc : s.stringData c = some b) :
    t.stringData c = some b := by
  unfold State.stringData at hc ⊢
  split at hc
  · next hlive =>
    have hgrows := h.values.heap hs.pools
    rw [if_pos (show t.heap.strings.Live c from hgrows.live (.string c) hlive), ← hc]
    exact congrArg some (hgrows.data (.string c) hlive id)
  · cases hc

/-- What a value is shown as does not change. -/
theorem formatDepth {depth : Nat} {inCollection : Bool} {v : AerVal} {b : Bytes}
    (hv : s.formatDepth depth inCollection v = some b) :
    t.formatDepth depth inCollection v = some b := by
  have hname : t.nameText = s.nameText := funext (h.values.nameText hs)
  have hasInt (v : AerVal) : t.asInt v = s.asInt v := by
    cases v <;> simp only [State.asInt, h.longs]
  have hstring {c : Nat} {inCollection : Bool} {b : Bytes}
      (hv : s.formatDepth 0 inCollection (.string c) = some b) :
      t.formatDepth 0 inCollection (.string c) = some b := by
    simp only [State.formatDepth, Option.map_eq_some_iff] at hv ⊢
    obtain ⟨d, hd, hb⟩ := hv
    exact ⟨d, h.stringData hs hd, hb⟩
  induction depth generalizing inCollection v b with
  | zero =>
    cases v with
    | string c => exact hstring hv
    | long c =>
      simp only [State.formatDepth, hasInt] at hv ⊢
      exact hv
    | _ => exact hv
  | succ depth ih =>
    have hitem (v : AerVal) (b : Bytes) (hv : s.formatDepth depth true v = some b) :
        t.formatDepth depth true v = some b := ih hv
    cases v with
    | string c => exact hstring hv
    | long c =>
      simp only [State.formatDepth, hasInt] at hv ⊢
      exact hv
    | array c =>
      have harray : t.arrayData c = s.arrayData c := by
        simp only [State.arrayData, h.values.arrays]
      simp only [State.formatDepth, harray, h.shapes, hname, Option.bind_eq_bind,
        Option.bind_eq_some_iff] at hv ⊢
      obtain ⟨a, ha, hv⟩ := hv
      refine ⟨a, ha, ?_⟩
      cases hshape : a.shape with
      | none =>
        simp only [hshape, Option.bind_eq_some_iff] at hv ⊢
        obtain ⟨items, hitems, hb⟩ := hv
        exact ⟨items, mapM_of_imp hitem hitems, hb⟩
      | some id =>
        simp only [hshape, Option.bind_eq_some_iff] at hv ⊢
        obtain ⟨shape, hid, items, hitems, hb⟩ := hv
        exact ⟨shape, hid, items, mapM_of_imp hitem hitems, hb⟩
    | dict c =>
      have hdict : t.dictData c = s.dictData c := by
        simp only [State.dictData, h.values.dicts]
      simp only [State.formatDepth, hdict, Option.bind_eq_bind, Option.bind_eq_some_iff] at hv ⊢
      obtain ⟨d, hd, items, hitems, hb⟩ := hv
      refine ⟨d, hd, items, mapM_of_imp (fun e b he => ?_) hitems, hb⟩
      rw [Option.bind_eq_some_iff] at he ⊢
      obtain ⟨v, hv, hb⟩ := he
      exact ⟨v, hitem _ _ hv, hb⟩
    | _ => exact hv

theorem format {v : AerVal} {b : Bytes} (hv : s.format v = some b) : t.format v = some b := by
  unfold State.format at hv ⊢
  rw [h.values.arrays, h.values.dicts]
  exact h.formatDepth hs hv

end State.Texts

/-! The parts of the code. -/

/-- How the code of a name loads its value. -/
inductive Loader
  | name (nameIdx cacheIdx : Nat)
  | slot (slot : Nat)
  | upvalue (slot : Nat)

namespace Loader

def words : Loader → List Int
  | name n c => instructionWords .load [n, c]
  | slot i => instructionWords .loadLocal [i]
  | upvalue i => instructionWords .loadUpvalue [i]

/-- The value it loads; a fault where the C code reads outside its data. -/
def got (s : State) : Loader → Got
  | name n c => (Operand.name n c).got s
  | slot i => (Operand.slot i).got s
  | upvalue i => .ofOption ((s.upvalue i).bind fun b => s.readAddr (.box b))

/-- A name's cache is a cache of that name. -/
def Sited (site : Nat → Nat) (s : State) : Loader → Prop
  | name n c => (Operand.name n c).Sited site s
  | slot _ | upvalue _ => True

end Loader

/-- A part of an interpolated string in the code: a constant, or a variable as a string. -/
inductive Part
  | text (poolIdx : Nat)
  | var (a : Loader)

namespace Part

def words : Part → List Int
  | text i => instructionWords .push [i]
  | var a => a.words ++ instructionWords .toStr []

/-- The number of its instructions. -/
def size : Part → Nat
  | text _ => 1
  | var _ => 2

/-- The text a part stands for. -/
def Says (s : State) : Part → Bytes → Prop
  | text i, b => ∃ c, s.chunk.pool[i]? = some (.string c) ∧ s.stringData c = some b
  | var a, b => ∃ v, a.got s = .value v ∧ s.format v = some b

def Sited (site : Nat → Nat) (s : State) : Part → Prop
  | text _ => True
  | var a => a.Sited site s

end Part

/-- The parts behind the first, each joined to what is there. -/
def joinedWords (ps : List Part) : List Int :=
  ps.flatMap fun p => p.words ++ instructionWords .add []

def joinedSize (ps : List Part) : Nat := (ps.map fun p => p.size + 1).sum

def partsWords : List Part → List Int
  | [] => []
  | p :: ps => p.words ++ joinedWords ps

def partsSize : List Part → Nat
  | [] => 0
  | p :: ps => p.size + joinedSize ps

section Runs
variable {cfg : Config} {site : Nat → Nat} {s t u x y z : State} {vs : List AerVal} {v : AerVal}

/-- Instructions that all end without an error. -/
def Proceeds (cfg : Config) (n : Nat) (x y : State) : Prop :=
  (instructions n).run (exec cfg) x = .done () y ∧ y.runtimeHadError = false

theorem Proceeds.one (h : instruction.run (exec cfg) x = .done () y) (hy : y.runtimeHadError = false) :
    Proceeds cfg 1 x y :=
  ⟨(run_lastInstruction cfg x).trans h, hy⟩

theorem Proceeds.trans {m n : Nat} (h : Proceeds cfg m x y) (h' : Proceeds cfg n y z) :
    Proceeds cfg (m + n) x z := by
  refine ⟨?_, h'.2⟩
  induction m generalizing x with
  | zero =>
    cases h.1
    rw [Nat.zero_add]
    exact h'.1
  | succ m ih =>
    obtain ⟨h, hy⟩ := h
    rw [Nat.add_right_comm, run_instructions]
    rw [run_instructions] at h
    obtain ⟨_, w, hw, h⟩ := Outcome.andThen_eq_done.mp h
    rw [hw, Outcome.done_andThen]
    split at h
    · next herror =>
      cases h
      rw [hy] at herror
      cases herror
    · next herror =>
      rw [if_neg herror]
      exact ih ⟨h, hy⟩

variable (hs : NamesLive s) (hclear : s.runtimeHadError = false)

theorem upvalue_of_core (h : x.core = t.core) (i : Nat) : x.upvalue i = t.upvalue i :=
  congrArg (fun s => s.upvalue i) h

/-- The instruction that loads a variable. -/
theorem run_loader (h : At site s t x vs) {a : Loader} {v : AerVal} (ha : a.Sited site s)
    (hgot : a.got t = .value v) (hroom : s.vm.stackTop + vs.length < vmStackMax)
    (hcode : CodeAt x x.vm.ip a.words) :
    ∃ y, instruction.run (exec cfg) x = .done () y ∧ At site s t y (vs ++ [v]) ∧
      y.vm.ip = x.vm.ip + a.words.length := by
  cases a with
  | name n c =>
    have hload := run_load cfg h (.name n c) ha hroom hcode
    rw [show (Operand.name n c).got t = .value v from hgot] at hload
    exact hload
  | slot i =>
    have hload := run_load cfg h (.slot i) trivial hroom hcode
    rw [show (Operand.slot i).got t = .value v from hgot] at hload
    exact hload
  | upvalue i =>
    have hat := h.atIp (x.vm.ip + 2)
    have hargs : CodeAt (x.atIp (x.vm.ip + 1)) (x.vm.ip + 1) [(i : Int)] := hcode.tail
    simp only [Loader.got] at hgot
    cases hbox : t.upvalue i with
    | none =>
      rw [hbox] at hgot
      cases hgot
    | some b =>
      rw [hbox, Option.bind_some] at hgot
      cases hread : t.readAddr (.box b) with
      | none =>
        rw [hread] at hgot
        cases hgot
      | some w =>
        rw [hread] at hgot
        cases hgot
        obtain ⟨y, hy, haty, hip⟩ := hat.push cfg hroom v
        refine ⟨y, ?_, haty, hip⟩
        have hup : exec cfg (.upvalue i) (x.atIp (x.vm.ip + 2)) = .done b (x.atIp (x.vm.ip + 2)) := by
          simp only [exec]
          rw [upvalue_of_core hat.core, hbox]
          rfl
        have hload : exec cfg (.load (.box b)) (x.atIp (x.vm.ip + 2)) = .done v (x.atIp (x.vm.ip + 2)) := by
          simp only [exec]
          rw [readAddr_of_core hat.core, hread]
          rfl
        rw [run_instruction hcode]
        change lblLoadUpvalue.run (exec cfg) (x.atIp (x.vm.ip + 1)) = _
        unfold lblLoadUpvalue
        rw [run_arg hargs]
        change Prog.run _ _ (x.atIp (x.vm.ip + 2)) = _
        rw [run_bind, perform, run_perform, hup, Outcome.done_andThen, run_bind, perform, run_perform,
          hload, Outcome.done_andThen]
        exact hy

theorem formatDepth_congr (hheap : x.heap = t.heap) (hpool : x.chunk.pool = t.chunk.pool)
    (depth : Nat) (inCollection : Bool) (v : AerVal) :
    x.formatDepth depth inCollection v = t.formatDepth depth inCollection v := by
  have hname : x.nameText = t.nameText := by
    funext n
    simp only [State.nameText, Chunk.nameText, hheap, hpool]
  induction depth generalizing inCollection v with
  | zero =>
    cases v <;> simp only [State.formatDepth, State.asInt, State.stringData, hheap]
  | succ depth ih =>
    have hrec : x.formatDepth depth true = t.formatDepth depth true := funext (ih true)
    cases v <;> simp only [State.formatDepth, State.asInt, State.stringData, State.arrayData,
      State.dictData, hheap, hname, hrec]

theorem format_of_core (h : x.core = t.core) (v : AerVal) : x.format v = t.format v := by
  unfold State.format
  rw [heap_of_core h]
  exact formatDepth_congr (heap_of_core h) (pool_of_core h) _ _ v

theorem stringData_newString (ht : NamesLive t) (b : Bytes) :
    ({ t with heap := (t.heap.aerMakeString b).2 } : State).stringData (t.heap.strings.alloc b).1 =
      some b := by
  have hlive : (t.heap.strings.alloc b).2.Live (t.heap.strings.alloc b).1 :=
    (Pool.live_alloc ht.pools.strings b _).mpr (.inl rfl)
  refine (if_pos hlive).trans ?_
  exact congrArg some ((congrFun (Pool.alloc_data t.heap.strings b) _).trans (Function.update_self _ _ _))

/-- The operation that makes a string, in a state of the run. -/
theorem run_newString (cfg : Config) (h : At site s t x vs) (ht : NamesLive t) (b : Bytes) :
    ∃ u y c, (perform (.newString b)).run (exec cfg) x = .done (.string c) y ∧ t.Texts u ∧
      At site s u y vs ∧ u.stringData c = some b ∧ y.vm.ip = x.vm.ip := by
  have hrun := run_values cfg (ValueOnly.perform (o := .newString b) rfl) ht h
  rw [show (perform (.newString b)).run (exec cfg) t = .done (.string (t.heap.strings.alloc b).1)
    { t with heap := (t.heap.aerMakeString b).2 } from rfl] at hrun
  obtain ⟨-, y, hy, hat, hip⟩ := hrun
  exact ⟨_, y, _, hy, .newString t b, hat, stringData_newString ht b, hip⟩

/-- The conversion of the value on top to a string. -/
theorem run_toStr (h : At site s t x (vs ++ [v])) (ht : NamesLive t) {b : Bytes}
    (hv : t.format v = some b) (hroom : s.vm.stackTop + vs.length < vmStackMax)
    (hcode : CodeAt x x.vm.ip (instructionWords .toStr [])) :
    ∃ u y c, instruction.run (exec cfg) x = .done () y ∧ t.Texts u ∧
      At site s u y (vs ++ [.string c]) ∧ u.stringData c = some b ∧ y.vm.ip = x.vm.ip + 1 := by
  obtain ⟨y, hy, hat, hip⟩ := (h.atIp (x.vm.ip + 1)).pop cfg vs
  have hrun : instruction.run (exec cfg) x =
      (vmToStr v >>= push).run (exec cfg) y := by
    rw [run_instruction hcode]
    change lblToStr.run (exec cfg) (x.atIp (x.vm.ip + 1)) = _
    unfold lblToStr
    rw [run_bind, hy, Outcome.done_andThen]
  -- What the conversion gives, and the state it leaves.
  have hconv : ∃ u z c, (vmToStr v).run (exec cfg) y = .done (.string c) z ∧ t.Texts u ∧
      At site s u z vs ∧ u.stringData c = some b ∧ z.vm.ip = y.vm.ip := by
    have hformat : exec cfg (.format v) y = .done b y := by
      simp only [exec]
      rw [format_of_core hat.core, hv]
      rfl
    have hmake : (do perform (.newString (← perform (.format v))) : Handler AerVal).run (exec cfg) y =
        (perform (.newString b)).run (exec cfg) y := by
      rw [run_bind, perform, run_perform, hformat, Outcome.done_andThen]
    cases v with
    | string c =>
      have hdata : t.stringData c = some b := by
        simpa [State.format, State.formatDepth] using hv
      exact ⟨t, y, c, rfl, .refl t, hat, hdata, rfl⟩
    | _ =>
      unfold vmToStr
      rw [hmake]
      exact run_newString cfg hat ht b
  obtain ⟨u, z, c, hz, hu, hatz, hdata, hipz⟩ := hconv
  obtain ⟨w, hw, hatw, hipw⟩ := hatz.push cfg hroom (.string c)
  refine ⟨u, w, c, ?_, hu, hatw, hdata, hipw.trans (hipz.trans hip)⟩
  rw [hrun, run_bind, hz, Outcome.done_andThen, hw]

/-- The concatenation of the two strings on top. -/
theorem run_concat {c d : Nat} (h : At site s t x (vs ++ [.string c, .string d])) (ht : NamesLive t)
    {l r : Bytes} (hl : t.stringData c = some l) (hr : t.stringData d = some r)
    (hroom : s.vm.stackTop + vs.length < vmStackMax)
    (hcode : CodeAt x x.vm.ip (instructionWords .add [])) :
    ∃ u y e, instruction.run (exec cfg) x = .done () y ∧ t.Texts u ∧
      At site s u y (vs ++ [.string e]) ∧ u.stringData e = some (l ++ r) ∧ y.vm.ip = x.vm.ip + 1 := by
  rw [show vs ++ [AerVal.string c, .string d] = (vs ++ [.string c]) ++ [.string d] by simp] at h
  obtain ⟨y, hy, haty, hipy⟩ := (h.atIp (x.vm.ip + 1)).pop cfg _
  obtain ⟨z, hz, hatz, hipz⟩ := haty.pop cfg vs
  have hrun : instruction.run (exec cfg) x =
      (vmBinary (.string c) (.string d) .add >>= push).run (exec cfg) z := by
    rw [run_instruction hcode]
    change (lblBinary .add).run (exec cfg) (x.atIp (x.vm.ip + 1)) = _
    unfold lblBinary
    rw [run_bind, hy, Outcome.done_andThen, run_bind, hz, Outcome.done_andThen]
  have hread {i : Nat} {b : Bytes} (hi : t.stringData i = some b) : exec cfg (.string i) z = .done b z := by
    have hcore : z.stringData i = t.stringData i := congrArg (fun s => s.stringData i) hatz.core
    simp only [exec]
    rw [hcore, hi]
    rfl
  have hbinary : (vmBinary (.string c) (.string d) .add).run (exec cfg) z =
      (perform (.newString (l ++ r))).run (exec cfg) z := by
    change (vmBinaryOther (.string c) (.string d) .add).run (exec cfg) z = _
    unfold vmBinaryOther
    dsimp only
    rw [run_bind, perform, run_perform, hread hl, Outcome.done_andThen, run_bind, perform, run_perform,
      hread hr, Outcome.done_andThen]
    rfl
  obtain ⟨u, w, e, hw, hu, hatw, hdata, hipw⟩ := run_newString cfg hatz ht (l ++ r)
  obtain ⟨v, hv, hatv, hipv⟩ := hatw.push cfg hroom (.string e)
  refine ⟨u, v, e, ?_, hu, hatv, hdata, hipv.trans (hipw.trans (hipz.trans hipy))⟩
  rw [hrun, run_bind, hbinary, hw, Outcome.done_andThen, hv]

theorem readAddr_of_texts (h : s.Texts t) (a : Addr) : t.readAddr a = s.readAddr a := by
  cases a with
  | slot i j => simp only [State.readAddr, h.values.vm]
  | box b => simp only [State.readAddr, Heap.readBox, h.values.boxes, h.values.entries]

include hs

theorem got_of_texts (h : s.Texts t) {a : Loader} {v : AerVal} (ha : a.got s = .value v) :
    a.got t = .value v := by
  have hread := funext (readAddr_of_texts h)
  cases a with
  | name n c =>
    simp only [Loader.got, Operand.got, h.values.vmScopeGet hs, hread] at ha ⊢
    cases hget : s.vmScopeGet n with
    | some addr =>
      rw [hget] at ha
      exact ha
    | none =>
      rw [hget] at ha
      dsimp only at ha
      split at ha <;> cases ha
  | slot i =>
    have hslot : t.localSlot i = s.localSlot i := by simp only [State.localSlot, h.values.vm]
    simp only [Loader.got, Operand.got, hslot, hread] at ha ⊢
    exact ha
  | upvalue i =>
    have hup : t.upvalue i = s.upvalue i := by
      simp only [State.upvalue, State.topFrame, State.functionData, h.values.vm, h.functions]
    simp only [Loader.got, hup, hread] at ha ⊢
    exact ha

theorem says_of_texts (h : s.Texts t) {p : Part} {b : Bytes} (hp : p.Says s b) : p.Says t b := by
  cases p with
  | text i =>
    obtain ⟨c, hc, hdata⟩ := hp
    exact ⟨c, h.values.chunk ▸ hc, h.stringData hs hdata⟩
  | var a =>
    obtain ⟨v, hv, hformat⟩ := hp
    exact ⟨v, got_of_texts hs h hv, h.format hs hformat⟩

variable (cfg) in
theorem run_part (hst : s.Texts t) (hat : At site s t x vs) (hclear : s.runtimeHadError = false)
    {p : Part} {b : Bytes} (hsited : p.Sited site s) (hp : p.Says s b)
    (hroom : s.vm.stackTop + vs.length < vmStackMax) (hcode : CodeAt x x.vm.ip p.words) :
    ∃ u y c, Proceeds cfg p.size x y ∧ t.Texts u ∧ At site s u y (vs ++ [.string c]) ∧
      u.stringData c = some b ∧ y.vm.ip = x.vm.ip + p.words.length := by
  have hno {u y : State} {ws : List AerVal} (hu : s.Texts u) (hy : At site s u y ws) :
      y.runtimeHadError = false := (hadError_of_core hy.core).trans (hu.error.trans hclear)
  have htexts := says_of_texts hs hst hp
  cases p with
  | text i =>
    obtain ⟨c, hc, hdata⟩ := htexts
    have hload := run_load cfg hat (.const i) trivial hroom hcode
    rw [show (Operand.const i).got t = .value (.string c) by simp only [Operand.got, hc]; rfl] at hload
    obtain ⟨y, hy, haty, hip⟩ := hload
    exact ⟨t, y, c, .one hy (hno hst haty), .refl t, haty, hdata, hip⟩
  | var a =>
    obtain ⟨v, hv, hformat⟩ := htexts
    obtain ⟨y, hy, haty, hip⟩ := run_loader hat hsited hv hroom hcode.left
    have hcodey : CodeAt y y.vm.ip (instructionWords .toStr []) := by
      rw [hip]
      exact hcode.right.of_code ((code_of_core haty.core).trans (code_of_core hat.core).symm)
    obtain ⟨u, z, c, hz, htu, hatz, hdata, hipz⟩ :=
      run_toStr haty (hst.namesLive hs) hformat hroom hcodey
    refine ⟨u, z, c, (Proceeds.one hy (hno hst haty)).trans (.one hz (hno (hst.trans htu) hatz)), htu,
      hatz, hdata, ?_⟩
    rw [hipz, hip]
    simp [Part.words, instructionWords, Nat.add_assoc]

variable (cfg) in
/-- The parts behind the first, with what is there already on the stack. -/
theorem run_joined (hclear : s.runtimeHadError = false) {ps : List Part} {texts : List Bytes}
    (htexts : List.Forall₂ (Part.Says s) ps texts) (hsited : ∀ p ∈ ps, p.Sited site s)
    (hroom : s.vm.stackTop + vs.length + 1 < vmStackMax) (hst : s.Texts t) {c : Nat} {acc : Bytes}
    (hat : At site s t x (vs ++ [.string c])) (hacc : t.stringData c = some acc)
    (hcode : CodeAt x x.vm.ip (joinedWords ps)) :
    ∃ u y e, Proceeds cfg (joinedSize ps) x y ∧ s.Texts u ∧ At site s u y (vs ++ [.string e]) ∧
      u.stringData e = some (acc ++ texts.flatten) ∧
      y.vm.ip = x.vm.ip + (joinedWords ps).length := by
  have hno {u y : State} {ws : List AerVal} (hu : s.Texts u) (hy : At site s u y ws) :
      y.runtimeHadError = false := (hadError_of_core hy.core).trans (hu.error.trans hclear)
  induction htexts generalizing t x c acc with
  | nil =>
    refine ⟨t, x, c, ⟨rfl, hno hst hat⟩, hst, hat, ?_, rfl⟩
    rw [List.flatten_nil, List.append_nil]
    exact hacc
  | @cons p text ps texts hp _ ih =>
    rw [List.forall_mem_cons] at hsited
    have hwords : joinedWords (p :: ps) =
        p.words ++ (instructionWords .add [] ++ joinedWords ps) := by
      simp [joinedWords]
    rw [hwords] at hcode ⊢
    obtain ⟨u, y, d, hy, htu, haty, hdata, hipy⟩ := run_part cfg hs hst hat hclear hsited.1 hp
      (by simp only [List.length_append, List.length_singleton]; omega) hcode.left
    have hsu := hst.trans htu
    have hcodey : CodeAt y y.vm.ip (instructionWords .add [] ++ joinedWords ps) := by
      rw [hipy]
      exact hcode.right.of_code ((code_of_core haty.core).trans
        ((congrArg (fun c => c.code) (hsu.values.chunk.trans hst.values.chunk.symm)).trans
          (code_of_core hat.core).symm))
    have hacc' : u.stringData c = some acc := htu.stringData (hst.namesLive hs) hacc
    rw [List.append_assoc, List.singleton_append] at haty
    obtain ⟨w, z, e, hz, huw, hatz, hdataz, hipz⟩ := run_concat haty (hsu.namesLive hs) hacc' hdata
      (by omega) hcodey.left
    have hsw := hsu.trans huw
    have hcodez : CodeAt z z.vm.ip (joinedWords ps) := by
      rw [hipz]
      exact hcodey.right.of_code ((code_of_core hatz.core).trans
        ((congrArg (fun c => c.code) huw.values.chunk).trans (code_of_core haty.core).symm))
    obtain ⟨u', y', e', hy', hsu', haty', hdata', hip'⟩ := ih hsited.2 hsw hatz hdataz hcodez
    refine ⟨u', y', e', ?_, hsu', haty', ?_, ?_⟩
    · have hsteps := (hy.trans (.one hz (hno hsw hatz))).trans hy'
      simpa [joinedSize] using hsteps
    · rw [hdata', List.flatten_cons, List.append_assoc]
    · rw [hip', hipz, hipy]
      simp only [List.length_append, instructionWords, List.length_cons, List.map_nil, List.length_nil]
      omega

variable (cfg) in
/-- The code of a string made of parts pushes one string, the texts of the parts in order. -/
theorem run_parts (hclear : s.runtimeHadError = false) (hcaches : CachesAgree site s) {ps : List Part}
    {texts : List Bytes} (hne : ps ≠ []) (htexts : List.Forall₂ (Part.Says s) ps texts)
    (hsited : ∀ p ∈ ps, p.Sited site s) (hroom : s.vm.stackTop + 1 < vmStackMax)
    (hcode : CodeAt s s.vm.ip (partsWords ps)) :
    ∃ u y e, Proceeds cfg (partsSize ps) s y ∧ s.Texts u ∧ At site s u y [.string e] ∧
      u.stringData e = some texts.flatten ∧ y.vm.ip = s.vm.ip + (partsWords ps).length := by
  have hstart : At site s s s [] := ⟨rfl, ⟨rfl, fun _ _ => rfl, fun i hi => nomatch hi⟩, hcaches, rfl⟩
  cases htexts with
  | nil => exact absurd rfl hne
  | @cons p text ps texts hp htexts =>
    rw [List.forall_mem_cons] at hsited
    obtain ⟨u, y, c, hy, hsu, haty, hdata, hip⟩ := run_part cfg hs (.refl s) hstart hclear
      hsited.1 hp (by simp only [List.length_nil]; omega) hcode.left
    have hcodey : CodeAt y y.vm.ip (joinedWords ps) := by
      rw [hip]
      exact hcode.right.of_code ((code_of_core haty.core).trans
        (congrArg (fun c => c.code) hsu.values.chunk))
    obtain ⟨w, z, e, hz, hsw, hatz, hdataz, hipz⟩ := run_joined cfg hs hclear htexts hsited.2
      (by simp only [List.length_nil]; omega) hsu haty hdata hcodey
    refine ⟨w, z, e, hy.trans hz, hsw, hatz, hdataz, ?_⟩
    rw [hipz, hip]
    simp only [partsWords, List.length_append, Nat.add_assoc]

end Runs

end Aer.Machine
