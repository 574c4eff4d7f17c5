import Aer.Compiler.Program
import Aer.Data.TableLimit
import Aer.Machine.Constants
import Aer.Program.Source

set_option linter.all false

/-! The sharing of constants: which entries of the pool `chunk_add_pool` returns for the
constants requested, over all that a compilation does and the runs between compilations. -/
namespace Aer.Compiler

open Aer.Data Aer.Memory Aer.Machine Aer.Lib.Interaction

/-- What a program can tell of a constant that is no function. -/
inductive Plain
  | null
  | boolean (b : Bool)
  | integer (n : Int)
  | real (d : Double)
  | string (b : Bytes)
  | other
  deriving DecidableEq

/-- What a program can tell of a constant. -/
inductive Content
  | plain (p : Plain)
  | function (codeOffset arity minArity : Nat) (defaults : List Plain) (receiver : Option Nat)
  deriving DecidableEq

def plain (h : Heap) : AerVal → Plain
  | .null => .null
  | .boolean b => .boolean b
  | .integer n => .integer n.val
  | .long c => .integer (h.longs.data c)
  | .real d => .real d
  | .string c => .string (h.strings.data c)
  | .function _ | .array _ | .dict _ => .other

/-- The type of the receiver, named by its pool index. -/
def receiver (f : AerFunction) : Option Nat := if f.hasReceiver then some f.receiverType else none

def content (h : Heap) : AerVal → Content
  | .function c =>
      let f := h.functions.data c
      .function f.codeOffset f.arity f.minArity (f.defaults.map (plain h)) (receiver f)
  | v => .plain (plain h v)

/-- Two different constants that `chunk_add_pool` takes for one: the two zeros, and two
functions that begin at one offset and differ in what it does not compare. -/
def Confused (h : Heap) : AerVal → AerVal → Prop
  | .real x, .real y => x.magnitude = 0 ∧ y.magnitude = 0 ∧ x ≠ y
  | .function c, .function d =>
      let f := h.functions.data c
      let g := h.functions.data d
      f.codeOffset = g.codeOffset ∧ f.arity = g.arity ∧
        ¬ (f.minArity = g.minArity ∧ f.defaults.map (plain h) = g.defaults.map (plain h) ∧
          receiver f = receiver g)
  | _, _ => False

/-- A literal of the source. No escape of the language makes a NUL. -/
def IsLiteral (h : Heap) : AerVal → Prop
  | .string c => h.Live (.string c) ∧ ∀ b ∈ h.strings.data c, b ≠ 0
  | .long c => h.Live (.long c)
  | .function _ | .array _ | .dict _ => False
  | .null | .boolean _ | .integer _ | .real _ => True

/-- A constant as the parser makes it: a literal, or a function whose defaults are
literals of the pool. -/
def IsConstant (pool : List AerVal) (h : Heap) : AerVal → Prop
  | .function c => h.Live (.function c) ∧ ∀ d ∈ (h.functions.data c).defaults, d ∈ pool ∧ IsLiteral h d
  | v => IsLiteral h v

/-! The code's equality as the equality of keys. -/

inductive PoolKey
  | null
  | boolean (b : Bool)
  | integer (n : Int47)
  | long (n : Int)
  | real (key : Int)
  | function (codeOffset arity : Nat)
  deriving DecidableEq

/-- The key of a constant that is shared by a scan of the pool; a NaN is never shared. -/
def poolKey (h : Heap) : AerVal → Option PoolKey
  | .null => some .null
  | .boolean b => some (.boolean b)
  | .integer n => some (.integer n)
  | .long c => some (.long (h.longs.data c))
  | .real d => if d.isNaN then none else some (.real (Double.compare.key d))
  | .function c =>
      some (.function (h.functions.data c).codeOffset (h.functions.data c).arity)
  | .string _ | .array _ | .dict _ => none

theorem beq_iff_key (x y : Double) : x.beq y = true ↔
    (x.isNaN = false ∧ y.isNaN = false) ∧ Double.compare.key x = Double.compare.key y := by
  unfold Double.beq Double.compare
  cases x.isNaN <;> cases y.isNaN <;> simp

theorem samePoolVal_iff (h : Heap) (e v : AerVal) : Parser.samePoolVal h e v = true ↔
    ∃ k, poolKey h e = some k ∧ poolKey h v = some k := by
  cases e with
  | real x =>
    cases v with
    | real y =>
      rw [show Parser.samePoolVal h (.real x) (.real y) = x.beq y from rfl, beq_iff_key]
      unfold poolKey
      constructor
      · rintro ⟨⟨hx, hy⟩, hkey⟩
        simp [hx, hy, hkey]
      · rintro ⟨k, hx, hy⟩
        grind
    | _ => simp [Parser.samePoolVal, poolKey]
  | _ => cases v <;> simp [Parser.samePoolVal, poolKey] <;> grind

theorem key_of_isZero {x : Double} (h : x.magnitude = 0) :
    x.isNaN = false ∧ Double.compare.key x = 0 := by
  refine ⟨?_, ?_⟩
  · have hpos : x.expo ≠ 2047 := by
      intro he
      have := Double.magnitude_ge (x := x) (by omega)
      have := Nat.mul_pos (show 0 < 2 ^ 52 by decide) (Nat.two_pow_pos (x.expo - 1))
      omega
    simp [Double.isNaN, hpos]
  · rw [Double.key_eq, (Double.magnitude_eq_zero_iff x).mp h]
    simp

theorem content_eq_iff {h : Heap} {e v : AerVal} {k : PoolKey} (he : poolKey h e = some k)
    (hv : poolKey h v = some k) : content h e = content h v ↔ ¬ Confused h e v := by
  cases e <;> cases v
  case real.real x y =>
    have hsame : Parser.samePoolVal h (.real x) (.real y) = true :=
      (samePoolVal_iff h _ _).mpr ⟨k, he, hv⟩
    have hnan := ((beq_iff_key x y).mp hsame).1
    rcases (Double.beq_eq_true_iff hnan.1 hnan.2).mp hsame with rfl | ⟨hx, hy⟩
    · simp [Confused]
    · simp [content, plain, Confused, hx, hy]
  case function.function c d =>
    cases he
    have hkey := Option.some.inj hv
    injection hkey with hoff harity
    simp only [content, Confused, hoff, harity, Content.function.injEq, true_and, not_not]
  all_goals simp [content, plain, Confused] <;> grind [poolKey]

theorem keys_of_confused {h : Heap} {e v : AerVal} (hc : Confused h e v) :
    ∃ k, poolKey h e = some k ∧ poolKey h v = some k := by
  cases e <;> cases v <;> simp only [Confused] at hc
  case real.real x y =>
    obtain ⟨hx, hy, -⟩ := hc
    simp [poolKey, key_of_isZero hx, key_of_isZero hy]
  case function.function c d => simp [poolKey, hc.1, hc.2.1]

/-! What the constants tell does not change. -/

/-- The cells of the pool stay in use and keep their data. -/
structure KeepsPool (pool : List AerVal) (h h' : Heap) : Prop where
  wf : h.PoolsWf → h'.PoolsWf
  cells : ∀ v ∈ pool, IsConstant pool h v → ∀ n, Cell.ofVal v = some n →
    h'.Live n ∧ Heap.SameData h h' n

section Keeps
variable {pool : List AerVal} {h h' : Heap} (hk : KeepsPool pool h h')

theorem IsLiteral.constant {v : AerVal} (hv : IsLiteral h v) : IsConstant pool h v := by
  cases v with
  | function c => exact hv.elim
  | _ => exact hv

include hk

theorem KeepsPool.literal {v : AerVal} (hp : v ∈ pool) (hv : IsLiteral h v) :
    IsLiteral h' v ∧ plain h' v = plain h v := by
  have hcells := hk.cells v hp hv.constant
  cases v with
  | string c =>
    obtain ⟨hlive, hdata⟩ := hcells (.string c) rfl
    exact ⟨⟨hlive, hdata.symm ▸ hv.2⟩, congrArg Plain.string hdata⟩
  | long c =>
    obtain ⟨hlive, hdata⟩ := hcells (.long c) rfl
    exact ⟨hlive, congrArg Plain.integer hdata⟩
  | function c | array c | dict c => exact hv.elim
  | _ => exact ⟨trivial, rfl⟩

theorem KeepsPool.defaults {ds : List AerVal} (hds : ∀ d ∈ ds, d ∈ pool ∧ IsLiteral h d) :
    ds.map (plain h') = ds.map (plain h) :=
  List.map_congr_left fun d hd => (hk.literal (hds d hd).1 (hds d hd).2).2

theorem KeepsPool.constant {v : AerVal} (hp : v ∈ pool) (hv : IsConstant pool h v) :
    IsConstant pool h' v ∧ content h' v = content h v ∧ poolKey h' v = poolKey h v := by
  cases v with
  | function c =>
    obtain ⟨hlive, hdata⟩ := hk.cells _ hp hv (.function c) rfl
    have hdata : h'.functions.data c = h.functions.data c := hdata
    refine ⟨⟨hlive, ?_⟩, ?_, ?_⟩
    · rw [hdata]
      exact fun d hd => ⟨(hv.2 d hd).1, (hk.literal (hv.2 d hd).1 (hv.2 d hd).2).1⟩
    · simp only [content, hdata, hk.defaults hv.2]
    · simp only [poolKey, hdata]
  | long c =>
    obtain ⟨hlive, hdata⟩ := hk.cells _ hp hv (.long c) rfl
    have hdata : h'.longs.data c = h.longs.data c := hdata
    exact ⟨hlive, by simp only [content, plain, hdata], by simp only [poolKey, hdata]⟩
  | string c =>
    obtain ⟨hlit, hplain⟩ := hk.literal hp hv
    exact ⟨hlit, congrArg Content.plain hplain, rfl⟩
  | array c | dict c => exact hv.elim
  | _ => exact ⟨trivial, rfl, rfl⟩

end Keeps

theorem KeepsPool.refl (pool : List AerVal) (h : Heap) : KeepsPool pool h h where
  wf := id
  cells v _ hv n hn := by
    cases v <;> cases hn
    case long.refl c => exact ⟨hv, rfl⟩
    case string.refl c => exact ⟨hv.1, rfl⟩
    case function.refl c => exact ⟨hv.1, rfl⟩
    all_goals exact hv.elim

/-- The invariant of a chunk's pool and of its index of names. -/
structure Sound (c : Chunk) (h : Heap) : Prop where
  wf : h.PoolsWf
  constants : ∀ v ∈ c.pool, IsConstant c.pool h v
  /-- Only strings and NaNs may stand in the pool twice. -/
  apart : ∀ (i j : Nat) (e v : AerVal) (k : PoolKey), c.pool[i]? = some e → c.pool[j]? = some v →
    poolKey h e = some k → poolKey h v = some k → i = j
  names : c.nameIndex.WellFormed
  named : ∀ key i, some (key, i) ∈ c.nameIndex.buckets →
    ∃ cell, c.pool[i]? = some (.string cell) ∧ h.strings.data cell = key

theorem IsConstant.mono {pool more : List AerVal} {h : Heap} {v : AerVal} (hsub : pool ⊆ more)
    (hv : IsConstant pool h v) : IsConstant more h v := by
  cases v with
  | function c => exact ⟨hv.1, fun d hd => ⟨hsub (hv.2 d hd).1, (hv.2 d hd).2⟩⟩
  | _ => exact hv

namespace Sound
variable {c c' : Chunk} {h h' : Heap}

theorem start (hw : h.PoolsWf) : Sound .init h where
  wf := hw
  constants v hv := by cases hv
  apart i j e v k he := by cases he
  names := .empty
  named key i hi := by cases hi

theorem kept (hs : Sound c h) (hpool : c'.pool = c.pool) (hnames : c'.nameIndex = c.nameIndex)
    (hk : KeepsPool c.pool h h') : Sound c' h' := by
  have hkey {i : Nat} {v : AerVal} (hv : c.pool[i]? = some v) : poolKey h' v = poolKey h v :=
    have hmem := List.mem_of_getElem? hv
    (hk.constant hmem (hs.constants v hmem)).2.2
  refine ⟨hk.wf hs.wf, ?_, ?_, hnames ▸ hs.names, ?_⟩
  · rw [hpool]
    exact fun v hv => (hk.constant hv (hs.constants v hv)).1
  · rw [hpool]
    intro i j e v k he hv hek hvk
    exact hs.apart i j e v k he hv (hkey he ▸ hek) (hkey hv ▸ hvk)
  · rw [hpool, hnames]
    intro key i hi
    obtain ⟨cell, hcell, hdata⟩ := hs.named key i hi
    have hmem := List.mem_of_getElem? hcell
    have hsame : h'.strings.data cell = h.strings.data cell :=
      (hk.cells _ hmem (hs.constants _ hmem) (.string cell) rfl).2
    exact ⟨cell, hcell, hsame.trans hdata⟩

/-- A constant that no entry shares comes to the end of the pool. -/
theorem append (hs : Sound c h) {v : AerVal} (hv : IsConstant c.pool h v)
    (hnew : ∀ e ∈ c.pool, ∀ k, poolKey h e = some k → poolKey h v ≠ some k)
    (hnames : c'.nameIndex.WellFormed) (hpool : c'.pool = c.pool ++ [v])
    (hnamed : ∀ key i, some (key, i) ∈ c'.nameIndex.buckets → some (key, i) ∈ c.nameIndex.buckets ∨
      i = c.pool.length ∧ ∃ cell, v = .string cell ∧ h.strings.data cell = key) :
    Sound c' h := by
  have hold {i : Nat} {e : AerVal} (he : (c.pool ++ [v])[i]? = some e) :
      c.pool[i]? = some e ∨ i = c.pool.length ∧ e = v := by
    rcases Nat.lt_trichotomy i c.pool.length with hlt | rfl | hlt
    · exact .inl (List.getElem?_append_left hlt ▸ he)
    · simp only [List.getElem?_concat_length, Option.some.injEq] at he
      exact .inr ⟨rfl, he.symm⟩
    · rw [List.getElem?_eq_none (by simpa using hlt)] at he
      cases he
  refine ⟨hs.wf, ?_, ?_, hnames, ?_⟩
  · rw [hpool]
    intro e he
    rcases List.mem_append.mp he with he | he
    · exact (hs.constants e he).mono (List.subset_append_left _ _)
    · cases List.mem_singleton.mp he
      exact hv.mono (List.subset_append_left _ _)
  · rw [hpool]
    intro i j e w k he hw hek hwk
    rcases hold he with hi | ⟨rfl, rfl⟩
    · rcases hold hw with hj | ⟨rfl, rfl⟩
      · exact hs.apart i j e w k hi hj hek hwk
      · exact absurd hwk (hnew e (List.mem_of_getElem? hi) k hek)
    · rcases hold hw with hj | ⟨rfl, -⟩
      · exact absurd hek (hnew w (List.mem_of_getElem? hj) k hwk)
      · rfl
  · rw [hpool]
    intro key i hi
    rcases hnamed key i hi with hi | ⟨rfl, cell, rfl, hdata⟩
    · obtain ⟨cell, hcell, hdata⟩ := hs.named key i hi
      have hlt := (List.getElem?_eq_some_iff.mp hcell).1
      exact ⟨cell, by rw [List.getElem?_append_left hlt, hcell], hdata⟩
    · exact ⟨cell, by simp, hdata⟩

end Sound

/-- A put of a new name, also into the full table. -/
theorem put_newName {t : HashTable Nat} (h : t.WellFormed) {key : Bytes}
    (hkey : ∀ i, some (cString key, i) ∉ t.buckets) (i : Nat) :
    (t.put key i).WellFormed ∧
      ∀ e, some e ∈ (t.put key i).buckets → some e ∈ t.buckets ∨ e = (cString key, i) := by
  by_cases hc : t.count < HashTable.maxCapacity
  · have hst := h.put hc key i
    exact ⟨hst.wellFormed, fun e he => ((hst.mem e).mp he).symm.imp And.right id⟩
  · have hb : t.buckets ≠ [] := by
      intro hb
      have hcount := h.count
      rw [hb] at hcount
      rw [hcount] at hc
      exact hc (show 0 < HashTable.maxCapacity by decide)
    rw [HashTable.put_full h hb (not_lt.mp hc) hkey]
    exact ⟨h, fun e he => .inl he⟩

/-- What a request gives: the invariant, no change of the entries there are, and an entry
that tells what was requested unless the code confuses some entry with it. -/
structure Serves (s : Parser) (v : AerVal) (r : Nat × Parser) : Prop where
  heap : r.2.heap = s.heap
  sound : Sound r.2.chunk s.heap
  kept : s.chunk.pool <+: r.2.chunk.pool
  entry : ∃ e, r.2.chunk.pool[r.1]? = some e ∧
    (content s.heap e = content s.heap v ↔ ∀ e ∈ s.chunk.pool, ¬ Confused s.heap e v)

section Requests
variable {s : Parser} (hs : Sound s.chunk s.heap) {v : AerVal}
  (hv : IsConstant s.chunk.pool s.heap v)
include hs

theorem serves_string {cell : Nat} (hv : IsConstant s.chunk.pool s.heap (.string cell)) :
    Serves s (.string cell) (s.addPool (.string cell)) := by
  have hconf : ∀ e ∈ s.chunk.pool, ¬ Confused s.heap e (.string cell) := by
    intro e _ he
    cases e <;> exact he
  have hkey : cString (s.heap.strings.data cell) = s.heap.strings.data cell :=
    cString_of_nulFree hv.2
  unfold Parser.addPool
  dsimp only
  split
  · next i hi =>
    rw [hs.names.get_iff, hkey] at hi
    obtain ⟨c, hc, hdata⟩ := hs.named _ _ hi
    refine ⟨rfl, hs, List.prefix_rfl, _, hc, ?_⟩
    simp only [content, plain, hdata, true_iff]
    exact hconf
  · next hi =>
    have hnew : ∀ i, some (s.heap.strings.data cell, i) ∉ s.chunk.nameIndex.buckets := by
      intro i hmem
      rw [(hs.names.get_iff _ i).mpr (hkey.symm ▸ hmem)] at hi
      cases hi
    obtain ⟨hwf, hmem⟩ := put_newName hs.names (hkey.symm ▸ hnew) s.chunk.pool.length
    rw [hkey] at hmem
    refine ⟨rfl, hs.append hv (by simp [poolKey]) hwf rfl fun key i hi => ?_,
      List.prefix_append _ _, .string cell, by simp [Parser.setChunk], iff_of_true rfl hconf⟩
    rcases hmem (key, i) hi with hold | he
    · exact .inl hold
    · cases he
      exact .inr ⟨rfl, cell, rfl, rfl⟩

theorem serves_scan (hscan : s.addPool v =
      match s.chunk.pool.findIdx? (Parser.samePoolVal s.heap · v) with
      | some i => (i, s)
      | none => (s.chunk.pool.length, s.setChunk { s.chunk with pool := s.chunk.pool ++ [v] }))
    (hv : IsConstant s.chunk.pool s.heap v) : Serves s v (s.addPool v) := by
  rw [hscan]
  split
  · next i hi =>
    obtain ⟨hlt, hsame, -⟩ := List.findIdx?_eq_some_iff_getElem.mp hi
    have hget := List.getElem?_eq_getElem hlt
    obtain ⟨k, hek, hvk⟩ := (samePoolVal_iff s.heap _ _).mp hsame
    refine ⟨rfl, hs, List.prefix_rfl, _, hget, ?_⟩
    rw [content_eq_iff hek hvk]
    constructor
    · -- The entries with this key are one.
      intro hnot e he hconf
      obtain ⟨j, hj⟩ := List.getElem?_of_mem he
      obtain ⟨k', hek', hvk'⟩ := keys_of_confused hconf
      cases hvk.symm.trans hvk'
      cases hs.apart i j _ _ k hget hj hek hek'
      rw [hget] at hj
      cases hj
      exact hnot hconf
    · exact fun h => h _ (List.getElem_mem hlt)
  · next hi =>
    have hnew : ∀ e ∈ s.chunk.pool, ∀ k, poolKey s.heap e = some k → poolKey s.heap v ≠ some k := by
      intro e he k hek hvk
      have := List.findIdx?_eq_none_iff.mp hi e he
      rw [(samePoolVal_iff s.heap e v).mpr ⟨k, hek, hvk⟩] at this
      cases this
    refine ⟨rfl, hs.append hv hnew hs.names rfl fun key i hi => .inl hi,
      List.prefix_append _ _, v, by simp [Parser.setChunk], iff_of_true rfl ?_⟩
    intro e he hconf
    obtain ⟨k, hek, hvk⟩ := keys_of_confused hconf
    exact hnew e he k hek hvk

theorem serves_addPool (hv : IsConstant s.chunk.pool s.heap v) : Serves s v (s.addPool v) := by
  cases v with
  | string cell => exact serves_string hs hv
  | _ => exact serves_scan hs rfl hv

end Requests

/-! Runs: the compiler's operations, and what goes on between compilations. -/

theorem keepsPool_of_growsBut {pool : List AerVal} {h h' : Heap}
    (hg : Heap.GrowsBut Cell.IsContainer h h') : KeepsPool pool h h' where
  wf := hg.wf
  cells v _ hv n hn := by
    have hlive : h.Live n ∧ ¬ Cell.IsContainer n := by
      cases v <;> cases hn
      case string.refl c => exact ⟨hv.1, id⟩
      case long.refl c => exact ⟨hv, id⟩
      case function.refl c => exact ⟨hv.1, id⟩
      all_goals exact hv.elim
    exact ⟨hg.live n hlive.1, hg.data n hlive.1 hlive.2⟩

/-- A collection that has the pool among its roots. -/
theorem keepsPool_gcCollect {pool : List AerVal} (h : Heap) {roots : List Root}
    (hroots : ∀ v ∈ pool, v ∈ roots.map Root.toVal) (minor : Bool) :
    KeepsPool pool h (h.gcCollect roots minor) where
  wf hw := hw.gcCollect minor
  cells v hp hv n hn := by
    have hlive : h.Live n := by
      cases v <;> cases hn
      case string.refl c => exact hv.1
      case long.refl c => exact hv
      case function.refl c => exact hv.1
      all_goals exact hv.elim
    have hreach : h.Reaches (roots.map Root.toVal) n :=
      .root (hroots v hp) (Heap.cellOf_of_live hn hlive)
    refine ⟨Heap.live_gcCollect_of_reach minor hlive hreach, ?_⟩
    have hm := h.marksOnly_markPhase roots minor
    cases n with
    | string c => exact congrFun ((Pool.sweep_data _).trans hm.strings.data) c
    | long c => exact congrFun ((Pool.sweep_data _).trans hm.longs.data) c
    | function c => exact congrFun ((Pool.sweep_data _).trans hm.functions.data) c
    | array c => exact congrFun ((Pool.sweep_data _).trans hm.arrays.data) c
    | dict c => exact congrFun ((Pool.sweep_data _).trans hm.dicts.data) c

theorem KeepsPool.trans {pool : List AerVal} {h h' h'' : Heap} (hk : KeepsPool pool h h')
    (hk' : KeepsPool pool h' h'') : KeepsPool pool h h'' where
  wf hw := hk'.wf (hk.wf hw)
  cells v hp hv n hn := by
    obtain ⟨hlive, hdata⟩ := hk'.cells v hp (hk.constant hp hv).1 n hn
    exact ⟨hlive, (hk.cells v hp hv n hn).2.trans hdata⟩

/-- The machine keeps the constants of its chunk. -/
structure KeepsConstants (m m' : State) : Prop where
  pool : m'.chunk.pool = m.chunk.pool
  names : m'.chunk.nameIndex = m.chunk.nameIndex
  heap : m.heap.PoolsWf → KeepsPool m.chunk.pool m.heap m'.heap

namespace KeepsConstants
variable {m m' m'' : State}

theorem trans (h : KeepsConstants m m') (h' : KeepsConstants m' m'') : KeepsConstants m m'' where
  pool := h'.pool.trans h.pool
  names := h'.names.trans h.names
  heap hw := (h.heap hw).trans (h.pool ▸ h'.heap ((h.heap hw).wf hw))

theorem of_keeps (h : m.Keeps m') : KeepsConstants m m' :=
  ⟨h.pool, h.names, fun hw => keepsPool_of_growsBut (h.heap hw)⟩

theorem of_same (hc : m'.chunk = m.chunk) (hs : Heap.Grows m.heap m'.heap) : KeepsConstants m m' :=
  of_keeps (.of_grows hc fun _ => hs.but _)

theorem gcCollect (m : State) (minor : Bool) : KeepsConstants m (m.gcCollect minor) where
  pool := rfl
  names := rfl
  heap _ := by
    refine keepsPool_gcCollect m.heap (fun v hv => ?_) minor
    exact List.mem_map.mpr ⟨.value v, by simp [State.roots, State.chunkRoots, hv], rfl⟩

theorem minorCycle (m : State) : KeepsConstants m m.minorCycle := by
  refine (gcCollect m true).trans ?_
  unfold State.minorCycle
  generalize m.gcCollect true = u
  exact of_same rfl (Heap.grows_of_pools rfl rfl rfl rfl rfl)

theorem majorCycle (m : State) : KeepsConstants m m.majorCycle := by
  refine (gcCollect m false).trans ?_
  unfold State.majorCycle
  generalize m.gcCollect false = u
  exact of_same rfl (.refl _ _)

theorem reportCeiling (m : State) : KeepsConstants m m.reportCeiling := by
  unfold State.reportCeiling
  split <;> exact of_same rfl (.refl _ _)

theorem checkCeiling (m : State) (ran : Bool) : KeepsConstants m (m.checkCeiling ran) := by
  unfold State.checkCeiling
  split
  · exact of_same rfl (.refl _ _)
  · split
    · exact reportCeiling m
    · exact (majorCycle m).trans (reportCeiling _)

theorem gcMaybeCollect (m : State) : KeepsConstants m m.gcMaybeCollect := by
  unfold State.gcMaybeCollect
  split
  · exact of_same rfl (.refl _ _)
  · split
    · exact of_same rfl (.refl _ _)
    · unfold State.gcRunCollectionCycle
      dsimp only
      split
      · exact (minorCycle m).trans ((majorCycle _).trans (checkCeiling _ _))
      · exact (minorCycle m).trans (checkCeiling _ _)

/-- A run of the machine, with its collections. -/
theorem steps {cfg : Config} (hn : cfg.NativeGrows) (h : Steps cfg m m') : KeepsConstants m m' := by
  induction h with
  | refl => exact of_same rfl (.refl _ _)
  | @tail t u _ hstep ih =>
    refine ih.trans ?_
    unfold dispatch at hstep
    split at hstep
    · cases hstep
    · exact (gcMaybeCollect t).trans (of_keeps (run_invariant hstep (.refl _) fun o s' a s'' hs he =>
        hs.trans (exec_keeps hn o s' a s'' he)))

end KeepsConstants

/-- A step of the compiler as the heap sees it. -/
def HeapGrows (s t : Parser) : Prop :=
  s.heap.PoolsWf → Heap.GrowsBut Cell.IsContainer s.heap t.heap

namespace HeapGrows
variable {s t u : Parser}

theorem of_eq (h : t.heap = s.heap) : HeapGrows s t := fun _ => h ▸ .refl _ _

theorem of_grows (h : s.heap.PoolsWf → Heap.Grows s.heap t.heap) : HeapGrows s t :=
  fun hw => (h hw).but _

theorem trans (h : HeapGrows s t) (h' : HeapGrows t u) : HeapGrows s u :=
  fun hw => (h hw).trans (h' ((h hw).wf hw))

theorem report (s : Parser) (rs : List Report) : (rs.foldl Parser.report s).heap = s.heap := by
  induction rs generalizing s with
  | nil => rfl
  | cons r rs ih => exact ih _

theorem lex (s : Parser) : HeapGrows s s.lex := by
  have hrest : (s.lexer.lex.reports.foldl Parser.report { s with
      lexer := s.lexer.lex.lexer, tokenType := s.lexer.lex.type.getD s.tokenType }).heap = s.heap :=
    report _ _
  unfold Parser.lex
  dsimp only
  cases s.lexer.lex.value with
  | none => exact of_eq hrest
  | some v =>
    refine of_grows fun hw => ?_
    simp only [Parser.setLiteral, hrest]
    cases v with
    | integer n => exact Heap.grows_aerInt hw n
    | real d | boolean b => exact .refl _ _
    | string b => exact Heap.grows_aerMakeString hw b

theorem addPool (s : Parser) (v : AerVal) : (s.addPool v).2.heap = s.heap := by
  unfold Parser.addPool
  cases v <;> dsimp only <;> split <;> rfl

theorem execBasic {o : Op} {a : o.Ans} (h : execBasic o s = .done a t) : HeapGrows s t := by
  cases o with
  | lex =>
    cases h
    exact .lex s
  | addPool v =>
    cases h
    exact of_eq (addPool s v)
  | makeString b =>
    cases h
    exact of_grows fun hw => Heap.grows_aerMakeString hw b
  | makeInt n =>
    cases h
    exact of_grows fun hw => Heap.grows_aerInt hw n
  | makeFunction f =>
    cases h
    exact of_grows fun hw => Heap.grows_newFunction hw f
  | tokenText | tokenInt | tokenReal | tokenBool | patch _ _ | poolVal _ =>
    simp only [Compiler.execBasic, Parser.orStuck] at h
    split at h <;> cases h
    exact of_eq rfl
  | addImport _ _ | stuck => cases h
  | _ =>
    cases h
    exact of_eq rfl

end HeapGrows

/-- The run of an imported module is not collected: it allocates, and writes to arrays and
dicts alone. -/
def Env.RunsGrow (env : Env) : Prop :=
  ∀ modules chunk heap failed vm chunk' heap',
    env.runModule modules chunk heap = some (failed, vm, chunk', heap') →
      heap.PoolsWf → Heap.GrowsBut Cell.IsContainer heap heap'

section Import
variable {env : Env} (hrun : env.RunsGrow) {compile : Parser → Result Unit}
include hrun

theorem heapGrows_loadModule (hcompile : ∀ s t, compile s = .done () t → HeapGrows s t)
    {name file : Bytes} {s t : Parser} (h : loadModule env compile name file s = .done () t) :
    HeapGrows s t := by
  unfold loadModule at h
  dsimp only at h
  split at h
  · cases h
    exact .of_eq rfl
  · split at h
    · cases h
      exact .of_eq rfl
    · obtain ⟨_, u, hu, h⟩ := Outcome.andThen_eq_done.mp h
      have hgrows := hcompile _ _ hu
      have hinner : HeapGrows s u := hgrows
      split at h
      · cases h
        exact hinner
      · split at h
        · cases h
        · next hm =>
          have hmodule : ∀ w : Parser, w.heap = _ → HeapGrows s w :=
            fun w hw => hinner.trans (fun hwf => hw ▸ hrun _ _ _ _ _ _ _ hm hwf)
          split at h
          · cases h
            exact hmodule _ rfl
          · cases h
            refine hmodule _ ?_
            unfold Parser.bindImport
            split <;> rfl

theorem heapGrows_exec (fuel n : Nat) (o : Op) (s : Parser) (a : o.Ans) (t : Parser)
    (h : exec env fuel n o s = .done a t) : HeapGrows s t := by
  induction n generalizing o s t with
  | zero => exact .execBasic h
  | succ n ih =>
    cases o with
    | addImport name path =>
      have hcompile : ∀ s t, parse (exec env fuel n) (parsers fuel) s.lex = .done () t →
          HeapGrows s t := fun s t ht =>
        (HeapGrows.lex s).trans (parse_rel (fun _ => .of_eq rfl) (fun _ _ _ => .trans) .lex
          (fun _ _ _ => .of_eq rfl) ih ht)
      change addImport env _ name path s = .done () t at h
      unfold addImport at h
      split at h
      · cases h
        refine .of_eq ?_
        unfold Parser.bindImport
        split <;> rfl
      · dsimp only at h
        split at h
        · cases h
          exact .of_eq rfl
        · exact heapGrows_loadModule hrun hcompile h
    | _ =>
      rw [exec_basic env fuel (n + 1) (by simp)] at h
      exact .execBasic h

end Import

theorem bindImport_pool (s : Parser) (name : Bytes) :
    (s.bindImport name).chunk.pool = s.chunk.pool ∧
      (s.bindImport name).chunk.nameIndex = s.chunk.nameIndex := by
  unfold Parser.bindImport
  split <;> exact ⟨rfl, rfl⟩

theorem loadModule_pool {env : Env} {compile : Parser → Result Unit} {name file : Bytes}
    {s t : Parser} (h : loadModule env compile name file s = .done () t) :
    t.chunk.pool = s.chunk.pool ∧ t.chunk.nameIndex = s.chunk.nameIndex := by
  unfold loadModule at h
  dsimp only at h
  split at h
  · cases h
    exact ⟨rfl, rfl⟩
  · split at h
    · cases h
      exact ⟨rfl, rfl⟩
    · obtain ⟨_, u, hu, h⟩ := Outcome.andThen_eq_done.mp h
      split at h
      · cases h
        exact ⟨rfl, rfl⟩
      · split at h
        · cases h
        · split at h
          · cases h
            exact ⟨rfl, rfl⟩
          · cases h
            exact bindImport_pool _ _

theorem markLine_pool (c : Chunk) (offset line : Nat) :
    (c.markLine offset line).pool = c.pool ∧ (c.markLine offset line).nameIndex = c.nameIndex := by
  unfold Chunk.markLine
  split
  · split <;> exact ⟨rfl, rfl⟩
  · exact ⟨rfl, rfl⟩

/-- Only a request changes the pool; a rollback does not. -/
theorem exec_pool {env : Env} {fuel n : Nat} {o : Op} {s t : Parser} {a : o.Ans}
    (ho : ∀ v, o ≠ .addPool v) (h : exec env fuel n o s = .done a t) :
    t.chunk.pool = s.chunk.pool ∧ t.chunk.nameIndex = s.chunk.nameIndex := by
  have hbasic : execBasic o s = .done a t →
      t.chunk.pool = s.chunk.pool ∧ t.chunk.nameIndex = s.chunk.nameIndex := by
    intro h
    cases o with
    | addPool v => exact absurd rfl (ho v)
    | lex =>
      cases h
      exact ⟨congrArg Chunk.pool (lex_chunk s), congrArg Chunk.nameIndex (lex_chunk s)⟩
    | tokenText | tokenInt | tokenReal | tokenBool | patch _ _ | poolVal _ =>
      simp only [Compiler.execBasic, Parser.orStuck] at h
      split at h <;> cases h
      exact ⟨rfl, rfl⟩
    | addImport _ _ | stuck => cases h
    | markLine =>
      cases h
      exact markLine_pool _ _ _
    | _ =>
      cases h
      exact ⟨rfl, rfl⟩
  cases n with
  | zero => exact hbasic h
  | succ n =>
    cases o with
    | addImport name path =>
      change addImport env _ name path s = .done () t at h
      unfold addImport at h
      split at h
      · cases h
        exact bindImport_pool s name
      · dsimp only at h
        split at h
        · cases h
          exact ⟨rfl, rfl⟩
        · exact loadModule_pool h
    | _ =>
      rw [exec_basic env fuel (n + 1) (by simp)] at h
      exact hbasic h

/-- A run: operations of the compiler, whose requests are for constants, and what goes on
outside of it while the pool is kept. -/
inductive PoolRun (env : Env) (fuel n : Nat) (s : Parser) : Parser → Prop
  | start : PoolRun env fuel n s s
  | op {t u : Parser} {o : Op} {a : o.Ans} : PoolRun env fuel n s t →
      (∀ v, o = .addPool v → IsConstant t.chunk.pool t.heap v) →
      exec env fuel n o t = .done a u → PoolRun env fuel n s u
  | outside {t u : Parser} : PoolRun env fuel n s t → u.chunk.pool = t.chunk.pool →
      u.chunk.nameIndex = t.chunk.nameIndex → KeepsPool t.chunk.pool t.heap u.heap →
      PoolRun env fuel n s u

namespace PoolRun
variable {env : Env} {fuel n : Nat} {s t : Parser}

/-- The invariant holds after a run, and no entry changes what it tells. -/
theorem sound (hrun : env.RunsGrow) (h : PoolRun env fuel n s t) (hs : Sound s.chunk s.heap) :
    Sound t.chunk t.heap ∧ s.chunk.pool <+: t.chunk.pool ∧
      ∀ e ∈ s.chunk.pool, content t.heap e = content s.heap e := by
  induction h with
  | start => exact ⟨hs, List.prefix_rfl, fun _ _ => rfl⟩
  | @op t u o a _ hreq he ih =>
    obtain ⟨ht, hsub, htell⟩ := ih
    by_cases ho : ∃ v, o = .addPool v
    · obtain ⟨v, rfl⟩ := ho
      have hserves := serves_addPool ht (hreq v rfl)
      rw [exec_basic env fuel n (by simp)] at he
      cases he
      refine ⟨hserves.heap ▸ hserves.sound, hsub.trans hserves.kept, ?_⟩
      rw [hserves.heap]
      exact htell
    · have hpool := exec_pool (fun v hv => ho ⟨v, hv⟩) he
      have hk : KeepsPool t.chunk.pool t.heap u.heap :=
        keepsPool_of_growsBut (heapGrows_exec hrun fuel n o t a u he ht.wf)
      refine ⟨ht.kept hpool.1 hpool.2 hk, hpool.1 ▸ hsub, fun e hmem => ?_⟩
      have hmem' := hsub.subset hmem
      exact (hk.constant hmem' (ht.constants e hmem')).2.1.trans (htell e hmem)
  | outside _ hpool hnames hk ih =>
    obtain ⟨ht, hsub, htell⟩ := ih
    refine ⟨ht.kept hpool hnames hk, hpool ▸ hsub, fun e hmem => ?_⟩
    have hmem' := hsub.subset hmem
    exact (hk.constant hmem' (ht.constants e hmem')).2.1.trans (htell e hmem)

/-- The machine's turns on the chunk, between two compilations or after the last. -/
theorem turns {cfg : Config} (hn : cfg.NativeGrows) (h : PoolRun env fuel n s t) {m m' : State}
    (hchunk : m.chunk = t.chunk) (hheap : m.heap = t.heap) (hw : t.heap.PoolsWf)
    (hm : Steps cfg m m') :
    PoolRun env fuel n s { t with chunk := m'.chunk, heap := m'.heap } := by
  obtain ⟨hpool, hnames, hk⟩ := KeepsConstants.steps hn hm
  rw [hchunk, hheap] at hk
  exact h.outside (hpool.trans (hchunk ▸ rfl)) (hnames.trans (hchunk ▸ rfl)) (hk hw)

/-- What a program of the parser does is a run, if its requests are for constants. -/
theorem of_run {α : Type} {p : P α} {a : α} {u : Parser} (hs : PoolRun env fuel n u s)
    (h : p.run (exec env fuel n) s = .done a t)
    (hreq : ∀ v s', Visits (exec env fuel n) p s (.addPool v) s' →
      IsConstant s'.chunk.pool s'.heap v) : PoolRun env fuel n u t := by
  induction p generalizing s with
  | pure b =>
    cases h
    exact hs
  | op o k ih =>
    simp only [Prog.run] at h
    cases he : exec env fuel n o s with
    | stop w s' =>
      rw [he] at h
      cases h
    | done r s' =>
      rw [he] at h
      refine ih r (hs.op ?_ he) h fun v s'' hv => hreq v s'' (.next he hv)
      rintro v rfl
      exact hreq v s .here

end PoolRun

theorem runsGrow_alone : Env.alone.RunsGrow := by
  intro modules chunk heap failed vm chunk' heap' h
  cases h

/-- A parser on an empty chunk, at the end of an empty file. -/
def idle : Parser := .start .run (.open [] []) .init .init

/-- A default of zero, and one of the negative zero behind it. -/
def twoZeros : String := "function f(a = 0.0, b = -0.0):\n    return b\nprint(f())\n"

/-- The same program without the first default. -/
def negativeZero : String := "function f(b = -0.0):\n    return b\nprint(f())\n"

/-- A definition that fails, and another one of the same name and arity. -/
def redefinition : Parser :=
  (parseText 30 "function f(a = 1):\n    )\nfunction f(a = 2):\n    return a\n").state

/-- The defaults of the functions of a pool. -/
def functionDefaults (s : Parser) : List (List Plain) :=
  s.chunk.pool.filterMap fun v =>
    match v with
    | .function c => some ((s.heap.functions.data c).defaults.map (plain s.heap))
    | _ => none

end Aer.Compiler
