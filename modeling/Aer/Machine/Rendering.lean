import Aer.Json.Encode
import Aer.Machine.Calls
import Aer.Memory.Nesting
import Aer.Program.Source

set_option linter.all false

/-! Where printing, string conversion and JSON encoding end: the recursions of the two
formatters over the nesting of the heap. -/
namespace Aer.Machine

open Aer.Data Aer.Memory Aer.Lib.Interaction Aer.Lib.Unfolding Relation

/-- A value the recursions do not go into. -/
def IsLeaf (v : AerVal) : Prop := ¬ ((∃ c, v = .array c) ∨ ∃ c, v = .dict c)

theorem inside_of_isLeaf (h : Heap) (v : AerVal) (hv : IsLeaf v) : h.inside v = [] := by
  cases v with
  | array c => exact absurd (.inl ⟨c, rfl⟩) hv
  | dict c => exact absurd (.inr ⟨c, rfl⟩) hv
  | _ => rfl

theorem isSome_mapM {α β : Type} {f : α → Option β} {l : List α} :
    (l.mapM f).isSome = true ↔ ∀ a ∈ l, (f a).isSome = true := by
  induction l with
  | nil => simp
  | cons a l ih =>
    rw [List.mapM_cons, List.forall_mem_cons, ← ih]
    cases f a <;> cases l.mapM f <;> simp

/-- Everything below the value is in use, and every instance below it is whole. -/
structure Whole (h : Heap) (v : AerVal) : Prop where
  valid : ∀ w, ReflTransGen (Child h.inside) w v → h.Valid w
  sized : h.Sized

theorem Whole.child {h : Heap} {v w : AerVal} (hv : Whole h v) (hw : w ∈ h.inside v) : Whole h w :=
  ⟨fun x hx => hv.valid x (hx.tail hw), hv.sized⟩

section Depth
variable {h : Heap}

theorem Whole.array {c : Nat} (hv : Whole h (.array c)) : h.arrays.Live c :=
  hv.valid _ .refl (.array c) rfl

theorem Whole.dict {c : Nat} (hv : Whole h (.dict c)) : h.dicts.Live c :=
  hv.valid _ .refl (.dict c) rfl

theorem within_array {n c : Nat} (hc : h.arrays.Live c) :
    Within h.inside IsLeaf (n + 1) (.array c) ↔
      ∀ v ∈ (h.arrays.data c).items, Within h.inside IsLeaf n v := by
  have hinside : h.inside (.array c) = (h.arrays.data c).items := if_pos hc
  constructor
  · rintro (hl | hw)
    · exact absurd (.inl ⟨c, rfl⟩) hl
    · rwa [hinside] at hw
  · intro hw
    exact .node (by rwa [hinside])

theorem within_dict {n c : Nat} (hc : h.dicts.Live c) :
    Within h.inside IsLeaf (n + 1) (.dict c) ↔
      ∀ v ∈ (h.dicts.data c).values, Within h.inside IsLeaf n v := by
  have hinside : h.inside (.dict c) = (h.dicts.data c).values := if_pos hc
  constructor
  · rintro (hl | hw)
    · exact absurd (.inr ⟨c, rfl⟩) hl
    · rwa [hinside] at hw
  · intro hw
    exact .node (by rwa [hinside])

theorem not_within_zero {v : AerVal} (hv : ¬ IsLeaf v) : ¬ Within h.inside IsLeaf 0 v := by
  rintro (hl | hw)
  exact hv hl

end Depth

section Ends
variable {s : State} {v : AerVal} {n : Nat}

theorem isSome_format_leaf (hv : s.heap.Valid v) (hl : IsLeaf v) (inCollection : Bool) :
    (s.formatDepth n inCollection v).isSome = true := by
  cases v with
  | array c => exact absurd (.inl ⟨c, rfl⟩) hl
  | dict c => exact absurd (.inr ⟨c, rfl⟩) hl
  | string c =>
    have hdata : s.stringData c = some (s.heap.strings.data c) := if_pos (hv (.string c) rfl)
    simp only [State.formatDepth, hdata, Option.map_some, Option.isSome_some]
  | long c =>
    have hdata : s.asInt (.long c) = some (s.heap.longs.data c) := if_pos (hv (.long c) rfl)
    simp only [State.formatDepth, hdata, Option.map_some, Option.isSome_some]
  | _ => cases n <;> rfl

theorem isSome_format_array {c : Nat} (hv : Whole s.heap (.array c)) (inCollection : Bool) :
    (s.formatDepth (n + 1) inCollection (.array c)).isSome = true ↔
      ∀ w ∈ (s.heap.arrays.data c).items, (s.formatDepth n true w).isSome = true := by
  have hdata : s.arrayData c = some (s.heap.arrays.data c) := if_pos hv.array
  rw [← isSome_mapM]
  cases hshape : (s.heap.arrays.data c).shape with
  | none =>
    simp only [State.formatDepth, hdata, hshape, Option.bind_eq_bind, Option.bind_some]
    cases (s.heap.arrays.data c).items.mapM (s.formatDepth n true) <;> simp
  | some id =>
    obtain ⟨shape, hid, hlen⟩ := hv.sized c hv.array id hshape
    have htake : (s.heap.arrays.data c).items.take shape.fields.length =
        (s.heap.arrays.data c).items := List.take_of_length_le hlen.le
    simp only [State.formatDepth, hdata, hshape, hid, htake, Option.bind_eq_bind, Option.bind_some]
    cases (s.heap.arrays.data c).items.mapM (s.formatDepth n true) <;> simp

theorem isSome_format_dict {c : Nat} (hv : Whole s.heap (.dict c)) (inCollection : Bool) :
    (s.formatDepth (n + 1) inCollection (.dict c)).isSome = true ↔
      ∀ w ∈ (s.heap.dicts.data c).values, (s.formatDepth n true w).isSome = true := by
  have hdata : s.dictData c = some (s.heap.dicts.data c) := if_pos hv.dict
  let entry (e : Bytes × AerVal) : Option Bytes := do
    let v ← s.formatDepth n true e.2
    return quoted e.1 ++ bytes ": " ++ v
  have hentry (e : Bytes × AerVal) : (entry e).isSome = (s.formatDepth n true e.2).isSome := by
    cases h : s.formatDepth n true e.2 <;> simp [entry, h]
  have hall : ((s.heap.dicts.data c).entries.mapM entry).isSome = true ↔
      ∀ w ∈ (s.heap.dicts.data c).values, (s.formatDepth n true w).isSome = true := by
    rw [isSome_mapM, HashTable.values, List.forall_mem_map]
    simp only [hentry]
  rw [← hall]
  simp only [State.formatDepth, hdata, Option.bind_eq_bind, Option.bind_some]
  change ((do
    let items ← (s.heap.dicts.data c).entries.mapM entry
    some (byte '\x7b' :: commaSep items ++ [byte '\x7d']) : Option Bytes)).isSome = true ↔ _
  cases (s.heap.dicts.data c).entries.mapM entry <;> simp

/-- The formatter ends within a depth exactly when the nesting does. -/
theorem isSome_formatDepth (hv : Whole s.heap v) (inCollection : Bool) :
    (s.formatDepth n inCollection v).isSome = true ↔ Within s.heap.inside IsLeaf n v := by
  by_cases hl : IsLeaf v
  · exact iff_of_true (isSome_format_leaf (hv.valid v .refl) hl inCollection) (.leaf hl)
  induction n generalizing v inCollection with
  | zero =>
    refine iff_of_false ?_ (not_within_zero hl)
    rcases not_not.mp hl with ⟨c, rfl⟩ | ⟨c, rfl⟩ <;> exact Bool.false_ne_true
  | succ n ih =>
    have hbelow (w : AerVal) (hw : w ∈ s.heap.inside v) :
        (s.formatDepth n true w).isSome = true ↔ Within s.heap.inside IsLeaf n w := by
      by_cases hleaf : IsLeaf w
      · exact iff_of_true (isSome_format_leaf ((hv.child hw).valid w .refl) hleaf true) (.leaf hleaf)
      · exact ih (hv.child hw) true hleaf
    rcases not_not.mp hl with ⟨c, rfl⟩ | ⟨c, rfl⟩
    · rw [isSome_format_array hv, within_array hv.array]
      have hinside : s.heap.inside (.array c) = (s.heap.arrays.data c).items := if_pos hv.array
      exact forall₂_congr fun w hw => hbelow w (hinside ▸ hw)
    · rw [isSome_format_dict hv, within_dict hv.dict]
      have hinside : s.heap.inside (.dict c) = (s.heap.dicts.data c).values := if_pos hv.dict
      exact forall₂_congr fun w hw => hbelow w (hinside ▸ hw)

/-- `encodeAll` ends when each of its elements does. -/
theorem encodeAll_ne_none {α : Type} {f : α → Bytes → Json.EncodeResult} {l : List α}
    (hf : ∀ a ∈ l, ∀ b, f a b ≠ none) (first : Bool) (b : Bytes) :
    Json.encodeAll f first l b ≠ none := by
  induction l generalizing first b with
  | nil => exact Option.some_ne_none _
  | cons a l ih =>
    rw [List.forall_mem_cons] at hf
    unfold Json.encodeAll
    split
    · exact ih hf.2 false _
    · exact hf.1 _

theorem closeWith_ne_none {close : UInt8} {r : Json.EncodeResult} (hr : r ≠ none) :
    Json.closeWith close r ≠ none := by
  unfold Json.closeWith
  split
  · exact Option.some_ne_none _
  · exact hr

theorem jsonEncodeValue_leaf {h : Heap} (names : Nat → Bytes) (hv : h.Valid v) (hl : IsLeaf v)
    (b : Bytes) : Json.jsonEncodeValue names h n v b ≠ none := by
  cases v with
  | array c => exact absurd (.inl ⟨c, rfl⟩) hl
  | dict c => exact absurd (.inr ⟨c, rfl⟩) hl
  | string c =>
    have hlive : h.strings.Live c := hv (.string c) rfl
    simp only [Json.jsonEncodeValue, if_pos hlive]
    exact Option.some_ne_none _
  | long c =>
    have hlive : h.longs.Live c := hv (.long c) rfl
    simp only [Json.jsonEncodeValue, if_pos hlive]
    exact Option.some_ne_none _
  | _ =>
    simp only [Json.jsonEncodeValue]
    exact Option.some_ne_none _

/-- The JSON encoder ends, with a text or an error, within the depth of the nesting. -/
theorem jsonEncodeValue_ne_none {h : Heap} (names : Nat → Bytes) (hv : Whole h v)
    (hw : Within h.inside IsLeaf n v) (b : Bytes) : Json.jsonEncodeValue names h n v b ≠ none := by
  induction hw generalizing b with
  | leaf hl => exact jsonEncodeValue_leaf names (hv.valid _ .refl) hl b
  | @node n v _ ih =>
    by_cases hl : IsLeaf v
    · exact jsonEncodeValue_leaf names (hv.valid _ .refl) hl b
    have hbelow (w : AerVal) (hw : w ∈ h.inside v) (b : Bytes) :
        Json.jsonEncodeValue names h n w b ≠ none := ih w hw (hv.child hw) b
    rcases not_not.mp hl with ⟨c, rfl⟩ | ⟨c, rfl⟩
    · have hinside : h.inside (.array c) = (h.arrays.data c).items := if_pos hv.array
      rw [hinside] at hbelow
      rw [Json.jsonEncodeValue, if_pos hv.array]
      dsimp only
      split
      · next id hshape =>
        obtain ⟨shape, hid, hlen⟩ := hv.sized c hv.array id hshape
        rw [hid]
        dsimp only
        refine closeWith_ne_none (encodeAll_ne_none (fun f hf b => ?_) true _)
        have hlt : f.2 < (h.arrays.data c).items.length := by
          have := List.snd_lt_of_mem_zipIdx hf
          rw [hlen]
          simpa using this
        rw [List.getElem?_eq_getElem hlt]
        exact hbelow _ (List.getElem_mem hlt) _
      · exact closeWith_ne_none (encodeAll_ne_none (fun w hw b => hbelow w hw b) true _)
    · have hinside : h.inside (.dict c) = (h.dicts.data c).values := if_pos hv.dict
      rw [hinside] at hbelow
      rw [Json.jsonEncodeValue, if_pos hv.dict]
      refine closeWith_ne_none (encodeAll_ne_none (fun e he b => ?_) true _)
      exact hbelow e.2 (List.mem_map_of_mem he) _

/-- Printing, string conversion and JSON encoding all end: some depth of nested calls is
enough. -/
structure FormattingEnds (s : State) (v : AerVal) : Prop where
  format : ∃ depth text, s.formatDepth depth false v = some text
  print : ∀ cfg, ∃ t, (printValue v).run (exec cfg) s = .done () t
  toStr : ∀ cfg, ∃ text t, (vmToStr v).run (exec cfg) s = .done text t
  encode : ∀ names, ∃ depth r, Json.jsonEncodeValue names s.heap depth v [] = some r

theorem within_containers (hv : Whole s.heap v) (h : Acyclic s.heap.inside v) :
    Within s.heap.inside IsLeaf s.heap.containers.card v :=
  within_of_acyclic s.heap.containers h fun w hw hl =>
    Heap.mem_containers (hv.valid w hw) (not_not.mp hl)

/-- The depth the machine's instructions give the formatter is enough. -/
theorem format_eq_some (hv : Whole s.heap v) (h : Acyclic s.heap.inside v) :
    ∃ text, s.format v = some text := by
  have hw := (within_containers hv h).mono s.heap.card_containers
  exact Option.isSome_iff_exists.mp ((isSome_formatDepth hv false).mpr hw)

theorem formattingEnds_iff (hv : Whole s.heap v) :
    FormattingEnds s v ↔ Acyclic s.heap.inside v := by
  constructor
  · rintro ⟨⟨depth, text, htext⟩, -, -, -⟩
    have hw := (isSome_formatDepth hv false).mp (Option.isSome_iff_exists.mpr ⟨text, htext⟩)
    exact acyclic_of_acc (hw.acc (inside_of_isLeaf s.heap))
  · intro h
    obtain ⟨text, htext⟩ := format_eq_some hv h
    have hformat (cfg : Config) : exec cfg (.format v) s = .done text s := by
      change orFault (s.format v) s = _
      rw [htext]
      rfl
    refine ⟨⟨_, text, htext⟩, fun cfg => ?_, fun cfg => ?_, ?_⟩
    · have hrun : (printValue v).run (exec cfg) s =
          exec cfg (.print (cString text ++ bytes "\n")) s := by
        unfold printValue
        rw [run_bind, show (perform (.format v)).run (exec cfg) s = _ from
          (run_perform _ _ _).trans (hformat cfg), Outcome.done_andThen]
        exact run_perform _ _ _
      exact ⟨_, hrun⟩
    · unfold vmToStr
      split
      · exact ⟨_, s, rfl⟩
      · have hrun : (do perform (.newString (← perform (.format v))) : Handler AerVal).run
            (exec cfg) s = exec cfg (.newString text) s := by
          rw [run_bind, show (perform (.format v)).run (exec cfg) s = _ from
            (run_perform _ _ _).trans (hformat cfg), Outcome.done_andThen]
          exact run_perform _ _ _
        exact ⟨_, _, hrun⟩
    · intro names
      exact ⟨_, Option.ne_none_iff_exists'.mp
        (jsonEncodeValue_ne_none names hv (within_containers hv h) [])⟩

end Ends

/-- Along every run that builds containers, formatting a value ends exactly when nothing in the
value is inside itself; and where no store of the run puts a container into itself, directly or
through others, it ends for every value. -/
theorem built_formattingEnds_iff {links : Heap → AerVal → AerVal → Prop} {m : Mutator}
    (hb : Mutator.Built links m) {s : State} (hs : s.heap = m.heap) {v : AerVal}
    (hv : m.heap.Valid v) :
    (FormattingEnds s v ↔ Acyclic m.heap.inside v) ∧
    ((∀ h w c, links h w c → h.Apart w c) → FormattingEnds s v) := by
  have hwhole : Whole s.heap v := by
    rw [hs]
    exact ⟨fun w hw => hb.inv.generational.valid_below hv hw, hb.sized⟩
  rw [← hs]
  refine ⟨formattingEnds_iff hwhole, fun hapart => (formattingEnds_iff hwhole).mpr fun w _ => ?_⟩
  rw [hs]
  exact hb.not_cycle hapart w

section Sample

/-- An array that has been appended to itself. -/
def selfAppended : Mutator :=
  let m := Mutator.init.gain (Mutator.init.heap.newArray ⟨[], 4, none⟩)
  m.withHeap (m.heap.appendItem 0 (.array 0))

theorem built_selfAppended : Mutator.Built (fun _ _ _ => True) selfAppended := by
  have hheld (n : Cell) (hn : Cell.ofVal (.array 0) = some n) :
      (Mutator.init.gain (Mutator.init.heap.newArray ⟨[], 4, none⟩)).heap.Reaches
        (Mutator.init.gain (Mutator.init.heap.newArray ⟨[], 4, none⟩)).rootVals n := by
    cases hn
    exact .root (k := .array 0) (by decide) rfl
  exact .step (.step .init (.arrayLiteral _ [] 4 (by simp)))
    (.append _ 0 (.array 0) hheld hheld rfl trivial)

theorem built_formattingEnds_iff_self :
    (FormattingEnds { State.init with heap := selfAppended.heap } (.array 0) ↔
      Acyclic selfAppended.heap.inside (.array 0)) ∧
    ((∀ h w c, (fun _ _ _ => True : Heap → AerVal → AerVal → Prop) h w c → h.Apart w c) →
      FormattingEnds { State.init with heap := selfAppended.heap } (.array 0)) :=
  built_formattingEnds_iff built_selfAppended rfl (by rintro n ⟨⟩; exact ⟨by decide, by decide⟩)

/-- An array inside itself keeps the formatter going. -/
theorem formatDepth_self {s : State} {c : Nat} (hc : s.heap.arrays.Live c)
    (hshape : (s.heap.arrays.data c).shape = none)
    (hself : .array c ∈ (s.heap.arrays.data c).items) (n : Nat) (inCollection : Bool) :
    s.formatDepth n inCollection (.array c) = none := by
  induction n generalizing inCollection with
  | zero => rfl
  | succ n ih =>
    have hdata : s.arrayData c = some (s.heap.arrays.data c) := if_pos hc
    have hitems : (s.heap.arrays.data c).items.mapM (s.formatDepth n true) = none := by
      apply Option.not_isSome_iff_eq_none.mp
      intro hsome
      have := isSome_mapM.mp hsome _ hself
      rw [ih] at this
      cases this
    simp only [State.formatDepth, hdata, hshape, hitems, Option.bind_eq_bind, Option.bind_some,
      Option.bind_none]

/-- The array is on the stack for the call of `print`. -/
def selfProgram : String :=
  "a = [1]
append(a, a)
print(a)
"

theorem selfProgram_endless :
    ∃ s, Steps {} (Program.load 30 selfProgram) s ∧ s.vm.stackTop = 1 ∧
      s.vm.stack 0 = .array 0 ∧ (vmRun {} 1 s).isDone = false ∧ ¬ FormattingEnds s (.array 0) := by
  have hsteps : (vmRun {} 8 (Program.load 30 selfProgram)).isDone = true := by decide +kernel
  obtain ⟨s, hs⟩ : ∃ s, s = Program.after 8 30 selfProgram := ⟨_, rfl⟩
  have hfacts : (s.vm.stackTop = 1 ∧ s.vm.stack 0 = .array 0 ∧ (vmRun {} 1 s).isDone = false) ∧
      s.heap.arrays.Live 0 ∧ (s.heap.arrays.data 0).shape = none ∧
      .array 0 ∈ (s.heap.arrays.data 0).items := by
    rw [hs]
    decide +kernel
  obtain ⟨⟨htop, hstack, hstuck⟩, hlive, hshape, hself⟩ := hfacts
  refine ⟨s, hs ▸ Program.steps_after hsteps, htop, hstack, hstuck, fun hends => ?_⟩
  obtain ⟨depth, text, htext⟩ := hends.format
  rw [formatDepth_self hlive hshape hself] at htext
  cases htext

end Sample

end Aer.Machine
