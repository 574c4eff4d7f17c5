import Aer.Program.ModuleCall
import Aer.Program.Isolation
import Aer.Json.EncodedText

set_option linter.all false

/-! The names of struct types across chunks. A shape has its names as indices of the pool of
the chunk that declares it; the machine looks them up in the pool of the chunk that runs. -/
namespace Aer.Machine

open Aer.Data Aer.Memory Aer.Json Aer.Lib.Interaction

/-- The names of a struct declaration. -/
structure Declaration where
  name : Bytes
  fields : List Bytes
  identifiers : ∀ b ∈ name :: fields, b ≠ [] ∧ ∀ c ∈ b, c ≠ 0

/-- The declared field of a name. -/
def Declaration.field? (d : Declaration) (name : Bytes) : Option Nat := d.fields.findIdx? (· == name)

def stringCell : AerVal → Option Nat
  | .string cell => some cell
  | _ => none

theorem stringCell_eq_some_iff {v : AerVal} {cell : Nat} :
    stringCell v = some cell ↔ v = .string cell := by
  cases v with
  | _ => simp [stringCell]

namespace Chunk

/-- A string constant as a whole, as the encoder of JSON takes it. -/
def nameData (c : Chunk) (h : Heap) (i : Nat) : Bytes :=
  match c.pool[i]? with
  | some (.string cell) => h.strings.data cell
  | _ => []

def Spells (c : Chunk) (h : Heap) (i : Nat) (b : Bytes) : Prop :=
  ∃ cell, c.pool[i]? = some (AerVal.string cell) ∧ h.strings.Live cell ∧ h.strings.data cell = b

/-- The collector has left the chunk its strings. -/
def HasStrings (c : Chunk) (h : Heap) : Prop :=
  ∀ cell, AerVal.string cell ∈ c.pool → h.strings.Live cell

instance (c : Chunk) (h : Heap) (i : Nat) (b : Bytes) : Decidable (c.Spells h i b) :=
  decidable_of_iff (∃ cell ∈ c.pool[i]?.bind stringCell, h.strings.Live cell ∧
      h.strings.data cell = b) <| by
    simp only [Option.mem_def, Option.bind_eq_some_iff, stringCell_eq_some_iff, Spells,
      exists_eq_right]

instance (c : Chunk) (h : Heap) : Decidable (c.HasStrings h) :=
  decidable_of_iff (∀ v ∈ c.pool, ∀ cell ∈ stringCell v, h.strings.Live cell) <| by
    simp only [Option.mem_def, stringCell_eq_some_iff, HasStrings]
    exact ⟨fun hc cell hmem => hc _ hmem cell rfl, fun hc v hmem cell hv => hc cell (hv ▸ hmem)⟩

/-- The chunk has declared the type, under these names. -/
structure Declares (c : Chunk) (h : Heap) (id : Nat) (shape : Shape) (d : Declaration) : Prop where
  registered : id ∈ c.shapes
  stored : h.shapes[id]? = some shape
  name : c.Spells h shape.name d.name
  fields : List.Forall₂ (fun f b => c.Spells h f.1 b) shape.fields d.fields

/-- At the indices of the type, the pool of the chunk has the declared names, and a declared
field name stands nowhere else in it. -/
structure Agrees (c : Chunk) (h : Heap) (shape : Shape) (d : Declaration) : Prop where
  name : ∃ b, c.Spells h shape.name b ∧ cString b = d.name
  fields : List.Forall₂ (fun f b => c.Spells h f.1 b) shape.fields d.fields
  once : ∀ i j b, c.Spells h i b → c.Spells h j b → b ∈ d.fields → i = j

end Chunk

/-- A live instance of a type with `n` fields. -/
structure State.Instance (s : State) (c id n : Nat) : Prop where
  live : s.heap.arrays.Live c
  shape : (s.heap.arrays.data c).shape = some id
  items : n ≤ (s.heap.arrays.data c).items.length

/-- The member of a field that the encoder appends to an object. -/
def encodeField (names : Nat → Bytes) (h : Heap) (depth : Nat) (items : List AerVal)
    (f : Bytes × Nat) (b : Bytes) : EncodeResult :=
  match items[f.2]? with
  | none => none
  | some v => jsonEncodeValue names h depth v (jsonEncodeString b f.1 ++ [byte ':'])

/-- `type()`, the text that printing and interpolation show, and the JSON text of an instance
have the declared names. -/
structure State.ShownAs (s : State) (c : Nat) (d : Declaration) : Prop where
  typeName : s.vmTypeName (.array c) = some d.name
  printed : ∀ depth inCollection, s.formatDepth (depth + 1) inCollection (.array c) =
    (((s.heap.arrays.data c).items.take d.fields.length).mapM (s.formatDepth depth true)).map
      fun texts => d.name ++ byte '{' ::
        commaSep (d.fields.zipWith (fun f text => f ++ bytes ": " ++ text) texts) ++ [byte '}']
  encoded : ∀ depth b,
    jsonEncodeValue (s.chunk.nameData s.heap) s.heap (depth + 1) (.array c) b =
      closeWith (byte '}') (encodeAll
        (encodeField (s.chunk.nameData s.heap) s.heap depth (s.heap.arrays.data c).items) true
        d.fields.zipIdx (b ++ [byte '{']))

/-- The field instructions at the machine's position, with an operand that spells a name, act
on the declared field of that name, or report an error where the declaration has none. -/
structure State.AccessedAs (cfg : Config) (s : State) (c : Nat) (d : Declaration) : Prop where
  get : ∀ i b n, s.chunk.code[s.vm.ip]? = some (.ofNat i) → s.chunk.Spells s.heap i b →
    s.vm.stackTop = n + 1 → n < vmStackMax → s.vm.stack n = .array c →
    match d.field? b with
    | some k => ∃ v, (s.heap.arrays.data c).items[k]? = some v ∧
        lblFieldGet.run (exec cfg) s =
          .done () { s with vm := { s.vm.setStack n v with ip := s.vm.ip + 1 } }
    | none => ∃ t, lblFieldGet.run (exec cfg) s = .done () t ∧ t.runtimeHadError = true ∧
        t.heap = s.heap
  set : ∀ i b n v, s.chunk.code[s.vm.ip]? = some (.ofNat i) → s.chunk.Spells s.heap i b →
    s.vm.stackTop = n + 2 → s.vm.stack n = .array c → s.vm.stack (n + 1) = v →
    match d.field? b with
    | some k => lblFieldSet.run (exec cfg) s =
        .done () { s with
          heap := s.heap.setItem c k v
          vm := { s.vm with ip := s.vm.ip + 1, stackTop := n } }
    | none => ∃ t, lblFieldSet.run (exec cfg) s = .done () t ∧ t.runtimeHadError = true ∧
        t.heap = s.heap

/-- A machine that runs the chunk treats every instance of the type as the declaration says. -/
def Chunk.Treats (cfg : Config) (c : Chunk) (h : Heap) (id : Nat) (d : Declaration) : Prop :=
  ∀ (s : State) (cell : Nat), s.chunk.pool = c.pool → s.heap.strings = h.strings →
    s.heap.shapes = h.shapes → s.Instance cell id d.fields.length →
    s.ShownAs cell d ∧ s.AccessedAs cfg cell d

section Spelling
variable {c : Chunk} {h : Heap} {s : State}

theorem Chunk.Spells.nameText {i : Nat} {b : Bytes} (hb : c.Spells h i b) :
    c.nameText h i = cString b := by
  obtain ⟨cell, hpool, -, hdata⟩ := hb
  unfold Chunk.nameText
  rw [hpool]
  exact congrArg cString hdata

theorem Chunk.Spells.nameData {i : Nat} {b : Bytes} (hb : c.Spells h i b) : c.nameData h i = b := by
  obtain ⟨cell, hpool, -, hdata⟩ := hb
  unfold Chunk.nameData
  rw [hpool]
  exact hdata

theorem Chunk.Spells.perform (cfg : Config) {i : Nat} {b : Bytes} (hb : s.chunk.Spells s.heap i b) :
    exec cfg (.nameText i) s = .done (cString b) s := by
  obtain ⟨cell, hpool, hlive, hdata⟩ := hb
  have htext : s.stringData cell = some b := (if_pos hlive).trans (congrArg some hdata)
  simp only [exec, hpool, htext]
  rfl

theorem Chunk.Spells.of_same {c' : Chunk} {h' : Heap} {i : Nat} {b : Bytes} (hb : c.Spells h i b)
    (hpool : c'.pool = c.pool) (hstrings : h'.strings = h.strings) : c'.Spells h' i b := by
  unfold Chunk.Spells
  rw [hpool, hstrings]
  exact hb

/-- Whatever text the pool has at an index, a string that is not empty is a constant. -/
theorem Chunk.HasStrings.spells_data {i : Nat} (hc : c.HasStrings h) (hne : c.nameData h i ≠ []) :
    c.Spells h i (c.nameData h i) := by
  unfold Chunk.nameData at hne ⊢
  split
  · next cell hpool => exact ⟨cell, hpool, hc cell (List.mem_of_getElem? hpool), rfl⟩
  · next hnot =>
    split at hne
    · next cell hpool => exact absurd hpool (hnot cell)
    · exact absurd rfl hne

theorem Chunk.HasStrings.spells_text {i : Nat} (hc : c.HasStrings h) (hne : c.nameText h i ≠ []) :
    ∃ b, c.Spells h i b ∧ cString b = c.nameText h i := by
  have hdata : c.nameText h i = cString (c.nameData h i) := by
    unfold Chunk.nameText Chunk.nameData
    cases c.pool[i]? with
    | none => rfl
    | some v => cases v <;> rfl
  have hne' : c.nameData h i ≠ [] := fun hnil => hne (by rw [hdata, hnil]; rfl)
  exact ⟨_, hc.spells_data hne', hdata.symm⟩

theorem Chunk.Agrees.of_same {c' : Chunk} {h' : Heap} {shape : Shape} {d : Declaration}
    (ha : c.Agrees h shape d) (hpool : c'.pool = c.pool) (hstrings : h'.strings = h.strings) :
    c'.Agrees h' shape d := by
  have hiff (i : Nat) (b : Bytes) : c'.Spells h' i b ↔ c.Spells h i b :=
    ⟨fun hb => hb.of_same hpool.symm hstrings.symm, fun hb => hb.of_same hpool hstrings⟩
  constructor
  · simpa only [hiff] using ha.name
  · simpa only [hiff] using ha.fields
  · simpa only [hiff] using ha.once

end Spelling

section Lists
variable {α β : Type}

theorem map_of_forall₂ {f : α → β} {xs : List α} {ys : List β}
    (h : List.Forall₂ (fun x y => f x = y) xs ys) : xs.map f = ys := by
  have heq : List.Forall₂ (· = ·) (xs.map f) ys := List.forall₂_map_left_iff.mpr h
  rwa [List.forall₂_eq_eq_eq] at heq

theorem findIdx?_of_forall₂ {R : α → β → Prop} {p : α → Bool} {q : β → Bool} {xs : List α}
    {ys : List β} (h : List.Forall₂ R xs ys) (hpq : ∀ x, ∀ y ∈ ys, R x y → p x = q y) :
    xs.findIdx? p = ys.findIdx? q := by
  induction h with
  | nil => rfl
  | cons hxy _ ih =>
    rw [List.findIdx?_cons, List.findIdx?_cons, hpq _ _ List.mem_cons_self hxy,
      ih fun x y hy => hpq x y (List.mem_cons_of_mem _ hy)]

theorem encodeAll_map {f : β → Bytes → EncodeResult} (g : α → β) (first : Bool) (xs : List α)
    (b : Bytes) : encodeAll f first (xs.map g) b = encodeAll (fun x => f (g x)) first xs b := by
  induction xs generalizing first b with
  | nil => rfl
  | cons x xs ih =>
    simp only [List.map_cons, encodeAll]
    split
    · exact ih false _
    · rfl

end Lists

section Agreeing
variable {cfg : Config} {s : State} {cell id : Nat} {shape : Shape} {d : Declaration}

theorem Declaration.field?_of_mem (d : Declaration) {b : Bytes} (hb : b ∈ d.fields) :
    ∃ k, d.field? b = some k ∧ k < d.fields.length := by
  cases hk : d.field? b with
  | none => exact absurd (List.findIdx?_eq_none_iff.mp hk b hb) (by simp)
  | some k => exact ⟨k, rfl, (List.findIdx?_eq_some_iff_getElem.mp hk).1⟩

theorem Declaration.cString_field (d : Declaration) {b : Bytes} (hb : b ∈ d.fields) : cString b = b :=
  cString_of_nulFree (d.identifiers b (List.mem_cons_of_mem _ hb)).2

theorem Chunk.Agrees.fieldData (ha : s.chunk.Agrees s.heap shape d) :
    (shape.fields.map Prod.fst).map (s.chunk.nameData s.heap) = d.fields := by
  rw [List.map_map]
  exact map_of_forall₂ (ha.fields.imp fun f b hb => hb.nameData)

theorem Chunk.Agrees.fieldText (ha : s.chunk.Agrees s.heap shape d) :
    shape.fields.map (fun f => s.nameText f.1) = d.fields := by
  have htext : shape.fields.map (fun f => s.nameText f.1) = d.fields.map cString :=
    map_of_forall₂ (List.forall₂_map_right_iff.mpr (ha.fields.imp fun f b hb => hb.nameText))
  rw [htext]
  exact (List.map_congr_left fun b hb => d.cString_field hb).trans (List.map_id _)

theorem Chunk.Agrees.length (ha : s.chunk.Agrees s.heap shape d) :
    d.fields.length = shape.fields.length := ha.fields.length_eq.symm

theorem Chunk.Agrees.fieldSlot (ha : s.chunk.Agrees s.heap shape d) {i : Nat} {b : Bytes}
    (hb : s.chunk.Spells s.heap i b) : Shape.fieldSlot shape i = d.field? b := by
  refine findIdx?_of_forall₂ ha.fields fun f name hmem hname => ?_
  rw [Bool.eq_iff_iff, beq_iff_eq, beq_iff_eq]
  constructor
  · rintro rfl
    exact hname.nameData.symm.trans hb.nameData
  · rintro rfl
    exact ha.once _ _ _ hname hb hmem

theorem State.Instance.shownAs (hi : s.Instance cell id d.fields.length)
    (hs : s.heap.shapes[id]? = some shape) (ha : s.chunk.Agrees s.heap shape d) :
    s.ShownAs cell d := by
  obtain ⟨name, hname, hcut⟩ := ha.name
  have htype : s.nameText shape.name = d.name := hname.nameText.trans hcut
  have hdata : s.arrayData cell = some (s.heap.arrays.data cell) := if_pos hi.live
  constructor
  · simp only [State.vmTypeName, hdata, Option.bind_eq_bind, Option.bind_some, hi.shape, hs, htype]
    rfl
  · intro depth inCollection
    simp only [State.formatDepth, hdata, Option.bind_eq_bind, Option.bind_some, hi.shape, hs, htype,
      ha.length]
    cases ((s.heap.arrays.data cell).items.take shape.fields.length).mapM
      (s.formatDepth depth true) with
    | none => rfl
    | some texts =>
      have hzip : shape.fields.zipWith (fun f text => s.nameText f.1 ++ bytes ": " ++ text) texts =
          d.fields.zipWith (fun f text => f ++ bytes ": " ++ text) texts := by
        rw [← ha.fieldText, List.zipWith_map_left]
      rw [Option.map_some, ← hzip]
      rfl
  · intro depth b
    rw [jsonEncodeValue, if_pos hi.live]
    simp only [hi.shape, hs]
    rw [← ha.fieldData, List.zipIdx_map (f := s.chunk.nameData s.heap), encodeAll_map]
    rfl

theorem run_asStruct (cfg : Config) {t : State} {n : Nat} (hi : t.Instance cell id n)
    (hs : t.heap.shapes[id]? = some shape) : (asStruct (.array cell)).run (exec cfg) t =
      .done (some (cell, t.heap.arrays.data cell, shape)) t := by
  have harray : exec cfg (.array cell) t = .done (t.heap.arrays.data cell) t := by
    rw [exec, State.arrayData, if_pos hi.live]
    rfl
  have hshape : exec cfg (.shape id) t = .done shape t := by
    rw [exec, hs]
    rfl
  unfold asStruct perform
  simp only [run_bind, run_perform, harray, hi.shape, hshape, Outcome.done_andThen, run_pure]

/-- Reading a field, by the slot that the code finds. -/
theorem run_lblFieldGet (cfg : Config) (hi : s.Instance cell id d.fields.length)
    (hs : s.heap.shapes[id]? = some shape) {i n : Nat}
    (hcode : s.chunk.code[s.vm.ip]? = some (.ofNat i)) (htop : s.vm.stackTop = n + 1)
    (hcell : s.vm.stack n = .array cell) :
    lblFieldGet.run (exec cfg) s =
      match Shape.fieldSlot shape i with
      | some k =>
          match (s.heap.arrays.data cell).items[k]? with
          | some v => State.push ((s.atIp (s.vm.ip + 1)).dropped 1) v
          | none => .stop .fault ((s.atIp (s.vm.ip + 1)).dropped 1)
      | none =>
          (do noField shape i; push .null : Handler Unit).run (exec cfg)
            ((s.atIp (s.vm.ip + 1)).dropped 1) := by
  have hpop := run_pop cfg (t := s.atIp (s.vm.ip + 1)) htop hcell
  have hstruct := run_asStruct cfg (t := (s.atIp (s.vm.ip + 1)).dropped 1)
    ⟨hi.live, hi.shape, hi.items⟩ hs
  unfold lblFieldGet
  rw [run_bind, show (perform .readIdx).run (exec cfg) s = _ from
    (run_perform _ _ _).trans (exec_readIdx cfg hcode), Outcome.done_andThen, run_bind, hpop,
    Outcome.done_andThen, run_bind, hstruct, Outcome.done_andThen]
  dsimp only
  cases Shape.fieldSlot shape i with
  | none => rfl
  | some k =>
    dsimp only
    change Prog.run _ (match (s.heap.arrays.data cell).items[k]? with
      | some v => push v
      | none => perform .fault) _ = _
    cases (s.heap.arrays.data cell).items[k]? with
    | none => exact run_perform _ _ _
    | some v => exact run_perform _ _ _

/-- Writing a field, by the slot that the code finds. -/
theorem run_lblFieldSet (cfg : Config) (hi : s.Instance cell id d.fields.length)
    (hs : s.heap.shapes[id]? = some shape) {i n : Nat} {v : AerVal}
    (hcode : s.chunk.code[s.vm.ip]? = some (.ofNat i)) (htop : s.vm.stackTop = n + 2)
    (hcell : s.vm.stack n = .array cell) (hv : s.vm.stack (n + 1) = v) :
    lblFieldSet.run (exec cfg) s =
      match Shape.fieldSlot shape i with
      | some k =>
          .done () { (s.atIp (s.vm.ip + 1)).dropped 2 with heap := s.heap.setItem cell k v }
      | none => (noField shape i).run (exec cfg) ((s.atIp (s.vm.ip + 1)).dropped 2) := by
  have hpop := run_pop cfg (t := s.atIp (s.vm.ip + 1)) htop hv
  have hpop' := run_pop cfg (t := (s.atIp (s.vm.ip + 1)).dropped 1) (n := n)
    (by rw [State.dropped, State.atIp, htop]; rfl) hcell
  have hstruct := run_asStruct cfg (t := (s.atIp (s.vm.ip + 1)).dropped 2)
    ⟨hi.live, hi.shape, hi.items⟩ hs
  unfold lblFieldSet
  rw [run_bind, show (perform .readIdx).run (exec cfg) s = _ from
    (run_perform _ _ _).trans (exec_readIdx cfg hcode), Outcome.done_andThen, run_bind, hpop,
    Outcome.done_andThen, run_bind, hpop', Outcome.done_andThen, run_bind]
  change (Prog.run _ (asStruct (.array cell)) ((s.atIp (s.vm.ip + 1)).dropped 2)).andThen _ = _
  rw [hstruct, Outcome.done_andThen]
  dsimp only
  cases Shape.fieldSlot shape i with
  | none => rfl
  | some k => exact run_perform _ _ _

/-- The error of a name that the type does not have. -/
theorem run_noField (cfg : Config) {t : State} {i : Nat} {name b : Bytes}
    (hname : t.chunk.Spells t.heap shape.name name) (hb : t.chunk.Spells t.heap i b) :
    (noField shape i).run (exec cfg) t = .done () (t.addError (bytes "'" ++ cString name ++
      bytes "' has no field '" ++ cString b ++ bytes "'")) := by
  unfold noField Machine.perform
  simp only [run_bind, run_perform, hname.perform, hb.perform, Outcome.done_andThen]
  rfl

theorem State.Instance.accessedAs (hi : s.Instance cell id d.fields.length)
    (hs : s.heap.shapes[id]? = some shape) (ha : s.chunk.Agrees s.heap shape d) :
    s.AccessedAs cfg cell d := by
  obtain ⟨name, hname, -⟩ := ha.name
  constructor
  · intro i b n hcode hb htop hroom hcell
    have hrun := run_lblFieldGet cfg hi hs hcode htop hcell
    have hheight : ((s.atIp (s.vm.ip + 1)).dropped 1).vm.stackTop = n := by
      rw [State.dropped, State.atIp, htop]
      rfl
    rw [ha.fieldSlot hb] at hrun
    split
    · next k hk =>
      rw [hk] at hrun
      obtain ⟨hlt, -⟩ := List.findIdx?_eq_some_iff_getElem.mp hk
      have hitem := List.getElem?_eq_getElem (hlt.trans_le hi.items)
      refine ⟨_, hitem, hrun.trans ?_⟩
      dsimp only
      rw [hitem]
      refine (if_pos (hheight ▸ hroom)).trans ?_
      rw [hheight]
      simp only [State.dropped, State.atIp, Vm.setStack, htop]
    · next hk =>
      rw [hk] at hrun
      have hno := run_noField cfg (t := (s.atIp (s.vm.ip + 1)).dropped 1) hname hb
      dsimp only at hrun
      rw [run_bind, hno, Outcome.done_andThen] at hrun
      refine ⟨_, hrun.trans ((run_perform (exec cfg) (.push .null) _).trans (if_pos ?_)), rfl, rfl⟩
      exact hheight ▸ hroom
  · intro i b n v hcode hb htop hcell hv
    have hrun := run_lblFieldSet cfg hi hs hcode htop hcell hv
    rw [ha.fieldSlot hb] at hrun
    split
    · next k hk =>
      rw [hk] at hrun
      refine hrun.trans ?_
      simp only [State.dropped, State.atIp, htop, Nat.add_sub_cancel]
    · next hk =>
      rw [hk] at hrun
      exact ⟨_, hrun.trans (run_noField cfg hname hb), rfl, rfl⟩

theorem Chunk.Agrees.treats {c : Chunk} {h : Heap} (ha : c.Agrees h shape d)
    (hs : h.shapes[id]? = some shape) : c.Treats cfg h id d := by
  intro s cell hpool hstrings hshapes hi
  have ha := ha.of_same hpool hstrings
  rw [← hshapes] at hs
  exact ⟨hi.shownAs hs ha, hi.accessedAs hs ha⟩

/-- A chunk whose string constants are all different agrees with its own declarations. -/
theorem Chunk.Declares.agrees {c : Chunk} {h : Heap} (hd : c.Declares h id shape d)
    (honce : ∀ i j b, c.Spells h i b → c.Spells h j b → i = j) : c.Agrees h shape d :=
  ⟨⟨_, hd.name, cString_of_nulFree (d.identifiers _ List.mem_cons_self).2⟩, hd.fields,
    fun i j b hi hj _ => honce i j b hi hj⟩

end Agreeing

/-! The way back: what the instances show tells the names apart. -/

/-- A member of an object whose value is `null`. -/
def nullMember (name : Bytes) : Bytes := stringText name ++ bytes ":null"

theorem encodeAll_nulls (names : Nat → Bytes) (h : Heap) {n : Nat} {ns : List Bytes}
    (hn : ns.length ≤ n) (b : Bytes) :
    encodeAll (encodeField names h 0 (List.replicate n .null)) true ns.zipIdx b =
      some (true, b ++ joinCommas true (ns.map nullMember)) := by
  have hfield : ∀ f ∈ ns.zipIdx, ∀ b, encodeField names h 0 (List.replicate n .null) f b =
      some (true, b ++ (nullMember ∘ Prod.fst) f) := by
    intro f hf b
    have hlt : f.2 < n := by
      have := List.snd_lt_of_mem_zipIdx hf
      omega
    simp only [encodeField, List.getElem?_replicate, if_pos hlt, jsonEncodeValue,
      jsonEncodeString_eq, Function.comp_apply, nullMember, List.append_assoc]
    rfl
  rw [encodeAll_eq hfield, ← List.map_map, List.zipIdx_map_fst]

theorem nullMembers_inj {ns ms : List Bytes} (hlen : ns.length = ms.length) {first : Bool}
    {r r' : Bytes} (h : joinCommas first (ns.map nullMember) ++ r =
      joinCommas first (ms.map nullMember) ++ r') : ns = ms := by
  induction ns generalizing ms first with
  | nil => exact (List.eq_nil_of_length_eq_zero hlen.symm).symm
  | cons x ns ih =>
    cases ms with
    | nil => cases hlen
    | cons y ms =>
      have htext : nullMember x ++ (joinCommas false (ns.map nullMember) ++ r) =
          nullMember y ++ (joinCommas false (ms.map nullMember) ++ r') := by
        cases first <;> simpa [joinCommas] using h
      unfold nullMember at htext
      rw [List.append_assoc, List.append_assoc] at htext
      obtain ⟨rfl, hrest⟩ := stringText_inj htext
      rw [ih (Nat.succ.inj hlen) (List.append_cancel_left hrest)]

/-- A machine on the chunk at an instruction with operand `i`, with an instance of the type,
all of its fields null, and a value for one of them on its stack. -/
def withInstance (c : Chunk) (h : Heap) (id n i : Nat) : State :=
  { State.init with
    chunk := { c with code := [.ofNat i] }
    heap := { h with arrays := ((Pool.init 1).alloc ⟨List.replicate n .null, n, some id⟩).2 }
    vm := { Vm.init with
      stack := fun j => if j = 0 then .array 0 else .boolean true
      stackTop := 2 } }

section Back
variable {cfg : Config} {c : Chunk} {h : Heap} {id : Nat} {shape : Shape} {d : Declaration}

theorem withInstance_instance (c : Chunk) (h : Heap) (id n i : Nat) :
    (withInstance c h id n i).Instance 0 id n := by
  refine ⟨⟨?_, rfl⟩, rfl, ?_⟩
  · exact Nat.zero_lt_one
  · exact (List.length_replicate ..).ge

theorem Chunk.Treats.name (ht : c.Treats cfg h id d) (hc : c.HasStrings h)
    (hs : h.shapes[id]? = some shape) : ∃ b, c.Spells h shape.name b ∧ cString b = d.name := by
  have hi := withInstance_instance c h id d.fields.length 0
  obtain ⟨hshown, -⟩ := ht _ 0 rfl rfl rfl hi
  have htype := hshown.typeName
  have hdata : (withInstance c h id d.fields.length 0).arrayData 0 = _ := if_pos hi.live
  have hs' : (withInstance c h id d.fields.length 0).heap.shapes[id]? = some shape := hs
  simp only [State.vmTypeName, hdata, Option.bind_eq_bind, Option.bind_some, hi.shape, hs'] at htype
  have hname : c.nameText h shape.name = d.name := Option.some.inj htype
  rw [← hname]
  exact hc.spells_text (hname ▸ (d.identifiers _ List.mem_cons_self).1)

theorem Chunk.Treats.fieldNames (ht : c.Treats cfg h id d) (hs : h.shapes[id]? = some shape)
    (hlen : shape.fields.length = d.fields.length) :
    (shape.fields.map Prod.fst).map (c.nameData h) = d.fields := by
  have hi := withInstance_instance c h id d.fields.length 0
  obtain ⟨hshown, -⟩ := ht _ 0 rfl rfl rfl hi
  have hs' : (withInstance c h id d.fields.length 0).heap.shapes[id]? = some shape := hs
  have hlen' : ((shape.fields.map Prod.fst).map (c.nameData h)).length = d.fields.length := by
    rw [List.length_map, List.length_map, hlen]
  have henc := hshown.encoded 0 []
  rw [jsonEncodeValue, if_pos hi.live] at henc
  simp only [hi.shape, hs'] at henc
  have hleft := encodeAll_nulls (c.nameData h) (withInstance c h id d.fields.length 0).heap hlen'.le
    [byte '{']
  have hright := encodeAll_nulls (c.nameData h) (withInstance c h id d.fields.length 0).heap
    (le_refl d.fields.length) [byte '{']
  rw [List.zipIdx_map (f := c.nameData h), encodeAll_map] at hleft
  have htexts := (congrArg (closeWith (byte '}')) hleft).symm.trans
    (henc.trans (congrArg (closeWith (byte '}')) hright))
  have hbytes := congrArg Prod.snd (Option.some.inj htexts)
  rw [List.append_assoc, List.append_assoc] at hbytes
  exact nullMembers_inj hlen' (List.append_cancel_left hbytes)

/-- The slot that the code finds for a declared name is that of the declaration. -/
theorem Chunk.Treats.fieldSlot (ht : c.Treats cfg h id d) (hc : c.HasStrings h)
    (hs : h.shapes[id]? = some shape) {i : Nat} {b : Bytes} (hb : c.Spells h i b)
    (hmem : b ∈ d.fields) : Shape.fieldSlot shape i = d.field? b := by
  obtain ⟨name, hname, -⟩ := ht.name hc hs
  have hi := withInstance_instance c h id d.fields.length i
  obtain ⟨-, haccess⟩ := ht (withInstance c h id d.fields.length i) 0 rfl rfl rfl hi
  have hset := haccess.set i b 0 (.boolean true) rfl hb rfl rfl rfl
  have hrun := run_lblFieldSet cfg hi hs (i := i) (v := .boolean true) rfl rfl rfl rfl
  obtain ⟨k, hk, hlt⟩ := d.field?_of_mem hmem
  rw [hk] at hset ⊢
  dsimp only at hset
  rw [hset] at hrun
  cases hslot : Shape.fieldSlot shape i with
  | none =>
    rw [hslot] at hrun
    have herror := congrArg (fun r => r.state.runtimeHadError)
      (hrun.trans (run_noField cfg hname hb))
    exact absurd herror Bool.false_ne_true
  | some j =>
    rw [hslot] at hrun
    have hitems (j : Nat) : (((withInstance c h id d.fields.length i).heap.setItem 0 j
        (.boolean true)).arrays.data 0).items =
          (List.replicate d.fields.length AerVal.null).set j (.boolean true) := by
      unfold Heap.setItem Heap.setArray Pool.setData
      dsimp only
      rw [Function.update_self]
      rfl
    have hset := (hitems k).symm.trans ((congrArg (fun r => (r.state.heap.arrays.data 0).items)
      hrun).trans (hitems j))
    by_contra hne
    have hjk : j ≠ k := fun h => hne (congrArg some h)
    have hat := congrArg (fun l => l[k]?) hset
    rw [List.getElem?_set_ne hjk, List.getElem?_set_self (by rwa [List.length_replicate]),
      List.getElem?_replicate, if_pos hlt] at hat
    cases hat

theorem Chunk.Treats.agrees (ht : c.Treats cfg h id d) (hc : c.HasStrings h)
    (hs : h.shapes[id]? = some shape) (hlen : shape.fields.length = d.fields.length) :
    c.Agrees h shape d := by
  have hnames := ht.fieldNames hs hlen
  refine ⟨ht.name hc hs, ?_, fun i j b hi hj hmem => ?_⟩
  · have hspells : List.Forall₂ (fun f b => c.Spells h f.1 b) shape.fields
        ((shape.fields.map Prod.fst).map (c.nameData h)) := by
      rw [List.map_map, List.forall₂_map_right_iff, List.forall₂_same]
      intro f hf
      have hmem : c.nameData h f.1 ∈ d.fields := by
        rw [← hnames, List.map_map]
        exact List.mem_map_of_mem hf
      exact hc.spells_data (d.identifiers _ (List.mem_cons_of_mem _ hmem)).1
    rwa [hnames] at hspells
  · have hslot := (ht.fieldSlot hc hs hi hmem).trans (ht.fieldSlot hc hs hj hmem).symm
    obtain ⟨k, hk, -⟩ := d.field?_of_mem hmem
    have hi' := (ht.fieldSlot hc hs hi hmem).trans hk
    have hj' := (ht.fieldSlot hc hs hj hmem).trans hk
    obtain ⟨hlt, hik, -⟩ := List.findIdx?_eq_some_iff_getElem.mp hi'
    obtain ⟨_, hjk, -⟩ := List.findIdx?_eq_some_iff_getElem.mp hj'
    exact (beq_iff_eq.mp hik).symm.trans (beq_iff_eq.mp hjk)

/-- The chunk's machines treat the type as declared exactly when its pool has the names where
the shape looks for them. -/
theorem Chunk.treats_iff (hc : c.HasStrings h) (hs : h.shapes[id]? = some shape)
    (hlen : shape.fields.length = d.fields.length) : c.Treats cfg h id d ↔ c.Agrees h shape d :=
  ⟨fun ht => ht.agrees hc hs hlen, fun ha => ha.treats hs⟩

end Back

end Aer.Machine

namespace Aer.Program

open Aer.Data Aer.Memory Aer.Machine
open Aer.Compiler (FileModule File Env)

/-- Every chunk that can run in the process, with its machine. -/
def Process.everyone (p : Process) : List Pair := p.pairs ++ p.modules.map modulePair

section Sample

/-- A file system with one module `m`. -/
def sampleEnv (module : String) : Env where
  isNative := fun _ => false
  resolvePath := fun _ path => path
  readFile := fun file => if file = bytes "m" then some (bytes module) else none
  runModule := fun _ chunk heap =>
    let s := (vmRun {} 20 { State.init with chunk, heap }).state
    some (s.runtimeHadError, s.vm, s.chunk, s.heap)

/-- `OP_CALL_MODULE` on a function of a file module that has not been called before. -/
def callLoaded (modules : List FileModule) (call : NativeCall) : Option NativeResult := do
  let m ← modules.find? (·.name == call.module)
  let s := ({ State.init with heap := call.heap } : State).withOperands call.args
  let (s', _) ← callModule? {} 30 m call.function call.args.length s
  return { value := s'.vm.stack 0, heap := s'.heap, errors := s.newMessages s' }

def importSteps (module main : String) : List HostStep :=
  [.init, .compile 0 (sampleEnv module) 20 1 (sourceFile main)]

def importConfig (module main : String) : Config where
  native := fun _ => callLoaded (Process.run {} (importSteps module main)).modules

def structModule : String :=
  "struct P:\n    a\n    b\nfunction make():\n    return P(1, 2)\n"

def structMain : String := "import m\ns = \"b\"\nv = m.make()\nprint(v.b)\n"

def structConfig : Config := importConfig structModule structMain

def structSteps : List HostStep :=
  importSteps structModule structMain ++ List.replicate 12 (.turn 0)

def structDeclaration : Declaration := ⟨bytes "P", [bytes "a", bytes "b"], by decide +kernel⟩

/-- The shape of the module's type, both of its defaults being `null`. -/
def structShape : Shape := ⟨0, [(1, .null), (2, .null)]⟩

theorem structDeclares {D : Chunk} {h : Heap} (hid : 0 ∈ D.shapes)
    (hshape : h.shapes[0]? = some structShape) (hname : D.Spells h 0 (bytes "P"))
    (ha : D.Spells h 1 (bytes "a")) (hb : D.Spells h 2 (bytes "b")) :
    D.Declares h 0 structShape structDeclaration :=
  ⟨hid, hshape, hname, .cons ha (.cons hb .nil)⟩

theorem structSteps_pools : ∃ p, Process.run structConfig structSteps = p ∧
    p.heap.shapes[0]? = some structShape ∧ p.output = [bytes "1\n"] ∧
    (∃ R ∈ p.pairs, R.chunk.HasStrings p.heap ∧ R.chunk.Spells p.heap 0 (bytes "s")) ∧
    ∃ D ∈ p.modules, D.chunk.HasStrings p.heap ∧ 0 ∈ D.chunk.shapes ∧
      D.chunk.Spells p.heap 0 (bytes "P") ∧ D.chunk.Spells p.heap 1 (bytes "a") ∧
      D.chunk.Spells p.heap 2 (bytes "b") :=
  ⟨_, rfl, by decide +kernel⟩

end Sample

end Aer.Program
