import Aer.Json.Output

set_option linter.all false

/-! Exactly which values the encoder writes as JSON that the decoder reads back with the same
nesting and the same keys. -/
namespace Aer.Json

open Aer.Data Aer.Memory Aer.Memory.Heap

/-- How arrays and objects are nested in a value, with the keys of each object. -/
inductive Nesting
  | leaf
  | array (items : List Nesting)
  | object (members : Bytes → Option Nesting)

/-- A struct instance is the object of its fields; fields of one name must be nested alike. -/
inductive HasNesting (names : Nat → Bytes) (h : Heap) : AerVal → Nesting → Prop
  | leaf {v : AerVal} (hv : v.type ≠ .array ∧ v.type ≠ .dict) : HasNesting names h v .leaf
  | array {c : Nat} {ns : List Nesting} (hc : h.Live (.array c))
      (hshape : (h.arrays.data c).shape = none) (hlen : (h.arrays.data c).items.length = ns.length)
      (hitems : ∀ x n, (x, n) ∈ (h.arrays.data c).items.zip ns → HasNesting names h x n) :
      HasNesting names h (.array c) (.array ns)
  | members {v : AerVal} {es : List (Bytes × AerVal)} {f : Bytes → Option Nesting}
      (hm : Members names h v es) (hkeys : ∀ k, (f k).isSome = true ↔ ∃ x, (k, x) ∈ es)
      (hvals : ∀ k x n, (k, x) ∈ es → f k = some n → HasNesting names h x n) :
      HasNesting names h v (.object f)

/-- `w` is the value `v` or occurs somewhere in it. -/
inductive Occurs (names : Nat → Bytes) (h : Heap) (w : AerVal) : AerVal → Prop
  | here : Occurs names h w w
  | item {c : Nat} {x : AerVal} (hshape : (h.arrays.data c).shape = none)
      (hx : x ∈ (h.arrays.data c).items) (ho : Occurs names h w x) : Occurs names h w (.array c)
  | member {v x : AerVal} {es : List (Bytes × AerVal)} {k : Bytes} (hm : Members names h v es)
      (hx : (k, x) ∈ es) (ho : Occurs names h w x) : Occurs names h w v

def AllFinite (names : Nat → Bytes) (h : Heap) (v : AerVal) : Prop :=
  ∀ d, Occurs names h (.real d) v → IsFinite d

/-- The values without functions, nested to any depth. -/
inductive Writable (names : Nat → Bytes) (h : Heap) : AerVal → Prop
  | null : Writable names h .null
  | boolean (b : Bool) : Writable names h (.boolean b)
  | integer {v : AerVal} {n : Int} (hv : HasInt h v n) : Writable names h v
  | real (d : Double) : Writable names h (.real d)
  | string {c : Nat} (hc : h.Live (.string c)) : Writable names h (.string c)
  | array {c : Nat} (hc : h.Live (.array c)) (hshape : (h.arrays.data c).shape = none)
      (hitems : ∀ v ∈ (h.arrays.data c).items, Writable names h v) : Writable names h (.array c)
  | dict {c : Nat} (hc : h.Live (.dict c)) (hwf : HashTable.WellFormed (h.dicts.data c))
      (hvals : ∀ e ∈ (h.dicts.data c).entries, Writable names h e.2) : Writable names h (.dict c)
  | instance {c id : Nat} {shape : Shape} (hc : h.Live (.array c))
      (hid : (h.arrays.data c).shape = some id) (hshape : h.shapes[id]? = some shape)
      (hlen : shape.fields.length ≤ (h.arrays.data c).items.length)
      (hmax : shape.fields.length ≤ maxStructFields)
      (hnul : ∀ f ∈ shape.fields, ∀ b ∈ names f.1, b ≠ 0)
      (hitems : ∀ v ∈ (h.arrays.data c).items.take shape.fields.length, Writable names h v) :
      Writable names h (.array c)

variable {names : Nat → Bytes} {h : Heap}

theorem Members.unique {v : AerVal} {es fs : List (Bytes × AerVal)} (he : Members names h v es)
    (hf : Members names h v fs) : es = fs := by
  cases he with
  | dict => cases hf; rfl
  | «instance» _ hid hshape _ =>
    cases hf with
    | «instance» _ hid' hshape' _ =>
      rw [hid] at hid'
      cases hid'
      rw [hshape] at hshape'
      cases hshape'
      rfl

theorem Members.not_plain {c : Nat} {es : List (Bytes × AerVal)} (hm : Members names h (.array c) es) :
    (h.arrays.data c).shape ≠ none := by
  cases hm with
  | «instance» _ hid _ _ =>
    rw [hid]
    exact Option.some_ne_none _

theorem Members.not_leaf {v : AerVal} {es : List (Bytes × AerVal)} (hm : Members names h v es) :
    v.type = .array ∨ v.type = .dict := by
  cases hm with
  | dict => exact .inr rfl
  | «instance» => exact .inl rfl

/-- The text `t` of a value, its use where the reals are finite, and its end where one is not. -/
structure Writes (names : Nat → Bytes) (h : Heap) (v : AerVal) (t : Bytes) (depth : Nat) : Prop where
  text : ∀ n, depth ≤ n → ∀ b, jsonEncodeValue names h n v b = some (true, b ++ t)
  good : AllFinite names h v → ∃ j, (∀ r, Value lenient j (t ++ r) r) ∧
    ∀ old h' w, Denotes old h' w j → ∀ n, HasNesting names h v n → HasNesting names h' w n
  bad : ¬ AllFinite names h v → Unreadable t

theorem Writes.deepen {v : AerVal} {t : Bytes} {m n : Nat} (hv : Writes names h v t m) (hmn : m ≤ n) :
    Writes names h v t n :=
  ⟨fun k hk => hv.text k (hmn.trans hk), hv.good, hv.bad⟩

theorem Writes.readable_or {v : AerVal} {t : Bytes} {n : Nat} (hv : Writes names h v t n) :
    Readable t ∨ Unreadable t := by
  by_cases hfin : AllFinite names h v
  · obtain ⟨j, hj, -⟩ := hv.good hfin
    exact .inl ⟨j, hj⟩
  · exact .inr (hv.bad hfin)

/-- What denotes a leaf is nested like one. -/
theorem HasNesting.of_leaf {h' : Heap} {v w : AerVal} {n : Nesting}
    (hv : v.type ≠ .array ∧ v.type ≠ .dict) (hw : w.type ≠ .array ∧ w.type ≠ .dict)
    (hn : HasNesting names h v n) : HasNesting names h' w n := by
  cases hn with
  | leaf => exact .leaf hw
  | array => exact absurd rfl hv.1
  | members hm => exact absurd hm.not_leaf (not_or.mpr hv)

theorem allFinite_of_leaf {v : AerVal} (hv : v.type ≠ .array ∧ v.type ≠ .dict)
    (hr : ∀ d, v = .real d → IsFinite d) : AllFinite names h v := by
  intro d hd
  cases hd with
  | here => exact hr d rfl
  | item => exact absurd rfl hv.1
  | member hm => exact absurd hm.not_leaf (not_or.mpr hv)

theorem writes_leaf {v : AerVal} {t : Bytes} {j : Tree} (hv : v.type ≠ .array ∧ v.type ≠ .dict)
    (hreal : ∀ d, v ≠ .real d)
    (text : ∀ n b, jsonEncodeValue names h n v b = some (true, b ++ t))
    (hj : ∀ r, Value lenient j (t ++ r) r)
    (hw : ∀ old h' w, Denotes old h' w j → w.type ≠ .array ∧ w.type ≠ .dict) :
    Writes names h v t 0 where
  text n _ := text n
  good _ := ⟨j, hj, fun old h' w hd n hn => hn.of_leaf hv (hw old h' w hd)⟩
  bad hbad := absurd (allFinite_of_leaf hv fun d hd => absurd hd (hreal d)) hbad

theorem HasInt.leaf {v : AerVal} {n : Int} (hv : HasInt h v n) : v.type ≠ .array ∧ v.type ≠ .dict := by
  cases hv <;> exact ⟨nofun, nofun⟩

theorem writes_real (d : Double) : Writes names h (.real d) d.formatG 0 where
  text n _ b := by cases n <;> rfl
  good hfin := by
    have hleaf : (AerVal.real d).type ≠ .array ∧ (AerVal.real d).type ≠ .dict := ⟨nofun, nofun⟩
    rcases isNumber_formatG (hfin d .here) with hl | hl
    · exact ⟨_, fun r => .integer hl rfl r,
        fun old h' w hw n hn => hn.of_leaf hleaf hw.hasInt.leaf⟩
    · refine ⟨_, fun r => .real hl r, fun old h' w hw n hn => hn.of_leaf hleaf ?_⟩
      generalize d.formatG = l at hw
      cases hw
      exact ⟨nofun, nofun⟩
  bad hbad := by
    apply unreadable_formatG
    intro hfin
    refine hbad (allFinite_of_leaf ⟨nofun, nofun⟩ ?_)
    rintro _ ⟨⟩
    exact hfin

theorem mem_zip {α β : Type} {l : List α} {m : List β} {a : α} {b : β} :
    (a, b) ∈ l.zip m ↔ ∃ i : Nat, l[i]? = some a ∧ m[i]? = some b := by
  rw [List.mem_iff_getElem?]
  exact exists_congr fun _ => List.getElem?_zip_eq_some

theorem writes_array {c : Nat} {text : AerVal → Bytes} {depth : Nat} (hc : h.Live (.array c))
    (hshape : (h.arrays.data c).shape = none)
    (hw : ∀ v ∈ (h.arrays.data c).items, Writes names h v (text v) depth) :
    Writes names h (.array c)
      (byte '[' :: joinCommas true ((h.arrays.data c).items.map text) ++ [byte ']']) (depth + 1) where
  text k hk b := by
    have hlive : h.arrays.Live _ := hc
    obtain ⟨k, rfl⟩ : ∃ n, k = n + 1 := ⟨k - 1, by omega⟩
    have hall := encodeAll_eq (fun v hv b => (hw v hv).text k (by omega) b) true (b ++ [byte '['])
    simp [jsonEncodeValue, hlive, hshape, hall, closeWith]
  good hfin := by
    have hitem : ∀ v ∈ (h.arrays.data c).items, AllFinite names h v :=
      fun v hv d hd => hfin d (.item hshape hv hd)
    have : Nonempty Tree := ⟨.null⟩
    choose! js hjs hnest using fun v hv => (hw v hv).good (hitem v hv)
    refine ⟨.array ((h.arrays.data c).items.map js), fun r => ?_, fun old h' w hd n hn => ?_⟩
    · cases hitems : (h.arrays.data c).items with
      | nil => exact .emptyArray (.none _)
      | cons x xs =>
        rw [hitems] at hjs
        have := derives_items x xs r hjs
        simpa using Derives.array this
    · generalize hks : (h.arrays.data c).items.map js = ks at hd
      cases hd with
      | @array e _ _ he hes hlen hden =>
      cases hn with
      | leaf hv => exact absurd rfl hv.1
      | members hm => exact absurd hshape hm.not_plain
      | @array _ ns _ _ hns hitems =>
        refine .array he hes (by rw [hlen, ← hks, List.length_map, hns]) fun y m hym => ?_
        obtain ⟨i, hy, hm⟩ := mem_zip.mp hym
        have hlt : i < (h.arrays.data c).items.length := by
          rw [hns]
          exact (List.getElem?_eq_some_iff.mp hm).1
        have hx := List.getElem?_eq_getElem hlt
        have hk : ks[i]? = some (js (h.arrays.data c).items[i]) := by
          rw [← hks, List.getElem?_map, hx]
          rfl
        exact hnest _ (List.getElem_mem hlt) old h' y (hden y _ (mem_zip.mpr ⟨i, hy, hk⟩)) m
          (hitems _ m (mem_zip.mpr ⟨i, hx, hm⟩))
  bad hbad := by
    apply unreadable_array
    · exact List.forall_mem_map.mpr fun v hv => (hw v hv).readable_or
    · by_contra hnone
      refine hbad fun d hd => ?_
      cases hd with
      | member hm => exact absurd hshape hm.not_plain
      | @item _ x _ hx ho =>
        have hfin : AllFinite names h x := by
          by_contra hx'
          exact hnone ⟨_, List.mem_map_of_mem hx, (hw x hx).bad hx'⟩
        exact hfin d ho

theorem writes_members {v : AerVal} {es : List (Bytes × AerVal)} {text : AerVal → Bytes}
    {depth : Nat} (hm : Members names h v es) (hnul : ∀ e ∈ es, ∀ b ∈ e.1, b ≠ 0)
    (hmax : es.length ≤ HashTable.maxCapacity)
    (hw : ∀ e ∈ es, Writes names h e.2 (text e.2) depth) :
    Writes names h v
      (byte '{' :: joinCommas true (es.map fun e => memberText e.1 (text e.2)) ++ [byte '}'])
      (depth + 1) where
  text k hk b := by
    obtain ⟨k, rfl⟩ : ∃ n, k = n + 1 := ⟨k - 1, by omega⟩
    have hstep : ∀ e ∈ es, ∀ b, jsonEncodeValue names h k e.2 (jsonEncodeString b e.1 ++ [byte ':']) =
        some (true, b ++ memberText e.1 (text e.2)) := by
      intro e he b
      rw [(hw e he).text k (by omega), jsonEncodeString_eq, memberText]
      simp
    rw [jsonEncodeValue_members hm, encodeAll_eq hstep]
    simp [closeWith]
  good hfin := by
    have hmember : ∀ e ∈ es, AllFinite names h e.2 := fun e he d hd => hfin d (.member hm he hd)
    have : Nonempty Tree := ⟨.null⟩
    have hgood : ∀ x, x ∈ es.map Prod.snd → ∃ j, (∀ r, Value lenient j (text x ++ r) r) ∧
        ∀ old h' w, Denotes old h' w j → ∀ n, HasNesting names h x n → HasNesting names h' w n :=
      List.forall_mem_map.mpr fun e he => (hw e he).good (hmember e he)
    choose! js hjs hnest using hgood
    have hmem : ∀ e ∈ es, e.2 ∈ es.map Prod.snd := fun e he => List.mem_map_of_mem he
    refine ⟨.object (es.map fun e => (e.1, js e.2)), fun r => ?_, fun old h' w hd n hn => ?_⟩
    · cases hes : es with
      | nil => exact .emptyObject (.none _)
      | cons x xs =>
        have := derives_members rfc8259Long_within_lenient
          (fun e : Bytes × AerVal => (e.1, js e.2)) (fun e => text e.2) x xs r
          fun e he => hjs _ (hmem e (hes ▸ he))
        simpa using Derives.object this
    · generalize hks : es.map (fun e => (e.1, js e.2)) = ks at hd
      cases hd with
      | @dict e _ vs _ he hlen hdata hden =>
      cases hn with
      | leaf hv => exact absurd hm.not_leaf (not_or.mpr hv)
      | array _ hshape => exact absurd hshape hm.not_plain
      | @members _ fs f hfs hkeys hvals =>
        obtain rfl := hm.unique hfs
        have hkeysEq : ks.map Prod.fst = es.map Prod.fst := by
          rw [← hks, List.map_map]
          rfl
        have hpair {k : Bytes} {y : AerVal} : (k, y) ∈ (ks.map Prod.fst).zip vs →
            ∃ x, (k, x) ∈ es ∧ Denotes old h' y (js x) := by
          intro hky
          obtain ⟨i, hk, hy⟩ := mem_zip.mp hky
          rw [hkeysEq, List.getElem?_map] at hk
          obtain ⟨p, hp, rfl⟩ := Option.map_eq_some_iff.mp hk
          have hkp : ks[i]? = some (p.1, js p.2) := by
            rw [← hks, List.getElem?_map, hp]
            rfl
          exact ⟨p.2, List.mem_of_getElem? hp, hden y _ (mem_zip.mpr ⟨i, hy, hkp⟩)⟩
        have hcover {k : Bytes} {x : AerVal} : (k, x) ∈ es → ∃ y, (k, y) ∈ (ks.map Prod.fst).zip vs := by
          intro hkx
          obtain ⟨i, hi⟩ := List.mem_iff_getElem?.mp hkx
          have hk : (ks.map Prod.fst)[i]? = some k := by
            rw [hkeysEq, List.getElem?_map, hi]
            rfl
          have hlt : i < vs.length := by
            rw [hlen, ← List.length_map (f := Prod.fst)]
            exact (List.getElem?_eq_some_iff.mp hk).1
          exact ⟨vs[i], mem_zip.mpr ⟨i, hk, List.getElem?_eq_getElem hlt⟩⟩
        have hgather : HashTable.Gathered ((ks.map Prod.fst).zip vs) (h'.dicts.data e) := by
          rw [hdata]
          refine HashTable.gathered_putAll _ (fun p hp => ?_) ?_
          · obtain ⟨x, hx, -⟩ := hpair (k := p.1) (y := p.2) hp
            exact hnul (p.1, x) hx
          · rw [List.length_zip, hkeysEq, List.length_map]
            exact (Nat.min_le_left _ _).trans hmax
        refine .members (.dict he) (fun k => ?_) fun k y m hky hm' => ?_
        · rw [hkeys k]
          constructor
          · rintro ⟨x, hx⟩
            obtain ⟨y, hy⟩ := hcover hx
            obtain ⟨z, hz⟩ := hgather.key _ hy
            exact ⟨z, HashTable.mem_entries.mpr hz⟩
          · rintro ⟨y, hy⟩
            obtain ⟨x, hx, -⟩ := hpair (hgather.sub _ (HashTable.mem_entries.mp hy))
            exact ⟨x, hx⟩
        · obtain ⟨x, hx, hden⟩ := hpair (hgather.sub _ (HashTable.mem_entries.mp hky))
          exact hnest x (hmem _ hx) old h' y hden m (hvals k x m hx hm')
  bad hbad := by
    have hmap : es.map (fun e => memberText e.1 (text e.2)) =
        (es.map fun e => (e.1, text e.2)).map fun m => memberText m.1 m.2 := by
      rw [List.map_map]
      rfl
    rw [hmap]
    apply unreadable_object
    · exact List.forall_mem_map.mpr fun e he => (hw e he).readable_or
    · by_contra hnone
      refine hbad fun d hd => ?_
      cases hd with
      | here => exact absurd hm.not_leaf (by simp [AerVal.type])
      | item hshape => exact absurd hshape hm.not_plain
      | @member _ x fs k hfs hx ho =>
        obtain rfl := hm.unique hfs
        have hfin : AllFinite names h x := by
          by_contra hx'
          exact hnone ⟨_, List.mem_map_of_mem hx, (hw _ hx).bad hx'⟩
        exact hfin d ho

/-- The names of the members of an instance, and the items they stand for. -/
theorem mem_instance {c : Nat} {fields : List (Nat × AerVal)} {e : Bytes × AerVal}
    (he : e ∈ (fields.map fun f => names f.1).zip (h.arrays.data c).items) :
    (∃ f ∈ fields, names f.1 = e.1) ∧ e.2 ∈ (h.arrays.data c).items.take fields.length := by
  obtain ⟨i, hk, hx⟩ := mem_zip.mp he
  obtain ⟨hlt, -⟩ := List.getElem?_eq_some_iff.mp hk
  rw [List.length_map] at hlt
  exact ⟨List.mem_map.mp (List.mem_of_getElem? hk),
    List.mem_of_getElem? (i := i) (by rwa [List.getElem?_take_of_lt hlt])⟩

theorem exists_writes {v : AerVal} (hv : Writable names h v) : ∃ t depth, Writes names h v t depth := by
  have hcommon : ∀ vs : List AerVal, (∀ v ∈ vs, ∃ t depth, Writes names h v t depth) →
      ∃ (text : AerVal → Bytes) (depth : Nat), ∀ v ∈ vs, Writes names h v (text v) depth := by
    intro vs hvs
    choose! text depth hw using hvs
    obtain ⟨n, hn⟩ := exists_bound depth vs
    exact ⟨text, n, fun v hv => (hw v hv).deepen (hn v hv)⟩
  induction hv with
  | null =>
    refine ⟨bytes "null", 0, writes_leaf (j := .null)
      ⟨by decide, by decide⟩ (fun d => by simp) ?_ .null ?_⟩
    · intro n b
      cases n <;> rfl
    · intro old h' w hw
      cases hw
      exact ⟨by decide, by decide⟩
  | boolean b =>
    refine ⟨if b then bytes "true" else bytes "false", 0,
      writes_leaf (j := .boolean b) ⟨by simp [AerVal.type], by simp [AerVal.type]⟩ (fun d => by simp)
        ?_ ?_ ?_⟩
    · intro n _
      cases n <;> rfl
    · cases b
      · exact .false
      · exact .true
    · intro old h' w hw
      cases hw
      exact ⟨by simp [AerVal.type], by simp [AerVal.type]⟩
  | @integer v n hv =>
    refine ⟨intText n, 0, writes_leaf hv.leaf ?_ ?_ (fun r => .integer (isSigned_intText n) rfl r) ?_⟩
    · rintro d rfl
      cases hv
    · intro k b
      cases hv with
      | inline => cases k <;> rfl
      | long hc =>
        have hlive : h.longs.Live _ := hc
        cases k <;> simp [jsonEncodeValue, hlive]
    · exact fun old h' w hw => hw.hasInt.leaf
  | real d => exact ⟨_, 0, writes_real d⟩
  | @string c hc =>
    refine ⟨stringText (h.strings.data c), 0, writes_leaf (j := .string (h.strings.data c))
      ⟨by simp [AerVal.type], by simp [AerVal.type]⟩ (fun d => by simp) ?_ (fun r => ?_) ?_⟩
    · intro k b
      have hlive : h.strings.Live _ := hc
      cases k <;> simp [jsonEncodeValue, hlive, jsonEncodeString_eq]
    · rw [stringText_append]
      exact .string ((chars_encoded _ r).within rfc8259Long_within_lenient)
    · intro old h' w hw
      generalize h.strings.data c = b at hw
      cases hw
      exact ⟨by simp [AerVal.type], by simp [AerVal.type]⟩
  | array hc hshape _ ih =>
    obtain ⟨text, depth, hw⟩ := hcommon _ ih
    exact ⟨_, _, writes_array hc hshape hw⟩
  | dict hc hwf _ ih =>
    obtain ⟨text, depth, hw⟩ := hcommon ((h.dicts.data _).entries.map Prod.snd)
      (List.forall_mem_map.mpr ih)
    obtain ⟨hd, hmax⟩ := distinctKeys_entries hwf
    exact ⟨_, _, writes_members (.dict hc) hd.nulFree hmax (List.forall_mem_map.mp hw)⟩
  | @«instance» c id shape hc hid hshape hlen hmax hnul _ ih =>
    obtain ⟨text, depth, hw⟩ := hcommon _ ih
    refine ⟨_, _, writes_members (.instance hc hid hshape hlen) (fun e he => ?_) ?_
      fun e he => hw _ (mem_instance he).2⟩
    · obtain ⟨f, hf, hfe⟩ := (mem_instance he).1
      exact hfe ▸ hnul f hf
    · unfold maxStructFields at hmax
      rw [List.length_zip, List.length_map]
      exact (Nat.min_le_left _ _).trans (hmax.trans (by decide))

/-! Values that have a nesting. -/

theorem HasNesting.unique {v : AerVal} {n m : Nesting} (hn : HasNesting names h v n)
    (hm : HasNesting names h v m) : n = m := by
  induction hn generalizing m with
  | leaf hv =>
    cases hm with
    | leaf => rfl
    | array => exact absurd rfl hv.1
    | members hm => exact absurd hm.not_leaf (not_or.mpr hv)
  | @array c ns _ hshape hlen _ ih =>
    cases hm with
    | leaf hv => exact absurd rfl hv.1
    | members hm => exact absurd hshape hm.not_plain
    | @array _ ms _ _ hlen' hitems =>
      apply congrArg
      apply List.ext_getElem (hlen.symm.trans hlen')
      intro i hi hi'
      have hx : (h.arrays.data c).items[i]? = some ((h.arrays.data c).items.get ⟨i, hlen ▸ hi⟩) :=
        List.getElem?_eq_getElem _
      exact ih _ _ (mem_zip.mpr ⟨i, hx, List.getElem?_eq_getElem hi⟩)
        (hitems _ _ (mem_zip.mpr ⟨i, hx, List.getElem?_eq_getElem hi'⟩))
  | @members v es f hes hkeys _ ih =>
    cases hm with
    | leaf hv => exact absurd hes.not_leaf (not_or.mpr hv)
    | array _ hshape => exact absurd hshape hes.not_plain
    | @members _ fs g hfs hkeys' hvals' =>
      obtain rfl := hes.unique hfs
      apply congrArg
      funext k
      have hsome : (f k).isSome = true ↔ (g k).isSome = true := (hkeys k).trans (hkeys' k).symm
      cases hf : f k with
      | none =>
        rw [hf] at hsome
        exact (Option.not_isSome_iff_eq_none.mp (mt hsome.mpr Bool.false_ne_true)).symm
      | some a =>
        rw [hf] at hsome
        obtain ⟨b, hg⟩ := Option.isSome_iff_exists.mp (hsome.mp rfl)
        obtain ⟨x, hx⟩ := (hkeys k).mp (by rw [hf]; rfl)
        rw [hg, ih k x a hx hf (hvals' k x b hx hg)]

/-- In every struct instance of the value, fields of one name hold values nested alike. -/
def AlikeFields (names : Nat → Bytes) (h : Heap) (v : AerVal) : Prop :=
  ∀ w, Occurs names h w v → ∀ es, Members names h w es → ∀ k x y, (k, x) ∈ es → (k, y) ∈ es →
    ∃ n, HasNesting names h x n ∧ HasNesting names h y n

theorem HasNesting.occurs {v w : AerVal} {n : Nesting} (hn : HasNesting names h v n)
    (ho : Occurs names h w v) : ∃ m, HasNesting names h w m := by
  induction ho generalizing n with
  | here => exact ⟨n, hn⟩
  | @item c x hshape hx _ ih =>
    cases hn with
    | leaf hv => exact absurd rfl hv.1
    | members hm => exact absurd hshape hm.not_plain
    | @array _ ns _ _ hlen hitems =>
      obtain ⟨i, hi⟩ := List.mem_iff_getElem?.mp hx
      have hlt : i < ns.length := hlen ▸ (List.getElem?_eq_some_iff.mp hi).1
      exact ih (hitems x _ (mem_zip.mpr ⟨i, hi, List.getElem?_eq_getElem hlt⟩))
  | @member v x es k hm hx _ ih =>
    cases hn with
    | leaf hv => exact absurd hm.not_leaf (not_or.mpr hv)
    | array _ hshape => exact absurd hshape hm.not_plain
    | @members _ fs f hfs hkeys hvals =>
      obtain rfl := hm.unique hfs
      obtain ⟨m, hf⟩ := Option.isSome_iff_exists.mp ((hkeys k).mpr ⟨x, hx⟩)
      exact ih (hvals k x m hx hf)

theorem alikeFields_of_hasNesting {v : AerVal} {n : Nesting} (hn : HasNesting names h v n) :
    AlikeFields names h v := by
  intro w hw es hes k x y hx hy
  obtain ⟨m, hm⟩ := hn.occurs hw
  cases hm with
  | leaf hv => exact absurd hes.not_leaf (not_or.mpr hv)
  | array _ hshape => exact absurd hshape hes.not_plain
  | @members _ fs f hfs hkeys hvals =>
    obtain rfl := hes.unique hfs
    obtain ⟨m, hf⟩ := Option.isSome_iff_exists.mp ((hkeys k).mpr ⟨x, hx⟩)
    exact ⟨m, hvals k x m hx hf, hvals k y m hy hf⟩

theorem exists_nesting_members {v : AerVal} {es : List (Bytes × AerVal)} (hm : Members names h v es)
    (halike : AlikeFields names h v) : ∃ n, HasNesting names h v n := by
  have hsame := halike v .here es hm
  classical
  refine ⟨.object fun k => if hk : ∃ x, (k, x) ∈ es then
    some (hsame k hk.choose hk.choose hk.choose_spec hk.choose_spec).choose else none,
    .members hm (fun k => ?_) fun k x n hx hn => ?_⟩
  · by_cases hk : ∃ x, (k, x) ∈ es <;> simp [hk]
  · have hk : ∃ x, (k, x) ∈ es := ⟨x, hx⟩
    rw [dif_pos hk, Option.some.injEq] at hn
    subst hn
    obtain ⟨m, hxm, hcm⟩ := hsame k x hk.choose hx hk.choose_spec
    have hspec := (hsame k hk.choose hk.choose hk.choose_spec hk.choose_spec).choose_spec.1
    rwa [hspec.unique hcm]

theorem exists_nesting {v : AerVal} (hv : Writable names h v) (halike : AlikeFields names h v) :
    ∃ n, HasNesting names h v n := by
  induction hv with
  | null | boolean b | real d | string hc => exact ⟨.leaf, .leaf ⟨nofun, nofun⟩⟩
  | integer hv => exact ⟨.leaf, .leaf hv.leaf⟩
  | @array c hc hshape _ ih =>
    have hitem : ∀ x ∈ (h.arrays.data c).items, ∃ n, HasNesting names h x n :=
      fun x hx => ih x hx fun w hw => halike w (.item hshape hx hw)
    have : Nonempty Nesting := ⟨.leaf⟩
    choose! nest hnest using hitem
    refine ⟨.array ((h.arrays.data c).items.map nest), .array hc hshape (by simp) fun x n hxn => ?_⟩
    obtain ⟨i, hx, hn⟩ := mem_zip.mp hxn
    rw [List.getElem?_map, hx, Option.map_some, Option.some.injEq] at hn
    exact hn ▸ hnest x (List.mem_of_getElem? hx)
  | dict hc => exact exists_nesting_members (.dict hc) halike
  | «instance» hc hid hshape hlen => exact exists_nesting_members (.instance hc hid hshape hlen) halike

theorem Unreadable.rejected {t : Bytes} (ht : Unreadable t) (hlen : t.length < 2 ^ 32) {heap : Heap}
    {n : Nat} (hn : t.length < n) :
    ¬ ∃ w p, jsonDecode n heap t = .ok (w, p) ∧ p.err = none := by
  rintro ⟨w, p, hp, herr⟩
  have hd : Decoded t (w, p) := (sat_jsonDecode heap t hn).of_ok hp
  rcases hd.2 with ⟨-, -, j, u, r, hu, hj, -⟩ | ⟨he, -⟩
  · rw [← List.append_nil t] at hu hlen
    exact ht.not_derives hlen hu hj
  · rw [herr] at he
    cases he

end Aer.Json
