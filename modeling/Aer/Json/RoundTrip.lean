import Aer.Json.EncodedText
import Aer.Data.FiniteMap

set_option linter.all false

/-! A value encoded and decoded again is structurally the same value. -/
namespace Aer.Json

open Aer.Data Aer.Memory Aer.Memory.Heap

/-- The parser's limit on the fields of a struct. -/
def maxStructFields : Nat := 16

/-- The entries of a dict, or the fields of a struct instance by their names. -/
inductive Members (names : Nat → Bytes) (h : Heap) : AerVal → List (Bytes × AerVal) → Prop
  | dict {c : Nat} (hc : h.Live (.dict c)) : Members names h (.dict c) (h.dicts.data c).entries
  | instance {c id : Nat} {shape : Shape} (hc : h.Live (.array c))
      (hid : (h.arrays.data c).shape = some id) (hshape : h.shapes[id]? = some shape)
      (hlen : shape.fields.length ≤ (h.arrays.data c).items.length) :
      Members names h (.array c)
        ((shape.fields.map fun f => names f.1).zip (h.arrays.data c).items)

inductive HasInt (h : Heap) : AerVal → Int → Prop
  | inline (n : Int47) : HasInt h (.integer n) n.val
  | long {c : Nat} (hc : h.Live (.long c)) : HasInt h (.long c) (h.longs.data c)

/-- The values the encoder takes and the decoder gives back: no reals, no functions, and
nested to any depth. -/
inductive Encodable (names : Nat → Bytes) (h : Heap) : AerVal → Prop
  | null : Encodable names h .null
  | boolean (b : Bool) : Encodable names h (.boolean b)
  | integer {v : AerVal} {n : Int} (hv : HasInt h v n) (hn : IsLong n) : Encodable names h v
  | string {c : Nat} (hc : h.Live (.string c)) : Encodable names h (.string c)
  | array {c : Nat} (hc : h.Live (.array c)) (hshape : (h.arrays.data c).shape = none)
      (hitems : ∀ v ∈ (h.arrays.data c).items, Encodable names h v) : Encodable names h (.array c)
  | dict {c : Nat} (hc : h.Live (.dict c)) (hwf : HashTable.WellFormed (h.dicts.data c))
      (hvals : ∀ e ∈ (h.dicts.data c).entries, Encodable names h e.2) :
      Encodable names h (.dict c)
  | instance {c id : Nat} {shape : Shape} (hc : h.Live (.array c))
      (hid : (h.arrays.data c).shape = some id) (hshape : h.shapes[id]? = some shape)
      (hlen : shape.fields.length ≤ (h.arrays.data c).items.length)
      (hmax : shape.fields.length ≤ maxStructFields)
      (hnames : (shape.fields.map fun f => names f.1).Nodup)
      (hnul : ∀ f ∈ shape.fields, ∀ b ∈ names f.1, b ≠ 0)
      (hitems : ∀ v ∈ (h.arrays.data c).items.take shape.fields.length, Encodable names h v) :
      Encodable names h (.array c)

/-- The same structure in two heaps; a struct instance counts as the dict of its fields,
and dicts are compared as maps. -/
inductive Same (names : Nat → Bytes) (h h' : Heap) : AerVal → AerVal → Prop
  | null : Same names h h' .null .null
  | boolean (b : Bool) : Same names h h' (.boolean b) (.boolean b)
  | integer {v w : AerVal} {n : Int} (hv : HasInt h v n) (hw : HasInt h' w n) : Same names h h' v w
  | string {c d : Nat} (hc : h.Live (.string c)) (hd : h'.Live (.string d))
      (hdata : h.strings.data c = h'.strings.data d) : Same names h h' (.string c) (.string d)
  | array {c d : Nat} (hc : h.Live (.array c)) (hd : h'.Live (.array d))
      (hcs : (h.arrays.data c).shape = none) (hds : (h'.arrays.data d).shape = none)
      (hlen : (h.arrays.data c).items.length = (h'.arrays.data d).items.length)
      (hitems : ∀ v w, (v, w) ∈ (h.arrays.data c).items.zip (h'.arrays.data d).items →
        Same names h h' v w) : Same names h h' (.array c) (.array d)
  | members {v : AerVal} {es : List (Bytes × AerVal)} {d : Nat} (hv : Members names h v es)
      (hd : h'.Live (.dict d)) (hwf : HashTable.WellFormed (h'.dicts.data d))
      (hkeys : ∀ k, (∃ x, (k, x) ∈ es) ↔ ∃ y, (k, y) ∈ (h'.dicts.data d).entries)
      (hvals : ∀ k x y, (k, x) ∈ es → (k, y) ∈ (h'.dicts.data d).entries → Same names h h' x y) :
      Same names h h' v (.dict d)

variable {names : Nat → Bytes} {h : Heap}

/-- The value `v` is encoded as the text `t`, which denotes `j`, within `depth` levels. -/
structure Encodes (names : Nat → Bytes) (h : Heap) (v : AerVal) (j : Tree) (t : Bytes)
    (depth : Nat) : Prop where
  text : ∀ n, depth ≤ n → ∀ b, jsonEncodeValue names h n v b = some (true, b ++ t)
  value : ∀ r, Value rfc8259Long j (t ++ r) r
  same : ∀ old h' w, Denotes old h' w j → Same names h h' v w

theorem exists_bound {α : Type} (f : α → Nat) (l : List α) : ∃ n, ∀ x ∈ l, f x ≤ n := by
  induction l with
  | nil => exact ⟨0, by simp⟩
  | cons a l ih =>
    obtain ⟨n, hn⟩ := ih
    refine ⟨max (f a) n, fun x hx => ?_⟩
    rcases List.mem_cons.mp hx with rfl | hx
    · exact Nat.le_max_left _ _
    · exact (hn x hx).trans (Nat.le_max_right _ _)

theorem Denotes.hasInt {old : Cell → Prop} {w : AerVal} {n : Int}
    (hd : Denotes old h w (.integer n)) : HasInt h w n := by
  cases hd with
  | integer n => exact .inline n
  | long _ hc => exact .long hc

theorem encodes_integer {v : AerVal} {n : Int} (hv : HasInt h v n) (hn : IsLong n) :
    Encodes names h v (.integer n) (intText n) 0 where
  text k _ b := by
    cases hv with
    | inline n => cases k <;> rfl
    | long hc =>
      have hlive : h.longs.Live _ := hc
      cases k <;> simp [jsonEncodeValue, hlive]
  value := value_intText hn
  same _ _ _ hd := .integer hv hd.hasInt

theorem encodes_string {c : Nat} (hc : h.Live (.string c)) :
    Encodes names h (.string c) (.string (h.strings.data c)) (stringText (h.strings.data c)) 0 where
  text k _ b := by
    have hlive : h.strings.Live _ := hc
    cases k <;> simp [jsonEncodeValue, hlive, jsonEncodeString_eq]
  value r := stringText_append _ r ▸ .string (chars_encoded _ r)
  same old h' w hd := by
    generalize hb : h.strings.data c = b at hd
    cases hd with
    | string _ hd => exact .string hc hd hb

theorem encodes_array {c : Nat} {js : AerVal → Tree} {text : AerVal → Bytes} {depth : Nat}
    (hc : h.Live (.array c)) (hshape : (h.arrays.data c).shape = none)
    (henc : ∀ v ∈ (h.arrays.data c).items, Encodes names h v (js v) (text v) depth) :
    Encodes names h (.array c) (.array ((h.arrays.data c).items.map js))
      (byte '[' :: joinCommas true ((h.arrays.data c).items.map text) ++ [byte ']']) (depth + 1) where
  text k hk b := by
    have hlive : h.arrays.Live _ := hc
    obtain ⟨k, rfl⟩ : ∃ n, k = n + 1 := ⟨k - 1, by omega⟩
    have hall := encodeAll_eq (fun v hv b => (henc v hv).text k (by omega) b) true (b ++ [byte '['])
    simp [jsonEncodeValue, hlive, hshape, hall, closeWith]
  value r := by
    cases hitems : (h.arrays.data c).items with
    | nil => exact .emptyArray (.none _)
    | cons x xs =>
      rw [hitems] at henc
      have := derives_items x xs r fun v hv => (henc v hv).value
      simpa using Derives.array this
  same old h' w hd := by
    generalize hjs : (h.arrays.data c).items.map js = ks at hd
    cases hd with
    | @array d _ _ hd hds hlen hitems =>
      have hsize : (h.arrays.data c).items.length = (h'.arrays.data d).items.length := by
        rw [hlen, ← hjs, List.length_map]
      refine .array hc hd hshape hds hsize fun v w hvw => ?_
      obtain ⟨i, hi⟩ := List.mem_iff_getElem?.mp hvw
      obtain ⟨hv, hw⟩ := List.getElem?_zip_eq_some.mp hi
      refine (henc v (List.mem_of_getElem? hv)).same old h' w (hitems w (js v) ?_)
      refine List.mem_iff_getElem?.mpr ⟨i, List.getElem?_zip_eq_some.mpr ⟨hw, ?_⟩⟩
      rw [← hjs, List.getElem?_map, hv]
      rfl

/-! Members. -/

theorem distinctKeys_entries {π : Type} {t : HashTable π} (h : HashTable.WellFormed t) :
    HashTable.DistinctKeys t.entries ∧ t.entries.length ≤ HashTable.maxCapacity := by
  refine ⟨⟨fun e he => ?_, h.nodup_keys⟩, ?_⟩
  · have := h.keys e.1 e.2 (HashTable.mem_entries.mp he)
    simpa [cString] using List.takeWhile_eq_self_iff.mp this
  · refine (List.length_filterMap_le _ _).trans ?_
    by_cases hb : t.buckets = []
    · simp [hb]
    · exact (h.capacity_bounds hb).2

theorem encodeAll_forall₂ {α β : Type} {f : α → Bytes → EncodeResult} {g : β → Bytes → EncodeResult}
    {xs : List α} {ys : List β} (h : List.Forall₂ (fun x y => ∀ b, f x b = g y b) xs ys)
    (first : Bool) (b : Bytes) : encodeAll f first xs b = encodeAll g first ys b := by
  induction h generalizing first b with
  | nil => rfl
  | cons hxy _ ih =>
    rw [encodeAll, encodeAll, hxy]
    split
    · exact ih false _
    · rfl

/-- The members of a dict or of a struct instance are encoded in order. -/
theorem jsonEncodeValue_members {v : AerVal} {es : List (Bytes × AerVal)} (hm : Members names h v es)
    (k : Nat) (b : Bytes) : jsonEncodeValue names h (k + 1) v b =
      closeWith (byte '}') (encodeAll (fun e b =>
        jsonEncodeValue names h k e.2 (jsonEncodeString b e.1 ++ [byte ':'])) true es
          (b ++ [byte '{'])) := by
  cases hm with
  | dict hc =>
    have hlive : h.dicts.Live _ := hc
    simp [jsonEncodeValue, hlive]
  | @«instance» c id shape hc hid hshape hlen =>
    have hlive : h.arrays.Live _ := hc
    simp only [jsonEncodeValue, hlive, ↓reduceIte, hid, hshape]
    congr 1
    refine encodeAll_forall₂ (List.forall₂_iff_get.mpr ⟨by simp [hlen], ?_⟩) _ _
    intro i hi hi' b
    have hlt : i < (h.arrays.data c).items.length := by
      rw [List.length_zipIdx, List.length_map] at hi
      omega
    simp [List.getElem?_eq_getElem hlt]

theorem encodes_members {v : AerVal} {es : List (Bytes × AerVal)} {js : AerVal → Tree}
    {text : AerVal → Bytes} {depth : Nat} (hm : Members names h v es)
    (hd : HashTable.DistinctKeys es) (hmax : es.length ≤ HashTable.maxCapacity)
    (henc : ∀ e ∈ es, Encodes names h e.2 (js e.2) (text e.2) depth) :
    Encodes names h v (.object (es.map fun e => (e.1, js e.2)))
      (byte '{' :: joinCommas true (es.map fun e => memberText e.1 (text e.2)) ++ [byte '}'])
      (depth + 1) where
  text k hk b := by
    obtain ⟨k, rfl⟩ : ∃ n, k = n + 1 := ⟨k - 1, by omega⟩
    have hstep : ∀ e ∈ es, ∀ b, jsonEncodeValue names h k e.2 (jsonEncodeString b e.1 ++ [byte ':']) =
        some (true, b ++ memberText e.1 (text e.2)) := by
      intro e he b
      rw [(henc e he).text k (by omega), jsonEncodeString_eq, memberText]
      simp
    rw [jsonEncodeValue_members hm, encodeAll_eq hstep]
    simp [closeWith]
  value r := by
    cases es with
    | nil => exact .emptyObject (.none _)
    | cons x xs =>
      have := derives_members (.refl _) (fun e : Bytes × AerVal => (e.1, js e.2))
        (fun e => text e.2) x xs r fun e he => (henc e he).value
      simpa using Derives.object this
  same old h' w hw := by
    generalize hms : es.map (fun e => (e.1, js e.2)) = ms at hw
    cases hw with
    | @dict d _ vs _ hd' hlen hdata hvals =>
    have hkeys : ms.map Prod.fst = es.map Prod.fst := by
      rw [← hms, List.map_map]
      rfl
    have hsize : es.length = vs.length := by rw [hlen, ← hms, List.length_map]
    have hfst : (((ms.map Prod.fst).zip vs).map Prod.fst) = es.map Prod.fst := by
      rw [List.map_fst_zip (by simp [hlen]), hkeys]
    have hdistinct : HashTable.DistinctKeys ((ms.map Prod.fst).zip vs) := by
      refine ⟨fun e he => ?_, hfst ▸ hd.nodup⟩
      have hmem : e.1 ∈ es.map Prod.fst := hfst ▸ List.mem_map_of_mem he
      obtain ⟨f, hf, hfe⟩ := List.mem_map.mp hmem
      exact hfe ▸ hd.nulFree f hf
    have hfill := HashTable.filled_putAll _ hdistinct (by simp [hkeys, ← hsize, hmax])
    rw [← hdata] at hfill
    have hmem : ∀ e, e ∈ (h'.dicts.data d).entries ↔ e ∈ (ms.map Prod.fst).zip vs :=
      fun e => HashTable.mem_entries.trans (hfill.mem e)
    refine .members hm hd' hfill.wellFormed (fun k => ?_) fun k x y hx hy => ?_
    · have hk : ∀ (l : List (Bytes × AerVal)), (∃ x, (k, x) ∈ l) ↔ k ∈ l.map Prod.fst := by simp
      simp only [hmem, hk, hfst]
    · obtain ⟨i, hi⟩ := List.mem_iff_getElem?.mp hx
      obtain ⟨j, hj⟩ := List.mem_iff_getElem?.mp ((hmem _).mp hy)
      obtain ⟨hjk, hjv⟩ := List.getElem?_zip_eq_some.mp hj
      -- Keys are distinct, so both entries stand at one index.
      have hik : (es.map Prod.fst)[i]? = some k := by rw [List.getElem?_map, hi]; rfl
      rw [hkeys] at hjk
      obtain ⟨hlti, -⟩ := List.getElem?_eq_some_iff.mp hik
      obtain rfl : i = j := (List.getElem?_inj hlti hd.nodup).mp (hik.trans hjk.symm)
      refine (henc _ hx).same old h' y (hvals y (k, js x) ?_)
      refine List.mem_iff_getElem?.mpr ⟨i, List.getElem?_zip_eq_some.mpr ⟨hjv, ?_⟩⟩
      rw [← hms, List.getElem?_map, hi]
      rfl

/-- Every such value has its text. -/
theorem exists_encodes {v : AerVal} (hv : Encodable names h v) : ∃ j t depth, Encodes names h v j t depth := by
  have hdeep : ∀ {w : AerVal} {j : Tree} {t : Bytes} {m n : Nat}, Encodes names h w j t m → m ≤ n →
      Encodes names h w j t n := fun hw hmn => ⟨fun k hk => hw.text k (hmn.trans hk), hw.value, hw.same⟩
  have hcommon : ∀ vs : List AerVal, (∀ v ∈ vs, ∃ j t depth, Encodes names h v j t depth) →
      ∃ (js : AerVal → Tree) (text : AerVal → Bytes) (depth : Nat),
        ∀ v ∈ vs, Encodes names h v (js v) (text v) depth := by
    intro vs hvs
    have : Nonempty Tree := ⟨.null⟩
    choose! js text depth henc using hvs
    obtain ⟨n, hn⟩ := exists_bound depth vs
    exact ⟨js, text, n, fun v hv => hdeep (henc v hv) (hn v hv)⟩
  induction hv with
  | null =>
    refine ⟨.null, bytes "null", 0, ⟨fun k _ b => by cases k <;> rfl, .null, fun _ _ w hw => ?_⟩⟩
    cases hw
    exact .null
  | boolean b =>
    refine ⟨.boolean b, if b then bytes "true" else bytes "false", 0,
      ⟨fun k _ _ => by cases k <;> rfl, fun r => ?_, fun _ _ w hw => ?_⟩⟩
    · cases b
      · exact .false r
      · exact .true r
    · cases hw
      exact .boolean b
  | integer hv hn => exact ⟨_, _, _, encodes_integer hv hn⟩
  | string hc => exact ⟨_, _, _, encodes_string hc⟩
  | array hc hshape _ ih =>
    obtain ⟨js, text, depth, henc⟩ := hcommon _ ih
    exact ⟨_, _, _, encodes_array hc hshape henc⟩
  | dict hc hwf _ ih =>
    obtain ⟨js, text, depth, henc⟩ := hcommon ((h.dicts.data _).entries.map Prod.snd)
      (List.forall_mem_map.mpr ih)
    obtain ⟨hd, hmax⟩ := distinctKeys_entries hwf
    exact ⟨_, _, _, encodes_members (.dict hc) hd hmax (List.forall_mem_map.mp henc)⟩
  | @«instance» c id shape hc hid hshape hlen hmax hnames hnul _ ih =>
    obtain ⟨js, text, depth, henc⟩ := hcommon _ ih
    have hsnd : ∀ e ∈ (shape.fields.map fun f => names f.1).zip (h.arrays.data c).items,
        e.1 ∈ shape.fields.map (fun f => names f.1) ∧
          e.2 ∈ (h.arrays.data c).items.take shape.fields.length := by
      intro e he
      obtain ⟨i, hi⟩ := List.mem_iff_getElem?.mp he
      obtain ⟨hk, hv⟩ := List.getElem?_zip_eq_some.mp hi
      obtain ⟨hlt, -⟩ := List.getElem?_eq_some_iff.mp hk
      rw [List.length_map] at hlt
      exact ⟨List.mem_of_getElem? hk,
        List.mem_of_getElem? (i := i) (by rwa [List.getElem?_take_of_lt hlt])⟩
    refine ⟨_, _, _, encodes_members (.instance hc hid hshape hlen) ⟨fun e he => ?_, ?_⟩ ?_
      fun e he => henc _ (hsnd e he).2⟩
    · obtain ⟨f, hf, hfe⟩ := List.mem_map.mp (hsnd e he).1
      exact hfe ▸ hnul f hf
    · rwa [List.map_fst_zip (by simpa using hlen)]
    · unfold maxStructFields at hmax
      rw [List.length_zip, List.length_map]
      exact (Nat.min_le_left _ _).trans (hmax.trans (by decide))

/-- A heap with the array `[1, [null]]`. -/
def nestedHeap : Heap :=
  ((Heap.init.newArray { items := [.null], capacity := 1, shape := none }).2.newArray
    { items := [.integer ⟨1, by decide⟩, .array 0], capacity := 2, shape := none }).2

end Aer.Json
