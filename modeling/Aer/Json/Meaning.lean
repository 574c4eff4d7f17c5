import Aer.Json.Completeness

set_option linter.all false

/-! Containers and whole texts: the decoder accepts every text of its dialect, with the
value the text denotes. -/
namespace Aer.Json

open Aer.Data Aer.Memory Aer.Memory.Heap Aer.Lib.Scan JsonParser

variable {p q : JsonParser} {n : Nat}

/-! Arrays. -/

/-- The rest of an array is read into the cell `c`. -/
structure MakesItems (p : JsonParser) (c : Nat) (js : List Tree) (r : Bytes) (q : JsonParser) :
    Prop where
  arrives : Arrives p q r
  grows : GrowsBut (· = .array c) p.heap q.heap
  items : ∃ vs : List AerVal, vs.length = js.length ∧
    (∀ v j, (v, j) ∈ vs.zip js → Denotes p.heap.Live q.heap v j) ∧
    (q.heap.arrays.data c).items = (p.heap.arrays.data c).items ++ vs ∧
    (q.heap.arrays.data c).shape = (p.heap.arrays.data c).shape

/-- An item stored in the cell `c`. -/
structure Pushed (c : Nat) (j : Tree) (h h' : Heap) (v : AerVal) : Prop where
  grows : GrowsBut (· = .array c) h h'
  denotes : Denotes h.Live h' v j
  items : (h'.arrays.data c).items = (h.arrays.data c).items ++ [v]
  shape : (h'.arrays.data c).shape = (h.arrays.data c).shape

theorem MakesValue.pushed {c : Nat} {j : Tree} {r : Bytes} {v : AerVal} (hv : MakesValue p j r v q)
    (hc : p.heap.Live (.array c)) : Pushed c j p.heap (q.pushItem c v).heap v := by
  have hset := growsBut_setArray q.heap c
  have hsame : q.heap.arrays.data c = p.heap.arrays.data c := hv.grows.data _ hc id
  have hstored : ∀ a, (q.heap.setArray c a).arrays.data c = a := fun _ => Function.update_self ..
  refine ⟨(hv.grows.but _).trans (hset _), hv.denotes.grow (hset _) ?_, ?_, ?_⟩
  · rintro _ rfl
    exact hc
  · rw [← hsame, pushItem, hstored]
  · rw [← hsame, pushItem, hstored]

theorem Pushed.one {c : Nat} {j : Tree} {r : Bytes} {v : AerVal} (h : Pushed c j p.heap q.heap v)
    (ha : Arrives p q r) : MakesItems p c [j] r q := by
  refine ⟨ha, h.grows, [v], rfl, fun w k hwk => ?_, h.items, h.shape⟩
  obtain ⟨rfl, rfl⟩ : w = v ∧ k = j := by simpa using hwk
  exact h.denotes

theorem Pushed.cons {c : Nat} {j : Tree} {js : List Tree} {r : Bytes} {v : AerVal}
    {s : JsonParser} (h : Pushed c j p.heap q.heap v) (hq : p.Reaches q)
    (hc : p.heap.Live (.array c)) (hs : MakesItems q c js r s) : MakesItems p c (j :: js) r s := by
  obtain ⟨vs, hlen, hden, hitems, hshape⟩ := hs.items
  refine ⟨⟨hq.trans hs.arrives.reaches, hs.arrives.err, hs.arrives.rest⟩, h.grows.trans hs.grows,
    v :: vs, by simp [hlen], fun w k hwk => ?_, ?_, hshape.trans h.shape⟩
  · rw [List.zip_cons_cons, List.mem_cons] at hwk
    rcases hwk with hwk | hwk
    · cases hwk
      exact h.denotes.grow hs.grows (by rintro _ rfl; exact hc)
    · exact (hden w k hwk).mono h.grows.live
  · rw [hitems, h.items, List.append_assoc, List.singleton_append]

/-- A turn of the array loop up to the byte after the item. -/
theorem jsonArrayTurn_eq {value : ValueParser} {c : Nat} {v : AerVal} {b : UInt8} {t : Bytes}
    (hp : p.Reaches q) (he : q.err = none) (hn : p.left < n) (hv : value p = .ok (v, q))
    (hws : Ws q.rest (b :: t)) (hb : isWs b = false) :
    ∃ q₁, p.Reaches q₁ ∧ q₁.err = none ∧ q₁.heap = (q.pushItem c v).heap ∧ q₁.rest = b :: t ∧
      jsonArrayTurn value n c p =
        if b = byte ',' then do
          let p ← jsonSkipWs n (q₁.skip 1)
          return .inl p
        else if b = byte ']' then return .inr (.array c, q₁.skip 1)
        else return .inr (.null, q₁.setError (bytes "Expected ',' or ']' in JSON array")) := by
  obtain ⟨q₁, hq₁, hs, hrest⟩ := jsonSkipWs_complete (p := q.pushItem c v) hp.inside
    (hp.left_le.trans_lt hn) hws (by simpa using hb)
  refine ⟨q₁, hp.trans ⟨hs.reaches.text, hs.reaches.forward, hs.reaches.inside⟩, hs.err.trans he,
    hs.heap, hrest, ?_⟩
  simp only [jsonArrayTurn, hv, ok_bind, he, Option.isSome_none, Bool.false_eq_true, ↓reduceIte, hq₁,
    if_neg (not_le.mpr (lt_of_rest hrest)), read_of_rest hrest]

/-! Objects. -/

/-- Members are put one by one, by their keys. -/
def putMembers (d : HashTable AerVal) (ks : List Bytes) (vs : List AerVal) : HashTable AerVal :=
  (ks.zip vs).foldl (fun d e => d.put e.1 e.2) d

structure MakesMembers (p : JsonParser) (c : Nat) (ms : List (Bytes × Tree)) (r : Bytes)
    (q : JsonParser) : Prop where
  arrives : Arrives p q r
  grows : GrowsBut (· = .dict c) p.heap q.heap
  members : ∃ vs : List AerVal, vs.length = ms.length ∧
    (∀ v m, (v, m) ∈ vs.zip ms → Denotes p.heap.Live q.heap v m.2) ∧
    q.heap.dicts.data c = putMembers (p.heap.dicts.data c) (ms.map Prod.fst) vs

structure Put (c : Nat) (k : Bytes) (j : Tree) (h h' : Heap) (v : AerVal) : Prop where
  grows : GrowsBut (· = .dict c) h h'
  denotes : Denotes h.Live h' v j
  data : h'.dicts.data c = (h.dicts.data c).put k v

theorem Put.one {c : Nat} {k r : Bytes} {j : Tree} {v : AerVal} (h : Put c k j p.heap q.heap v)
    (ha : Arrives p q r) : MakesMembers p c [(k, j)] r q := by
  refine ⟨ha, h.grows, [v], rfl, fun w m hwm => ?_, h.data⟩
  obtain ⟨rfl, rfl⟩ : w = v ∧ m = (k, j) := by simpa using hwm
  exact h.denotes

theorem Put.cons {c : Nat} {k r : Bytes} {j : Tree} {ms : List (Bytes × Tree)} {v : AerVal}
    {s : JsonParser} (h : Put c k j p.heap q.heap v) (hq : p.Reaches q)
    (hc : p.heap.Live (.dict c)) (hs : MakesMembers q c ms r s) :
    MakesMembers p c ((k, j) :: ms) r s := by
  obtain ⟨vs, hlen, hden, hdata⟩ := hs.members
  refine ⟨⟨hq.trans hs.arrives.reaches, hs.arrives.err, hs.arrives.rest⟩, h.grows.trans hs.grows,
    v :: vs, by simp [hlen], fun w m hwm => ?_, ?_⟩
  · rw [List.zip_cons_cons, List.mem_cons] at hwm
    rcases hwm with hwm | hwm
    · cases hwm
      exact h.denotes.grow hs.grows (by rintro _ rfl; exact hc)
    · exact (hden w m hwm).mono h.grows.live
  · rw [hdata, h.data]
    rfl

theorem Denotes.stringBytes {old : Cell → Prop} {k : Bytes} {v : AerVal}
    (h : Denotes old p.heap v (.string k)) : p.stringBytes v = k := by
  cases h
  rfl

theorem MakesValue.put {c : Nat} {k r : Bytes} {j : Tree} {v key : AerVal} {h : Heap}
    (hv : MakesValue p j r v q) (hg : Grows h p.heap) (hkey : Denotes h.Live p.heap key (.string k))
    (hc : h.Live (.dict c)) : Put c k j h (q.putMember c (q.stringBytes key) v).heap v := by
  have hset := growsBut_setDict q.heap c
  have hsame : q.heap.dicts.data c = h.dicts.data c := (hg.trans hv.grows).data _ hc id
  have hbytes : q.stringBytes key = k := (hkey.grow hv.grows fun _ hn => hn.elim).stringBytes
  refine ⟨(Grows.but (hg.trans hv.grows) _).trans (hset _),
    (hv.denotes.mono hg.live).grow (hset _) ?_, ?_⟩
  · rintro _ rfl
    exact hc
  · rw [← hsame, ← hbytes]
    exact Function.update_self ..

/-- A turn of the object loop up to the byte after the member. -/
theorem jsonObjectTurn_eq {s : Bytes} {value : ValueParser} {c : Nat} {b : UInt8}
    {t₁ t₂ t₃ t₅ r k : Bytes} {j : Tree} (hs : s.length < 2 ^ 32) (hp : Within s p)
    (hw : p.heap.PoolsWf) (hc : p.heap.Live (.dict c)) (hn : p.left < n)
    (h₁ : Ws p.rest (quote :: t₁)) (hk : Chars lenient t₁ k t₂) (h₂ : Ws t₂ (byte ':' :: t₃))
    (h₄ : Ws t₅ (b :: r)) (hb : isWs b = false)
    (hvalue : ∀ q, Within s q → q.heap.PoolsWf → p.pos < q.pos → Ws t₃ q.rest →
      q.rest.head?.any isWs = false → ∃ v q', value q = .ok (v, q') ∧ MakesValue q j t₅ v q') :
    ∃ q v, p.Reaches q ∧ p.pos < q.pos ∧ q.err = none ∧ Put c k j p.heap q.heap v ∧
      q.rest = b :: r ∧
      jsonObjectTurn value n c p =
        if b = byte ',' then return .inl (q.skip 1)
        else if b = byte '}' then return .inr (.dict c, q.skip 1)
        else return .inr (.null, q.setError (bytes "Expected ',' or '\x7d' in JSON object")) := by
  obtain ⟨q₀, hq₀, hs₀, hr₀⟩ := jsonSkipWs_complete hp.inside hn h₁ rfl
  have hto₀ := hs₀.reaches
  have hw₀ := hp.reach hto₀ (hs₀.err.trans hp.err)
  obtain ⟨q₁, hq₁, ha₁, hheap₁⟩ :=
    jsonParseStringRaw_complete hs hw₀ hr₀ hk (n := n) (hto₀.left_le.trans hn.le)
  have hto₁ := hto₀.trans ha₁.reaches
  obtain ⟨q₂, hq₂, hs₂, hr₂⟩ :=
    jsonSkipWs_complete hto₁.inside (hto₁.left_le.trans_lt hn) (ha₁.rest ▸ h₂) rfl
  have hto₂ := hto₁.trans hs₂.reaches
  have hskip₂ : q₂.Reaches (q₂.skip 1) := reaches_skip (by simp [hr₂]) hto₂.inside
  obtain ⟨q₃, hq₃, hs₃⟩ :=
    exists_jsonSkipWs hskip₂.inside ((hto₂.trans hskip₂).left_le.trans_lt hn)
  have hto₃ := hto₂.trans (hskip₂.trans hs₃.reaches)
  have hlt₃ : p.pos < q₃.pos := hto₂.forward.trans_lt hs₃.reaches.forward
  have he₃ : q₃.err = none := hs₃.err.trans (hs₂.err.trans ha₁.err)
  have hheap₀ : q₀.heap = p.heap := hs₀.heap
  have hheap₃ : q₃.heap = (p.heap.aerMakeString k).2 := by
    rw [hs₃.heap, skip_heap, hs₂.heap, hheap₁, hheap₀]
  have hg₃ : Grows p.heap q₃.heap := hheap₃ ▸ grows_aerMakeString hw k
  have hkey : Denotes p.heap.Live q₃.heap (q₀.heap.aerMakeString k).1 (.string k) := by
    rw [hheap₃, hheap₀]
    exact denotes_string hw k
  obtain ⟨v, q₄, hq₄, hv⟩ := hvalue q₃ (hp.reach hto₃ he₃) (hg₃.wf hw) hlt₃
    (rest_skip_one hr₂ ▸ hs₃.ws) hs₃.stop
  have hto₄ := hto₃.trans hv.arrives.reaches
  have hput := hv.put hg₃ hkey hc
  obtain ⟨q₅, hq₅, hs₅, hr₅⟩ := jsonSkipWs_complete
    (p := q₄.putMember c (q₄.stringBytes (q₀.heap.aerMakeString k).1) v) hto₄.inside
    (hto₄.left_le.trans_lt hn) (hv.arrives.rest ▸ h₄) (by simpa using hb)
  refine ⟨q₅, v, hto₄.trans ⟨hs₅.reaches.text, hs₅.reaches.forward, hs₅.reaches.inside⟩,
    hlt₃.trans_le (hv.arrives.reaches.forward.trans hs₅.reaches.forward),
    hs₅.err.trans hv.arrives.err, hs₅.heap ▸ hput, hr₅, ?_⟩
  simp only [jsonObjectTurn, hq₀, ok_bind, looksAt_eq, hr₀, List.head?_cons, Option.any_some,
    hq₁, ha₁.err, hq₂, hr₂, hq₃, hq₄, hv.arrives.err, hq₅, Option.isSome_none,
    if_neg (not_le.mpr (lt_of_rest hr₅)), read_of_rest hr₅, Bool.false_eq_true, ↓reduceIte,
    beq_self_eq_true, Bool.not_true, show (quote == byte '"') = true from rfl]

/-! Values. -/

theorem Ws.linear {t u v : Bytes} (hu : Ws t u) (hv : Ws t v) (hstop : v.head?.any isWs = false) :
    Ws u v := by
  induction hu with
  | none => exact hv
  | more hb _ ih =>
    cases hv with
    | none => simp [hb] at hstop
    | more _ hv => exact ih hv

/-- The byte a number starts with. -/
def StartsNumber (b : UInt8) : Prop := b = byte '-' ∨ isDigit b = true

theorem IsSigned.starts {l : Bytes} (h : IsSigned l) (r : Bytes) :
    ∃ b t, l ++ r = b :: t ∧ StartsNumber b := by
  cases h with
  | plus h =>
    cases h with
    | zero => exact ⟨_, _, rfl, .inr (by decide)⟩
    | digits hd _ _ => exact ⟨_, _, rfl, .inr hd⟩
  | minus h => exact ⟨_, _, rfl, .inl rfl⟩

theorem IsReal.starts {l : Bytes} (h : IsReal l) (r : Bytes) :
    ∃ b t, l ++ r = b :: t ∧ StartsNumber b := by
  cases h with
  | fraction hi _ | exponent hi _ =>
    rw [List.append_assoc]
    exact hi.starts _
  | both hi _ _ =>
    rw [List.append_assoc, List.append_assoc]
    exact hi.starts _

theorem StartsNumber.ne {b c : UInt8} (h : StartsNumber b) (hc : c ≠ byte '-')
    (hd : isDigit c = false) : b ≠ c := by
  rintro rfl
  rcases h with h | h
  · exact hc h
  · rw [hd] at h
    cases h

theorem StartsNumber.isWs {b : UInt8} (h : StartsNumber b) : isWs b = false := by
  have h₁ := h.ne (c := byte ' ') (by decide) (by decide)
  have h₂ := h.ne (c := byte '\t') (by decide) (by decide)
  have h₃ := h.ne (c := byte '\n') (by decide) (by decide)
  have h₄ := h.ne (c := byte '\r') (by decide) (by decide)
  simp [Json.isWs, h₁, h₂, h₃, h₄]

theorem jsonParseAt_number {b : UInt8} (h : StartsNumber b) (value : ValueParser) :
    jsonParseAt value n b p = jsonParseNumber n p := by
  unfold jsonParseAt
  rw [if_neg (h.ne (by decide) (by decide)), if_neg (h.ne (by decide) (by decide)),
    if_neg (h.ne (by decide) (by decide)), if_neg (h.ne (by decide) (by decide)),
    if_neg (h.ne (by decide) (by decide)), if_neg (h.ne (by decide) (by decide))]
  exact if_pos h

/-- A value starts with a byte that is neither blank nor a closing bracket. -/
theorem value_head {d : Dialect} {j : Tree} {t r : Bytes} (h : Value d j t r) :
    ∃ b u, t = b :: u ∧ isWs b = false ∧ b ≠ byte ']' := by
  cases h with
  | null | true | false | string _ | emptyArray _ | array _ | emptyObject _ | object _ =>
    exact ⟨_, _, rfl, by decide, by decide⟩
  | integer hl _ _ =>
    obtain ⟨b, u, h, hb⟩ := hl.starts r
    exact ⟨b, u, h, hb.isWs, hb.ne (by decide) (by decide)⟩
  | real hl _ =>
    obtain ⟨b, u, h, hb⟩ := hl.starts r
    exact ⟨b, u, h, hb.isWs, hb.ne (by decide) (by decide)⟩

theorem value_stop {d : Dialect} {j : Tree} {t r : Bytes} (h : Value d j t r) :
    t.head?.any isWs = false := by
  obtain ⟨b, u, rfl, hb, -⟩ := value_head h
  exact hb

/-- The parser behind the blanks before a value. -/
theorem jsonParseValue_eq {s t : Bytes} {b : UInt8} (hp : Within s p) (hn : p.left < n + 1)
    (hws : Ws p.rest (b :: t)) (hb : isWs b = false) :
    ∃ q, p.Reaches q ∧ Within s q ∧ q.heap = p.heap ∧ q.rest = b :: t ∧
      jsonParseValue (n + 1) p = jsonParseAt (jsonParseValue n) (n + 1) b q := by
  obtain ⟨q, hq, hs, hr⟩ := jsonSkipWs_complete hp.inside hn hws hb
  refine ⟨q, hs.reaches, hp.reach hs.reaches (hs.err.trans hp.err), hs.heap, hr, ?_⟩
  simp only [jsonParseValue, jsonParseValueWith, hq, ok_bind, if_neg (not_le.mpr (lt_of_rest hr)),
    read_of_rest hr]

theorem MakesValue.before {j : Tree} {r : Bytes} {v : AerVal} {s : JsonParser}
    (h : MakesValue q j r v s) (hq : p.Reaches q) (hheap : q.heap = p.heap) :
    MakesValue p j r v s :=
  ⟨⟨hq.trans h.arrives.reaches, h.arrives.err, h.arrives.rest⟩, hheap ▸ h.grows, hheap ▸ h.denotes⟩

/-! What is shown of a derivation, by induction. -/

def CompletesValue (s t r : Bytes) (j : Tree) : Prop :=
  ∀ p n, Within s p → p.heap.PoolsWf → p.left < n → Ws p.rest t → EndsNumber r →
    ∃ v q, jsonParseValue n p = .ok (v, q) ∧ MakesValue p j r v q

def CompletesItems (s t r : Bytes) (js : List Tree) : Prop :=
  ∀ p m n k c, Within s p → p.heap.PoolsWf → p.heap.Live (.array c) → p.left < m → p.left < n →
    p.left < k → Ws t p.rest →
    ∃ q, iterate (jsonArrayTurn (jsonParseValue m) n c) k p = .ok (.array c, q) ∧
      MakesItems p c js r q

def CompletesMembers (s t r : Bytes) (ms : List (Bytes × Tree)) : Prop :=
  ∀ p m n k c, Within s p → p.heap.PoolsWf → p.heap.Live (.dict c) → p.left < m → p.left < n →
    p.left < k → Ws t p.rest →
    ∃ q, iterate (jsonObjectTurn (jsonParseValue m) n c) k p = .ok (.dict c, q) ∧
      MakesMembers p c ms r q

def Completes (s t r : Bytes) : Phrase → Prop
  | .value j => CompletesValue s t r j
  | .items js => CompletesItems s t r js
  | .members ms => CompletesMembers s t r ms

/-- A value that starts with `b` is left to the parser of that byte. -/
theorem completesValue_at {s t r : Bytes} {b : UInt8} {j : Tree} (hb : isWs b = false)
    (h : ∀ p n, Within s p → p.heap.PoolsWf → p.left < n + 1 → p.rest = b :: t → EndsNumber r →
      ∃ v q, jsonParseAt (jsonParseValue n) (n + 1) b p = .ok (v, q) ∧ MakesValue p j r v q) :
    CompletesValue s (b :: t) r j := by
  intro p n hp hw hn hws hr
  obtain ⟨n, rfl⟩ : ∃ k, n = k + 1 := ⟨n - 1, by omega⟩
  obtain ⟨q, hto, hq, hheap, hrest, heq⟩ := jsonParseValue_eq hp hn hws hb
  obtain ⟨v, q', hq', hm⟩ := h q n hq (hheap ▸ hw) (hto.left_le.trans_lt hn) hrest hr
  exact ⟨v, q', heq.trans hq', hm.before hto hheap⟩

theorem completesItems_last {s t t₁ t₂ r : Bytes} {j : Tree} (h₁ : Ws t t₁)
    (hstop : t₁.head?.any isWs = false) (hj : CompletesValue s t₁ t₂ j)
    (h₂ : Ws t₂ (byte ']' :: r)) : CompletesItems s t r [j] := by
  intro p m n k c hp hw hc hm hn hk hws
  obtain ⟨k, rfl⟩ : ∃ i, k = i + 1 := ⟨k - 1, by omega⟩
  obtain ⟨v, q, hq, hv⟩ := hj p m hp hw hm (hws.linear h₁ hstop) (h₂.endsNumber rfl)
  obtain ⟨q₁, hto, he, hheap, hrest, hturn⟩ := jsonArrayTurn_eq (c := c) hv.arrives.reaches
    hv.arrives.err hn hq (hv.arrives.rest ▸ h₂) (by decide)
  have hskip : q₁.Reaches (q₁.skip 1) := reaches_skip (by simp [hrest]) hto.inside
  have hpushed : Pushed c j p.heap (q₁.skip 1).heap v := by
    rw [skip_heap, hheap]
    exact hv.pushed hc
  exact ⟨q₁.skip 1, iterate_leave hturn k, hpushed.one ⟨hto.trans hskip, he, rest_skip_one hrest⟩⟩

theorem completesItems_next {s t t₁ t₂ t₃ r : Bytes} {j : Tree} {js : List Tree} (h₁ : Ws t t₁)
    (hstop : t₁.head?.any isWs = false) (hj : CompletesValue s t₁ t₂ j)
    (h₂ : Ws t₂ (byte ',' :: t₃)) (hjs : CompletesItems s t₃ r js) :
    CompletesItems s t r (j :: js) := by
  intro p m n k c hp hw hc hm hn hk hws
  obtain ⟨k, rfl⟩ : ∃ i, k = i + 1 := ⟨k - 1, by omega⟩
  obtain ⟨v, q, hq, hv⟩ := hj p m hp hw hm (hws.linear h₁ hstop) (h₂.endsNumber rfl)
  obtain ⟨q₁, hto, he, hheap, hrest, hturn⟩ := jsonArrayTurn_eq (c := c) hv.arrives.reaches
    hv.arrives.err hn hq (hv.arrives.rest ▸ h₂) (by decide)
  have hskip : q₁.Reaches (q₁.skip 1) := reaches_skip (by simp [hrest]) hto.inside
  have hto₁ := hto.trans hskip
  obtain ⟨q₂, hq₂, hs₂⟩ := exists_jsonSkipWs hto₁.inside (hto₁.left_le.trans_lt hn)
  have hto₂ := hto₁.trans hs₂.reaches
  have hlt := hto₂.left_lt (hto.forward.trans_lt hs₂.reaches.forward)
  have hpushed : Pushed c j p.heap q₂.heap v := by
    rw [hs₂.heap, skip_heap, hheap]
    exact hv.pushed hc
  have hgo : jsonArrayTurn (jsonParseValue m) n c p = .ok (.inl q₂) := by
    rw [hturn, if_pos rfl, hq₂]
    rfl
  obtain ⟨q₃, hq₃, hitems⟩ := hjs q₂ m n k c (hp.reach hto₂ (hs₂.err.trans he))
    (hpushed.grows.wf hw) (hpushed.grows.live _ hc) (by omega) (by omega) (by omega)
    (rest_skip_one hrest ▸ hs₂.ws)
  exact ⟨q₃, (iterate_again hgo k).trans hq₃, hpushed.cons hto₂ hc hitems⟩

theorem completesMembers_last {s t t₁ t₂ t₃ t₄ t₅ r k : Bytes} {j : Tree} (hs : s.length < 2 ^ 32)
    (h₁ : Ws t (quote :: t₁)) (hk : Chars lenient t₁ k t₂) (h₂ : Ws t₂ (byte ':' :: t₃))
    (h₃ : Ws t₃ t₄) (hstop : t₄.head?.any isWs = false) (hj : CompletesValue s t₄ t₅ j)
    (h₄ : Ws t₅ (byte '}' :: r)) : CompletesMembers s t r [(k, j)] := by
  intro p m n i c hp hw hc hm hn hi hws
  obtain ⟨i, rfl⟩ : ∃ k, i = k + 1 := ⟨i - 1, by omega⟩
  obtain ⟨q, v, hto, hlt, he, hput, hrest, hturn⟩ := jsonObjectTurn_eq hs hp hw hc hn
    (hws.linear h₁ rfl) hk h₂ h₄ (by decide) fun q hq hqw hlt hqws _ =>
      hj q m hq hqw (((hp.reaches hq hlt.le).left_lt hlt).trans hm) (hqws.linear h₃ hstop)
        (h₄.endsNumber rfl)
  have hskip : q.Reaches (q.skip 1) := reaches_skip (by simp [hrest]) hto.inside
  exact ⟨q.skip 1, iterate_leave hturn i,
    Put.one (q := q.skip 1) hput ⟨hto.trans hskip, he, rest_skip_one hrest⟩⟩

theorem completesMembers_next {s t t₁ t₂ t₃ t₄ t₅ t₆ r k : Bytes} {j : Tree}
    {ms : List (Bytes × Tree)} (hs : s.length < 2 ^ 32)
    (h₁ : Ws t (quote :: t₁)) (hk : Chars lenient t₁ k t₂) (h₂ : Ws t₂ (byte ':' :: t₃))
    (h₃ : Ws t₃ t₄) (hstop : t₄.head?.any isWs = false) (hj : CompletesValue s t₄ t₅ j)
    (h₄ : Ws t₅ (byte ',' :: t₆)) (hms : CompletesMembers s t₆ r ms) :
    CompletesMembers s t r ((k, j) :: ms) := by
  intro p m n i c hp hw hc hm hn hi hws
  obtain ⟨i, rfl⟩ : ∃ k, i = k + 1 := ⟨i - 1, by omega⟩
  obtain ⟨q, v, hto, hlt, he, hput, hrest, hturn⟩ := jsonObjectTurn_eq hs hp hw hc hn
    (hws.linear h₁ rfl) hk h₂ h₄ (by decide) fun q hq hqw hlt hqws _ =>
      hj q m hq hqw (((hp.reaches hq hlt.le).left_lt hlt).trans hm) (hqws.linear h₃ hstop)
        (h₄.endsNumber rfl)
  have hskip : q.Reaches (q.skip 1) := reaches_skip (by simp [hrest]) hto.inside
  have hto₁ := hto.trans hskip
  have hleft := hto₁.left_lt (hlt.trans (Nat.lt_succ_self _))
  obtain ⟨q₂, hq₂, hmembers⟩ := hms (q.skip 1) m n i c (hp.reach hto₁ he) (hput.grows.wf hw)
    (hput.grows.live _ hc) (by omega) (by omega) (by omega) (rest_skip_one hrest ▸ .none _)
  exact ⟨q₂, (iterate_again hturn i).trans hq₂, Put.cons (q := q.skip 1) hput hto₁ hc hmembers⟩

/-- An empty container, from behind its opening bracket. -/
theorem containerBody_close (turn : JsonParser → Outcome ContainerTurn) (v : AerVal)
    {close : UInt8} {r : Bytes} (hp : p.Reaches q) (he : q.err = none) (hn : p.left < n)
    (h : Ws q.rest (close :: r)) (hclose : isWs close = false) :
    ∃ s, (do
        let p ← jsonSkipWs n q
        if ← p.looksAt (· == close) then return (v, p.skip 1) else iterate turn n p) =
      Except.ok (v, s) ∧ Arrives p s r ∧ s.heap = q.heap := by
  obtain ⟨q₁, hq₁, hs, hrest⟩ := jsonSkipWs_complete hp.inside (hp.left_le.trans_lt hn) h hclose
  have hto := hp.trans hs.reaches
  refine ⟨q₁.skip 1, ?_,
    ⟨hto.trans (reaches_skip (by simp [hrest]) hto.inside), hs.err.trans he, rest_skip_one hrest⟩,
    hs.heap⟩
  simp only [hq₁, ok_bind, looksAt_eq, hrest, List.head?_cons, Option.any_some, beq_self_eq_true,
    ↓reduceIte]
  rfl

/-- A container that does not end at once. -/
theorem containerBody_loop (turn : JsonParser → Outcome ContainerTurn) (v : AerVal)
    (close : UInt8) {b : UInt8} {t u : Bytes} (hp : q.pos ≤ q.len) (hn : q.left < n) (hu : Ws u q.rest)
    (h : Ws u (b :: t)) (hb : isWs b = false) (hne : b ≠ close) :
    ∃ s, (do
        let p ← jsonSkipWs n q
        if ← p.looksAt (· == close) then return (v, p.skip 1) else iterate turn n p) =
      iterate turn n s ∧ Skipped q s := by
  obtain ⟨q₁, hq₁, hs, hrest⟩ := jsonSkipWs_complete hp hn (hu.linear h hb) hb
  refine ⟨q₁, ?_, hs⟩
  simp only [hq₁, ok_bind, looksAt_eq, hrest, List.head?_cons, Option.any_some,
    beq_eq_false_iff_ne.mpr hne, Bool.false_eq_true, ↓reduceIte]

section Containers
variable {s t r : Bytes} (hp : Within s p) (hw : p.heap.PoolsWf)
include hp hw

def emptyItems : AerArray := { items := [], capacity := 4, shape := none }

theorem jsonParseArray_empty {value : ValueParser} (hn : p.left < n) (hr : p.rest = byte '[' :: t)
    (h : Ws t (byte ']' :: r)) :
    ∃ v q, jsonParseArray value n p = .ok (v, q) ∧ MakesValue p (.array []) r v q := by
  have hskip : p.Reaches (p.skip 1) := reaches_skip (by simp [hr]) hp.inside
  have hrest := rest_skip_one hr
  have hf := hw.arrays.alloc_fresh emptyItems
  obtain ⟨q, hq, ha, hheap⟩ := containerBody_close (p := p) (n := n)
    (q := { p.skip 1 with heap := (p.heap.newArray emptyItems).2 })
    (jsonArrayTurn value n (p.heap.arrays.alloc emptyItems).1)
    (.array (p.heap.arrays.alloc emptyItems).1)
    ⟨hskip.text, hskip.forward, hskip.inside⟩ hp.err hn (hrest.symm ▸ h) (by decide)
  have hdata : q.heap.arrays.data (p.heap.arrays.alloc emptyItems).1 = emptyItems := by
    rw [hheap]
    exact hf.data_self
  refine ⟨_, q, hq, ha, hheap ▸ grows_newArray hw _, .array hf.fresh ?_ ?_ ?_ ?_⟩
  · rw [hheap]
    exact (hf.live _).mpr (.inl rfl)
  · rw [hdata]
    rfl
  · rw [hdata]
    rfl
  · rw [hdata]
    simp [emptyItems]

theorem jsonParseArray_items {m : Nat} {js : List Tree} {b : UInt8} {u : Bytes} (hm : p.left ≤ m)
    (hn : p.left < n) (hr : p.rest = byte '[' :: t) (hu : Ws t (b :: u)) (hb : isWs b = false)
    (hne : b ≠ byte ']') (h : CompletesItems s t r js) :
    ∃ v q, jsonParseArray (jsonParseValue m) n p = .ok (v, q) ∧ MakesValue p (.array js) r v q := by
  have hskip : p.Reaches (p.skip 1) := reaches_skip (by simp [hr]) hp.inside
  have hrest := rest_skip_one hr
  have hf := hw.arrays.alloc_fresh emptyItems
  have hg := grows_newArray hw emptyItems
  obtain ⟨q, hq, hs⟩ := containerBody_loop (n := n)
    (q := { p.skip 1 with heap := (p.heap.newArray emptyItems).2 })
    (jsonArrayTurn (jsonParseValue m) n (p.heap.arrays.alloc emptyItems).1)
    (.array (p.heap.arrays.alloc emptyItems).1) (byte ']')
    hskip.inside (hskip.left_le.trans_lt hn) (hrest.symm ▸ .none t) hu hb hne
  have hto : p.Reaches q :=
    hskip.trans ⟨hs.reaches.text, hs.reaches.forward, hs.reaches.inside⟩
  have hlt := hto.left_lt ((Nat.lt_succ_self _).trans_le hs.reaches.forward)
  have hheap : q.heap = (p.heap.newArray emptyItems).2 := hs.heap
  have hlive : q.heap.Live (.array (p.heap.arrays.alloc emptyItems).1) := by
    rw [hheap]
    exact (hf.live _).mpr (.inl rfl)
  have hdata : q.heap.arrays.data (p.heap.arrays.alloc emptyItems).1 = emptyItems := by
    rw [hheap]
    exact hf.data_self
  have hgq : Grows p.heap q.heap := hheap ▸ hg
  have hws : Ws t q.rest := by
    have : Ws (p.skip 1).rest q.rest := hs.ws
    rwa [hrest] at this
  obtain ⟨q', hq', hitems⟩ := h q m n n _ (hp.reach hto (hs.err.trans hp.err)) (hgq.wf hw) hlive
    (hlt.trans_le hm) (hlt.trans hn) (hlt.trans hn) hws
  obtain ⟨vs, hlen, hden, hcells, hshape⟩ := hitems.items
  rw [hdata] at hcells hshape
  refine ⟨_, q', hq.trans hq', ⟨hto.trans hitems.arrives.reaches, hitems.arrives.err,
    hitems.arrives.rest⟩, hgq.written (n := .array _) hf.fresh hitems.grows,
    .array hf.fresh (hitems.grows.live _ hlive) hshape ?_ ?_⟩
  · rw [hcells]
    exact hlen
  · rw [hcells]
    exact fun v j hvj => (hden v j hvj).mono hgq.live

theorem jsonParseObject_empty {value : ValueParser} (hn : p.left < n)
    (hr : p.rest = byte '{' :: t) (h : Ws t (byte '}' :: r)) :
    ∃ v q, jsonParseObject value n p = .ok (v, q) ∧ MakesValue p (.object []) r v q := by
  have hskip : p.Reaches (p.skip 1) := reaches_skip (by simp [hr]) hp.inside
  have hrest := rest_skip_one hr
  have hf := hw.dicts.alloc_fresh HashTable.empty
  obtain ⟨q, hq, ha, hheap⟩ := containerBody_close (p := p) (n := n)
    (q := { p.skip 1 with heap := (p.heap.newDict HashTable.empty).2 })
    (jsonObjectTurn value n (p.heap.dicts.alloc HashTable.empty).1)
    (.dict (p.heap.dicts.alloc HashTable.empty).1)
    ⟨hskip.text, hskip.forward, hskip.inside⟩ hp.err hn (hrest.symm ▸ h) (by decide)
  refine ⟨_, q, hq, ha, hheap ▸ grows_newDict hw _,
    .dict hf.fresh ?_ (List.length_nil : ([] : List AerVal).length = 0) ?_ (by simp)⟩
  · rw [hheap]
    exact (hf.live _).mpr (.inl rfl)
  · rw [hheap]
    exact hf.data_self

theorem jsonParseObject_members {m : Nat} {ms : List (Bytes × Tree)} {u : Bytes} (hm : p.left ≤ m)
    (hn : p.left < n) (hr : p.rest = byte '{' :: t) (hu : Ws t (quote :: u))
    (h : CompletesMembers s t r ms) :
    ∃ v q, jsonParseObject (jsonParseValue m) n p = .ok (v, q) ∧
      MakesValue p (.object ms) r v q := by
  have hskip : p.Reaches (p.skip 1) := reaches_skip (by simp [hr]) hp.inside
  have hrest := rest_skip_one hr
  have hf := hw.dicts.alloc_fresh HashTable.empty
  have hg := grows_newDict hw HashTable.empty
  obtain ⟨q, hq, hs⟩ := containerBody_loop (n := n)
    (q := { p.skip 1 with heap := (p.heap.newDict HashTable.empty).2 })
    (jsonObjectTurn (jsonParseValue m) n (p.heap.dicts.alloc HashTable.empty).1)
    (.dict (p.heap.dicts.alloc HashTable.empty).1) (byte '}')
    hskip.inside (hskip.left_le.trans_lt hn) (hrest.symm ▸ .none t) hu (by decide) (by decide)
  have hto : p.Reaches q :=
    hskip.trans ⟨hs.reaches.text, hs.reaches.forward, hs.reaches.inside⟩
  have hlt := hto.left_lt ((Nat.lt_succ_self _).trans_le hs.reaches.forward)
  have hheap : q.heap = (p.heap.newDict HashTable.empty).2 := hs.heap
  have hlive : q.heap.Live (.dict (p.heap.dicts.alloc HashTable.empty).1) := by
    rw [hheap]
    exact (hf.live _).mpr (.inl rfl)
  have hdata : q.heap.dicts.data (p.heap.dicts.alloc HashTable.empty).1 = HashTable.empty := by
    rw [hheap]
    exact hf.data_self
  have hgq : Grows p.heap q.heap := hheap ▸ hg
  have hws : Ws t q.rest := by
    have : Ws (p.skip 1).rest q.rest := hs.ws
    rwa [hrest] at this
  obtain ⟨q', hq', hmembers⟩ := h q m n n _ (hp.reach hto (hs.err.trans hp.err)) (hgq.wf hw) hlive
    (hlt.trans_le hm) (hlt.trans hn) (hlt.trans hn) hws
  obtain ⟨vs, hlen, hden, hput⟩ := hmembers.members
  rw [hdata] at hput
  exact ⟨_, q', hq.trans hq', ⟨hto.trans hmembers.arrives.reaches, hmembers.arrives.err,
    hmembers.arrives.rest⟩, hgq.written (n := .dict _) hf.fresh hmembers.grows,
    .dict hf.fresh (hmembers.grows.live _ hlive) hlen hput
      fun v m hvm => (hden v m hvm).mono hgq.live⟩

end Containers

theorem completesValue_literal {s r u : Bytes} {b : UInt8} {v : AerVal} {j : Tree} {lit : Bytes}
    (hlit : lit = b :: u) (hb : isWs b = false) (hd : ∀ h : Heap, Denotes h.Live h v j)
    (hat : ∀ value n p, jsonParseAt value n b p = jsonLiteral p lit v) :
    CompletesValue s (lit ++ r) r j := by
  subst hlit
  refine completesValue_at hb fun p n hp _ _ hr _ => ?_
  rw [hat]
  exact makesValue_literal (l := b :: u) hp hr (hd _)

theorem items_head {d : Dialect} {js : List Tree} {t r : Bytes}
    (h : Derives d (.items js) t r) : ∃ b u, Ws t (b :: u) ∧ isWs b = false ∧ b ≠ byte ']' := by
  cases h with
  | lastItem h₁ hj _ | nextItem h₁ hj _ _ =>
    obtain ⟨b, u, rfl, hb, hne⟩ := value_head hj
    exact ⟨b, u, h₁, hb, hne⟩

theorem members_head {d : Dialect} {ms : List (Bytes × Tree)} {t r : Bytes}
    (h : Derives d (.members ms) t r) : ∃ u, Ws t (quote :: u) := by
  cases h with
  | lastMember h₁ _ _ _ _ _ | nextMember h₁ _ _ _ _ _ _ => exact ⟨_, h₁⟩

/-- Everything the dialect derives is read. -/
theorem completes_of_derives {s t r : Bytes} {x : Phrase} (h : Derives lenient x t r)
    (hs : s.length < 2 ^ 32) : Completes s t r x := by
  induction h with
  | null r => exact completesValue_literal rfl (by decide) (fun _ => .null) fun _ _ _ => rfl
  | true r => exact completesValue_literal rfl (by decide) (fun _ => .boolean _) fun _ _ _ => rfl
  | false r => exact completesValue_literal rfl (by decide) (fun _ => .boolean _) fun _ _ _ => rfl
  | integer hl hn r =>
    obtain ⟨b, u, h, hb⟩ := hl.starts r
    cases hn
    simp only [Completes, h]
    refine completesValue_at hb.isWs fun p n hp hw hleft hr hend => ?_
    rw [jsonParseAt_number hb]
    exact jsonParseNumber_integer hp hw hleft hl (hr.trans h.symm) hend
  | real hl r =>
    obtain ⟨b, u, h, hb⟩ := hl.starts r
    simp only [Completes, h]
    refine completesValue_at hb.isWs fun p n hp hw hleft hr hend => ?_
    rw [jsonParseAt_number hb]
    exact jsonParseNumber_real hp hleft hl (hr.trans h.symm) hend
  | string hm =>
    refine completesValue_at (by decide) fun p n hp hw hleft hr _ => ?_
    obtain ⟨q, hq, ha, hheap⟩ := jsonParseStringRaw_complete hs hp hr hm hleft.le
    exact ⟨_, q, hq, ha, hheap ▸ grows_aerMakeString hw _, hheap ▸ denotes_string hw _⟩
  | emptyArray h =>
    exact completesValue_at (by decide) fun p n hp hw hleft hr _ => jsonParseArray_empty hp hw hleft hr h
  | array hjs ih =>
    obtain ⟨b, u, hu, hb, hne⟩ := items_head hjs
    exact completesValue_at (by decide) fun p n hp hw hleft hr _ =>
      jsonParseArray_items hp hw (by omega) hleft hr hu hb hne ih
  | emptyObject h =>
    exact completesValue_at (by decide) fun p n hp hw hleft hr _ => jsonParseObject_empty hp hw hleft hr h
  | object hms ih =>
    obtain ⟨u, hu⟩ := members_head hms
    exact completesValue_at (by decide) fun p n hp hw hleft hr _ =>
      jsonParseObject_members hp hw (by omega) hleft hr hu ih
  | lastItem h₁ hj h₂ ih => exact completesItems_last h₁ (value_stop hj) ih h₂
  | nextItem h₁ hj h₂ _ ih ihs => exact completesItems_next h₁ (value_stop hj) ih h₂ ihs
  | lastMember h₁ hk h₂ h₃ hj h₄ ih =>
    exact completesMembers_last hs h₁ hk h₂ h₃ (value_stop hj) ih h₄
  | nextMember h₁ hk h₂ h₃ hj h₄ _ ih ihs =>
    exact completesMembers_next hs h₁ hk h₂ h₃ (value_stop hj) ih h₄ ihs

/-- A text of the dialect is decoded to what it denotes, in cells of its own. -/
theorem Text.decodes {s : Bytes} {j : Tree} (h : Text lenient s j) (hs : s.length < 2 ^ 32)
    {heap : Heap} (hw : heap.PoolsWf) (hn : s.length < n) :
    ∃ v p, jsonDecode n heap s = .ok (v, p) ∧ p.err = none ∧ p.pos = s.length ∧
      Grows heap p.heap ∧ Denotes heap.Live p.heap v j := by
  obtain ⟨t, r, ht, hj, hr⟩ := h
  have hend : EndsNumber r := hr.endsNumber rfl
  obtain ⟨v, q, hq, hm⟩ := completes_of_derives hj hs { s, pos := 0, err := none, heap } n
    ⟨rfl, Nat.zero_le _, rfl⟩ hw hn ht hend
  have hto := hm.arrives.reaches
  obtain ⟨q₁, hq₁, hs₁, hrest⟩ := jsonSkipWs_complete hto.inside (hto.left_le.trans_lt hn)
    (hm.arrives.rest ▸ hr) rfl
  have hto₁ := hto.trans hs₁.reaches
  have hlen : q₁.len = s.length := hto₁.len_eq
  have hpos : q₁.pos = q₁.len := le_antisymm hto₁.inside (rest_eq_nil_iff.mp hrest)
  refine ⟨v, q₁, ?_, hs₁.err.trans hm.arrives.err, hpos.trans hlen, hs₁.heap ▸ hm.grows,
    hs₁.heap ▸ hm.denotes⟩
  have herr : q₁.err = none := hs₁.err.trans hm.arrives.err
  simp only [jsonDecode, hq, ok_bind, hm.arrives.err, Option.isNone_none, ↓reduceIte, hq₁, hpos,
    ne_eq, not_true_eq_false]
  change Except.ok (if q₁.err.isSome then AerVal.null else v, q₁) = _
  rw [herr]
  rfl

end Aer.Json
