import Aer.Json.Accepts

set_option linter.all false

/-! The decoder on any text: it stays within it, moves forward at every turn of a loop
and before every recursive call, and ends with the whole text read or with an error. -/
namespace Aer.Json

open Aer.Data Aer.Memory Aer.Lib.Scan JsonParser

variable {p : JsonParser} {n : Nat}

/-! Blanks. -/

theorem ws_dropWhile (t : Bytes) : Ws t (t.dropWhile isJsonSpace) := by
  induction t with
  | nil => exact .none _
  | cons b t ih =>
    cases hb : isJsonSpace b with
    | false =>
      rw [List.dropWhile_cons_of_neg (by simp [hb])]
      exact .none _
    | true =>
      rw [List.dropWhile_cons_of_pos hb]
      exact .more (isJsonSpace_eq b ▸ hb) ih

/-- `q` is `p` after the blanks there. -/
structure Skipped (p q : JsonParser) : Prop where
  reaches : p.Reaches q
  err : q.err = p.err
  heap : q.heap = p.heap
  ws : Ws p.rest q.rest
  stop : q.rest.head?.any isWs = false

theorem exists_jsonSkipWs (hp : p.pos ≤ p.len) (hn : p.left < n) :
    ∃ q, jsonSkipWs n p = .ok q ∧ Skipped p q := by
  refine ⟨_, skipWhile_eq isJsonSpace hn, reaches_skipWhile _ hp, rfl, rfl, ?_, ?_⟩
  · rw [rest_skipWhile]
    exact ws_dropWhile _
  · rw [rest_skipWhile]
    have hhead := List.head?_dropWhile_not isJsonSpace p.rest
    cases h : (p.rest.dropWhile isJsonSpace).head? with
    | none => rfl
    | some b =>
      rw [h] at hhead
      simpa [isJsonSpace_eq] using hhead

/-! Containers. -/

def ReadsValue (t r : Bytes) : Prop := ∃ j u, Ws t u ∧ Value lenient j u r

def ReadsItems (t r : Bytes) : Prop := ∃ js, Derives lenient (.items js) t r

def ReadsMembers (t r : Bytes) : Prop := ∃ ms, Derives lenient (.members ms) t r

theorem ReadsItems.blanks {t u r : Bytes} (h : Ws t u) (hu : ReadsItems u r) : ReadsItems t r := by
  obtain ⟨js, hjs⟩ := hu
  refine ⟨js, ?_⟩
  cases hjs with
  | lastItem h₁ hj h₂ => exact .lastItem (h.trans h₁) hj h₂
  | nextItem h₁ hj h₂ hjs => exact .nextItem (h.trans h₁) hj h₂ hjs

theorem ReadsMembers.blanks {t u r : Bytes} (h : Ws t u) (hu : ReadsMembers u r) :
    ReadsMembers t r := by
  obtain ⟨ms, hms⟩ := hu
  refine ⟨ms, ?_⟩
  cases hms with
  | lastMember h₁ hk h₂ h₃ hj h₄ => exact .lastMember (h.trans h₁) hk h₂ h₃ hj h₄
  | nextMember h₁ hk h₂ h₃ hj h₄ hms => exact .nextMember (h.trans h₁) hk h₂ h₃ hj h₄ hms

/-- A turn of the loop of a container, begun at `p`. -/
def ContainerStep (P : Bytes → Bytes → Prop) (s : Bytes) (p : JsonParser) : ContainerTurn → Prop :=
  Sum.elim
    (fun q => (Within s q ∧ p.pos < q.pos) ∧ q.left < p.left ∧
      ∀ y, Parsed P q y → Parsed P p y)
    (Parsed P p)

theorem ContainerStep.again {P : Bytes → Bytes → Prop} {s : Bytes} {q : JsonParser}
    (hp : Within s p) (hq : p.Reaches q) (he : q.err = none) (hlt : p.pos < q.pos)
    (hr : ∀ r, P q.rest r → P p.rest r) : ContainerStep P s p (.inl q) :=
  ⟨⟨hp.reach hq he, hlt⟩, hq.left_lt hlt, fun _ hy => hy.after hq hr⟩

theorem rest_of_any {test : UInt8 → Bool} (h : p.rest.head?.any test = true) :
    ∃ b t, p.rest = b :: t ∧ test b = true := by
  cases hr : p.rest with
  | nil => simp [hr] at h
  | cons b t => exact ⟨b, t, rfl, by simpa [hr] using h⟩

section Turns
variable {s : Bytes} {value : ValueParser} {c : Nat}

theorem sat_jsonArrayTurn (hp : Within s p) (hn : p.left < n)
    (hvalue : Sat (Parsed ReadsValue p) (NearLimit s) (value p)) :
    Sat (ContainerStep ReadsItems s p) (NearLimit s) (jsonArrayTurn value n c p) := by
  unfold jsonArrayTurn
  refine hvalue.bind fun ⟨v, q⟩ ⟨hq, hres⟩ => ?_
  dsimp only at hq hres ⊢
  rcases hres with ⟨he, -⟩ | ⟨he, j, u, hu, hj⟩
  · rw [if_pos he]
    exact Parsed.failed hq he
  rw [if_neg (by simp [he])]
  obtain ⟨q₁, hq₁, hs₁⟩ :=
    exists_jsonSkipWs (p := q.pushItem c v) hq.inside (hq.left_le.trans_lt hn)
  rw [hq₁, ok_bind]
  have hto : p.Reaches q₁ := hq.trans ⟨hs₁.reaches.text, hs₁.reaches.forward, hs₁.reaches.inside⟩
  have he₁ : q₁.err = none := hs₁.err.trans he
  have hws : Ws q.rest q₁.rest := hs₁.ws
  split
  · exact Parsed.fail hto _
  rename_i hlt
  obtain ⟨ch, t, ht⟩ := rest_ne_nil (not_le.mp hlt)
  have hskip : q₁.Reaches (q₁.skip 1) := reaches_skip (by simp [ht]) hto.inside
  rw [read_of_rest ht, ok_bind]
  split
  · rename_i hch
    obtain ⟨q₂, hq₂, hs₂⟩ := exists_jsonSkipWs hskip.inside ((hto.trans hskip).left_le.trans_lt hn)
    rw [hq₂]
    refine ContainerStep.again hp (hto.trans (hskip.trans hs₂.reaches)) (hs₂.err.trans he₁)
      (hto.forward.trans_lt hs₂.reaches.forward) fun r hr => ?_
    obtain ⟨js, hjs⟩ := hr.blanks hs₂.ws
    rw [rest_skip_one ht] at hjs
    exact ⟨j :: js, .nextItem hu hj (hch ▸ ht ▸ hws) hjs⟩
  · split
    · rename_i hch
      refine Parsed.done (hto.trans hskip) he₁ ⟨[j], .lastItem hu hj ?_⟩
      rw [rest_skip_one ht, ← hch, ← ht]
      exact hws
    · exact Parsed.fail hto _

theorem sat_jsonObjectTurn (hp : Within s p) (hn : p.left < n)
    (hvalue : ∀ q, Within s q → p.pos < q.pos →
      Sat (Parsed ReadsValue q) (NearLimit s) (value q)) :
    Sat (ContainerStep ReadsMembers s p) (NearLimit s) (jsonObjectTurn value n c p) := by
  unfold jsonObjectTurn
  obtain ⟨q₀, hq₀, hs₀⟩ := exists_jsonSkipWs hp.inside hn
  have hto₀ := hs₀.reaches
  have hw₀ := hp.reach hto₀ (hs₀.err.trans hp.err)
  rw [hq₀, ok_bind, looksAt_eq, ok_bind]
  cases hquote : q₀.rest.head?.any (· == byte '"') with
  | false => exact Parsed.fail hto₀ _
  | true =>
  obtain ⟨b, t₀, ht₀, hb⟩ := rest_of_any hquote
  obtain rfl : b = quote := eq_of_beq hb
  simp only [Bool.not_true, Bool.false_eq_true, ↓reduceIte]
  -- The key.
  refine (sat_jsonParseStringRaw hw₀ ht₀ (hto₀.left_le.trans hn.le)).bind fun ⟨key, q₁⟩ ⟨hq₁, hres⟩ => ?_
  dsimp only at hq₁ hres ⊢
  have hto₁ := hto₀.trans hq₁
  rcases hres with ⟨he, -⟩ | ⟨he₁, k, t₁, ht₁, hk⟩
  · rw [if_pos he]
    exact Parsed.failed hto₁ he
  rw [if_neg (by simp [he₁])]
  obtain ⟨q₂, hq₂, hs₂⟩ := exists_jsonSkipWs hto₁.inside (hto₁.left_le.trans_lt hn)
  have hto₂ := hto₁.trans hs₂.reaches
  rw [hq₂, ok_bind, looksAt_eq, ok_bind]
  cases hcolon : q₂.rest.head?.any (· == byte ':') with
  | false => exact Parsed.fail hto₂ _
  | true =>
  obtain ⟨b, t₂, ht₂, hb⟩ := rest_of_any hcolon
  obtain rfl : b = byte ':' := eq_of_beq hb
  simp only [Bool.not_true, Bool.false_eq_true, ↓reduceIte]
  have hskip₂ : q₂.Reaches (q₂.skip 1) := reaches_skip (by simp [ht₂]) hto₂.inside
  obtain ⟨q₃, hq₃, hs₃⟩ :=
    exists_jsonSkipWs hskip₂.inside ((hto₂.trans hskip₂).left_le.trans_lt hn)
  have hto₃ := hto₂.trans (hskip₂.trans hs₃.reaches)
  have hlt₃ : p.pos < q₃.pos := hto₂.forward.trans_lt hs₃.reaches.forward
  have he₃ : q₃.err = none := hs₃.err.trans (hs₂.err.trans he₁)
  rw [hq₃, ok_bind]
  -- The value.
  refine (hvalue q₃ (hp.reach hto₃ he₃) hlt₃).bind fun ⟨v, q₄⟩ ⟨hq₄, hres⟩ => ?_
  dsimp only at hq₄ hres ⊢
  have hto₄ := hto₃.trans hq₄
  rcases hres with ⟨he, -⟩ | ⟨he₄, j, u, hu, hj⟩
  · rw [if_pos he]
    exact Parsed.failed hto₄ he
  rw [if_neg (by simp [he₄])]
  obtain ⟨q₅, hq₅, hs₅⟩ := exists_jsonSkipWs (p := q₄.putMember c (q₄.stringBytes key) v)
    hto₄.inside (hto₄.left_le.trans_lt hn)
  have hto₅ : p.Reaches q₅ :=
    hto₄.trans ⟨hs₅.reaches.text, hs₅.reaches.forward, hs₅.reaches.inside⟩
  have he₅ : q₅.err = none := hs₅.err.trans he₄
  have hws : Ws q₄.rest q₅.rest := hs₅.ws
  have hwsv : Ws t₂ u := (rest_skip_one ht₂ ▸ hs₃.ws).trans hu
  rw [hq₅, ok_bind]
  split
  · exact Parsed.fail hto₅ _
  rename_i hlt
  obtain ⟨ch, t, ht⟩ := rest_ne_nil (not_le.mp hlt)
  have hskip : q₅.Reaches (q₅.skip 1) := reaches_skip (by simp [ht]) hto₅.inside
  rw [read_of_rest ht, ok_bind]
  split
  · rename_i hch
    refine ContainerStep.again hp (hto₅.trans hskip) he₅
      (hto₅.forward.trans_lt (Nat.lt_succ_self _)) fun r hr => ?_
    obtain ⟨ms, hms⟩ := hr
    rw [rest_skip_one ht] at hms
    exact ⟨(k, j) :: ms, .nextMember (ht₁ ▸ hs₀.ws) hk (ht₂ ▸ hs₂.ws) hwsv hj (hch ▸ ht ▸ hws) hms⟩
  · split
    · rename_i hch
      refine Parsed.done (hto₅.trans hskip) he₅
        ⟨[(k, j)], .lastMember (ht₁ ▸ hs₀.ws) hk (ht₂ ▸ hs₂.ws) hwsv hj ?_⟩
      rw [rest_skip_one ht, ← hch, ← ht]
      exact hws
    · exact Parsed.fail hto₅ _

/-- The loop of a container. -/
theorem sat_containerLoop {P : Bytes → Bytes → Prop} {turn : JsonParser → Outcome ContainerTurn}
    {p₀ : JsonParser} (hturn : ∀ p, Within s p → p₀.pos < p.pos → p.left ≤ p₀.left →
      Sat (ContainerStep P s p) (NearLimit s) (turn p))
    (hp : Within s p) (hlt : p₀.pos < p.pos) (hle : p.left ≤ p₀.left) (hn : p.left < n) :
    Sat (Parsed P p) (NearLimit s) (iterate turn n p) := by
  refine Sat.iterate (I := fun p => Within s p ∧ p₀.pos < p.pos ∧ p.left ≤ p₀.left)
    (Q := fun p => Parsed P p) left (fun p ⟨hp, hlt, hle⟩ => ?_) ⟨hp, hlt, hle⟩ hn
  refine (hturn p hp hlt hle).mono fun x hx => ?_
  cases x with
  | inr y => exact hx
  | inl q =>
    obtain ⟨⟨hq, hpos⟩, hleft, hr⟩ := hx
    exact ⟨⟨hq, hlt.trans hpos, hleft.le.trans hle⟩, hleft, hr⟩

/-- A container from the byte after its opening bracket on. -/
theorem sat_containerBody {P R : Bytes → Bytes → Prop} {turn : JsonParser → Outcome ContainerTurn}
    {q : JsonParser} {v : AerVal} {close : UInt8} (hp : Within s p) (hn : p.left < n)
    (hq : p.Reaches q) (he : q.err = none) (hlt : p.pos < q.pos)
    (hturn : ∀ r, Within s r → p.pos < r.pos → r.left ≤ p.left →
      Sat (ContainerStep P s r) (NearLimit s) (turn r))
    (hempty : ∀ r, Ws q.rest (close :: r) → R p.rest r)
    (hfull : ∀ t r, Ws q.rest t → P t r → R p.rest r) :
    Sat (Parsed R p) (NearLimit s) (do
      let p ← jsonSkipWs n q
      if ← p.looksAt (· == close) then return (v, p.skip 1) else iterate turn n p) := by
  obtain ⟨q₁, hq₁, hs₁⟩ := exists_jsonSkipWs hq.inside (hq.left_le.trans_lt hn)
  have hto := hq.trans hs₁.reaches
  have he₁ := hs₁.err.trans he
  rw [hq₁, ok_bind, looksAt_eq, ok_bind]
  cases hclose : q₁.rest.head?.any (· == close) with
  | true =>
    obtain ⟨b, u, hu, hb⟩ := rest_of_any hclose
    obtain rfl : b = close := eq_of_beq hb
    refine Parsed.done (hto.trans (reaches_skip (by simp [hu]) hto.inside)) he₁ ?_
    rw [rest_skip_one hu]
    exact hempty u (hu ▸ hs₁.ws)
  | false =>
    simp only [Bool.false_eq_true, ↓reduceIte]
    exact (sat_containerLoop hturn (hp.reach hto he₁) (hlt.trans_le hs₁.reaches.forward)
      hto.left_le (hto.left_le.trans_lt hn)).mono fun y hy => hy.after hto (hfull _ · hs₁.ws)

variable (hvalue : ∀ q, Within s q → p.pos < q.pos →
  Sat (Parsed ReadsValue q) (NearLimit s) (value q))
include hvalue

theorem sat_jsonParseArray (hp : Within s p) (hn : p.left < n) {t : Bytes}
    (ht : p.rest = byte '[' :: t) :
    Sat (Parsed (fun t r => ∃ j, Value lenient j t r) p) (NearLimit s)
      (jsonParseArray value n p) := by
  have hskip : p.Reaches (p.skip 1) := reaches_skip (by simp [ht]) hp.inside
  have hrest := rest_skip_one ht
  unfold jsonParseArray
  extract_lets empty c p₁ q
  have hqrest : q.rest = t := hrest
  refine sat_containerBody hp hn ⟨hskip.text, hskip.forward, hskip.inside⟩ hp.err
    (Nat.lt_succ_self _) (fun r hr hlt hle => sat_jsonArrayTurn hr (hle.trans_lt hn) (hvalue r hr hlt))
    (fun r hr => ⟨.array [], ?_⟩) fun u r hu hr => ?_
  · exact ht ▸ .emptyArray (hqrest ▸ hr)
  · obtain ⟨js, hjs⟩ := hr.blanks (hqrest ▸ hu)
    exact ⟨.array js, ht ▸ .array hjs⟩

theorem sat_jsonParseObject (hp : Within s p) (hn : p.left < n) {t : Bytes}
    (ht : p.rest = byte '{' :: t) :
    Sat (Parsed (fun t r => ∃ j, Value lenient j t r) p) (NearLimit s)
      (jsonParseObject value n p) := by
  have hskip : p.Reaches (p.skip 1) := reaches_skip (by simp [ht]) hp.inside
  have hrest := rest_skip_one ht
  unfold jsonParseObject
  extract_lets c p₁ q
  have hqrest : q.rest = t := hrest
  refine sat_containerBody hp hn ⟨hskip.text, hskip.forward, hskip.inside⟩ hp.err
    (Nat.lt_succ_self _)
    (fun r hr hlt hle => sat_jsonObjectTurn hr (hle.trans_lt hn) fun q hq h => hvalue q hq (hlt.trans h))
    (fun r hr => ⟨.object [], ?_⟩) fun u r hu hr => ?_
  · exact ht ▸ .emptyObject (hqrest ▸ hr)
  · obtain ⟨ms, hms⟩ := hr.blanks (hqrest ▸ hu)
    exact ⟨.object ms, ht ▸ .object hms⟩

end Turns

/-! Values. -/

section Values
variable {s : Bytes}

theorem sat_jsonLiteral {E : Prop} (hp : Within s p) (lit : Bytes) {v : AerVal} {j : Tree}
    (hj : ∀ r, Value lenient j (lit ++ r) r) :
    Sat (Parsed (fun t r => ∃ j, Value lenient j t r) p) E (jsonLiteral p lit v) := by
  unfold jsonLiteral jsonMatchLiteral
  split
  · exact Parsed.fail (.refl hp.inside) _
  · rename_i hlen
    have hsplit := List.take_append_drop lit.length p.rest
    have hsize : (p.rest.take lit.length).length = lit.length := by
      have := hp.inside
      rw [List.length_take, length_rest, left]
      omega
    have hread := readMany_of_rest hsplit.symm hp.inside
    rw [hsize] at hread
    rw [hread, ok_bind]
    split
    · rename_i hmatch
      obtain ⟨u, hu⟩ : ∃ u, p.rest = lit ++ u := 
        ⟨p.rest.drop lit.length, hsplit.symm.trans (by rw [hmatch])⟩
      refine Parsed.done (reaches_skip (by simp [hu]) hp.inside) hp.err ⟨j, ?_⟩
      rw [rest_skip_of_append hu, hu]
      exact hj u
    · exact Parsed.fail (.refl hp.inside) _

theorem sat_jsonParseValueWith {value : ValueParser} (hp : Within s p) (hn : p.left < n)
    (hvalue : ∀ q, Within s q → p.pos < q.pos →
      Sat (Parsed ReadsValue q) (NearLimit s) (value q)) :
    Sat (Parsed ReadsValue p) (NearLimit s) (jsonParseValueWith value n p) := by
  unfold jsonParseValueWith
  obtain ⟨q, hq, hs⟩ := exists_jsonSkipWs hp.inside hn
  have hw := hp.reach hs.reaches (hs.err.trans hp.err)
  have hnq := hs.reaches.left_le.trans_lt hn
  rw [hq, ok_bind]
  split
  · exact Parsed.fail hs.reaches _
  rename_i hlt
  obtain ⟨ch, t, ht⟩ := rest_ne_nil (not_le.mp hlt)
  rw [read_of_rest ht, ok_bind]
  have hrec : ∀ r, Within s r → q.pos < r.pos → Sat (Parsed ReadsValue r) (NearLimit s) (value r) :=
    fun r hr h => hvalue r hr (hs.reaches.forward.trans_lt h)
  suffices h : Sat (Parsed (fun t r => ∃ j, Value lenient j t r) q) (NearLimit s) _ from
    h.mono fun y hy => hy.after hs.reaches fun r ⟨j, hj⟩ => ⟨j, _, hs.ws, hj⟩
  unfold jsonParseAt
  split_ifs with h₁ h₂ h₃ h₄ h₅ h₆ h₇
  · refine (sat_jsonParseStringRaw hw (h₁ ▸ ht) hnq.le).mono fun y hy => hy.after (.refl hw.inside) ?_
    rintro r ⟨m, u, hu, hm⟩
    exact ⟨.string m, hu ▸ .string hm⟩
  · exact sat_jsonParseObject hrec hw hnq (h₂ ▸ ht)
  · exact sat_jsonParseArray hrec hw hnq (h₃ ▸ ht)
  · exact sat_jsonLiteral hw _ (.true ·)
  · exact sat_jsonLiteral hw _ (.false ·)
  · exact sat_jsonLiteral hw _ (.null ·)
  · exact sat_jsonParseNumber hw hnq
  · exact Parsed.fail (.refl hw.inside) _

theorem sat_jsonParseValue (hp : Within s p) (hn : p.left < n) :
    Sat (Parsed ReadsValue p) (NearLimit s) (jsonParseValue n p) := by
  induction n generalizing p with
  | zero => exact absurd hn (Nat.not_lt_zero _)
  | succ n ih =>
    refine sat_jsonParseValueWith hp hn fun q hq hlt => ih hq ?_
    have := (hp.reaches hq hlt.le).left_lt hlt
    omega

end Values

/-! Recursive calls. -/

section Calls
variable {s : Bytes} {value value' : ValueParser} {c : Nat}

theorem jsonArrayTurn_congr (h : value p = value' p) :
    jsonArrayTurn value n c p = jsonArrayTurn value' n c p := by
  unfold jsonArrayTurn
  rw [h]

theorem jsonObjectTurn_congr (hp : Within s p) (hn : p.left < n)
    (h : ∀ q, Within s q → p.pos < q.pos → value q = value' q) :
    jsonObjectTurn value n c p = jsonObjectTurn value' n c p := by
  unfold jsonObjectTurn
  obtain ⟨q₀, hq₀, hs₀⟩ := exists_jsonSkipWs hp.inside hn
  have hto₀ := hs₀.reaches
  have hw₀ := hp.reach hto₀ (hs₀.err.trans hp.err)
  rw [hq₀, ok_bind, ok_bind, looksAt_eq, ok_bind, ok_bind]
  cases hquote : q₀.rest.head?.any (· == byte '"') with
  | false => rfl
  | true =>
  obtain ⟨b, t₀, ht₀, hb⟩ := rest_of_any hquote
  obtain rfl : b = quote := eq_of_beq hb
  simp only [Bool.not_true, Bool.false_eq_true, ↓reduceIte]
  refine (sat_jsonParseStringRaw hw₀ ht₀ (hto₀.left_le.trans hn.le)).bind_congr
    fun ⟨key, q₁⟩ ⟨hq₁, hres⟩ => ?_
  dsimp only at hq₁ hres ⊢
  have hto₁ := hto₀.trans hq₁
  rcases hres with ⟨he, -⟩ | ⟨he₁, -⟩
  · rw [if_pos he, if_pos he]
  rw [if_neg (by simp [he₁]), if_neg (by simp [he₁])]
  obtain ⟨q₂, hq₂, hs₂⟩ := exists_jsonSkipWs hto₁.inside (hto₁.left_le.trans_lt hn)
  have hto₂ := hto₁.trans hs₂.reaches
  rw [hq₂, ok_bind, ok_bind, looksAt_eq, ok_bind, ok_bind]
  cases hcolon : q₂.rest.head?.any (· == byte ':') with
  | false => rfl
  | true =>
  obtain ⟨b, t₂, ht₂, -⟩ := rest_of_any hcolon
  simp only [Bool.not_true, Bool.false_eq_true, ↓reduceIte]
  have hskip₂ : q₂.Reaches (q₂.skip 1) := reaches_skip (by simp [ht₂]) hto₂.inside
  obtain ⟨q₃, hq₃, hs₃⟩ :=
    exists_jsonSkipWs hskip₂.inside ((hto₂.trans hskip₂).left_le.trans_lt hn)
  have hto₃ := hto₂.trans (hskip₂.trans hs₃.reaches)
  rw [hq₃, ok_bind, ok_bind, h q₃ (hp.reach hto₃ (hs₃.err.trans (hs₂.err.trans he₁)))
    (hto₂.forward.trans_lt hs₃.reaches.forward)]

theorem containerBody_congr {P : Bytes → Bytes → Prop}
    {turn turn' : JsonParser → Outcome ContainerTurn} {q : JsonParser} {v : AerVal} {close : UInt8}
    (hp : Within s p) (hn : p.left < n) (hq : p.Reaches q) (he : q.err = none) (hlt : p.pos < q.pos)
    (hturn : ∀ r, Within s r → p.pos < r.pos → r.left ≤ p.left →
      Sat (ContainerStep P s r) (NearLimit s) (turn r) ∧ turn r = turn' r) :
    (do
      let p ← jsonSkipWs n q
      if ← p.looksAt (· == close) then return (v, p.skip 1) else iterate turn n p) =
    (do
      let p ← jsonSkipWs n q
      if ← p.looksAt (· == close) then return (v, p.skip 1) else iterate turn' n p) := by
  obtain ⟨q₁, hq₁, hs₁⟩ := exists_jsonSkipWs hq.inside (hq.left_le.trans_lt hn)
  have hto := hq.trans hs₁.reaches
  rw [hq₁, ok_bind, ok_bind, looksAt_eq, ok_bind, ok_bind,
    iterate_congr (I := fun r => Within s r ∧ p.pos < r.pos) (fun r hr => ?_)
      (fun r hr t ht => ?_) n ⟨hp.reach hto (hs₁.err.trans he), hlt.trans_le hs₁.reaches.forward⟩]
  · exact (hturn r hr.1 hr.2 (hp.reaches hr.1 hr.2.le).left_le).2
  · have := (hturn r hr.1 hr.2 (hp.reaches hr.1 hr.2.le).left_le).1.of_ok ht
    exact ⟨this.1.1, hr.2.trans this.1.2⟩

variable (hvalue : ∀ q, Within s q → p.pos < q.pos →
  Sat (Parsed ReadsValue q) (NearLimit s) (value q))
  (hsame : ∀ q, Within s q → p.pos < q.pos → value q = value' q)
include hvalue hsame

theorem jsonParseArray_congr (hp : Within s p) (hn : p.left < n) (hlt : p.pos < p.len) :
    jsonParseArray value n p = jsonParseArray value' n p := by
  have hskip : p.Reaches (p.skip 1) := ⟨rfl, Nat.le_succ _, hlt⟩
  unfold jsonParseArray
  exact containerBody_congr hp hn ⟨hskip.text, hskip.forward, hskip.inside⟩ hp.err
    (Nat.lt_succ_self _) fun r hr h hle =>
      ⟨sat_jsonArrayTurn hr (hle.trans_lt hn) (hvalue r hr h), jsonArrayTurn_congr (hsame r hr h)⟩

theorem jsonParseObject_congr (hp : Within s p) (hn : p.left < n) (hlt : p.pos < p.len) :
    jsonParseObject value n p = jsonParseObject value' n p := by
  have hskip : p.Reaches (p.skip 1) := ⟨rfl, Nat.le_succ _, hlt⟩
  unfold jsonParseObject
  exact containerBody_congr hp hn ⟨hskip.text, hskip.forward, hskip.inside⟩ hp.err
    (Nat.lt_succ_self _) fun r hr h hle =>
      ⟨sat_jsonObjectTurn hr (hle.trans_lt hn) fun q hq hqlt => hvalue q hq (h.trans hqlt),
        jsonObjectTurn_congr hr (hle.trans_lt hn) fun q hq hqlt => hsame q hq (h.trans hqlt)⟩

/-- A value is parsed with recursive calls further on only. -/
theorem jsonParseValueWith_congr (hp : Within s p) (hn : p.left < n) :
    jsonParseValueWith value n p = jsonParseValueWith value' n p := by
  unfold jsonParseValueWith
  obtain ⟨q, hq, hs⟩ := exists_jsonSkipWs hp.inside hn
  have hw := hp.reach hs.reaches (hs.err.trans hp.err)
  have hnq := hs.reaches.left_le.trans_lt hn
  have hfwd := hs.reaches.forward
  rw [hq, ok_bind, ok_bind]
  split
  · rfl
  rename_i hlt
  unfold jsonParseAt
  rw [jsonParseObject_congr (fun r hr h => hvalue r hr (hfwd.trans_lt h))
      (fun r hr h => hsame r hr (hfwd.trans_lt h)) hw hnq (not_le.mp hlt),
    jsonParseArray_congr (fun r hr h => hvalue r hr (hfwd.trans_lt h))
      (fun r hr h => hsame r hr (hfwd.trans_lt h)) hw hnq (not_le.mp hlt)]

end Calls

/-! The whole decoder. -/

/-- `q` is strictly further on than `p`, in the same text. -/
def FurtherOn (p q : JsonParser) : Prop := p.Reaches q ∧ p.pos < q.pos

/-- The decoder on a text `s`. A read outside the text would be a result `.error`. -/
structure DecodesSafely (heap : Heap) (s : Bytes) : Prop where
  ends : ∀ n, s.length < n → ∃ v q, jsonDecode n heap s = .ok (v, q) ∧ q.s = s ∧
    (q.err = none ∧ q.pos = s.length ∨ q.err.isSome = true ∧ v = .null)
  values : ∀ n p, Within s p → p.left < n →
    ∃ v q, jsonParseValue n p = .ok (v, q) ∧ p.Reaches q
  blanksAndDigits : ∀ test p q, Within s p → skipTurn test p = .ok (.inl q) → FurtherOn p q
  strings : ∀ b c p q, Within s p → jsonStringTurn (b, p) = .ok (.inl (c, q)) → FurtherOn p q
  arrays : ∀ m n c p q, Within s p → p.left < m → p.left < n →
    jsonArrayTurn (jsonParseValue m) n c p = .ok (.inl q) → FurtherOn p q
  objects : ∀ m n c p q, Within s p → p.left ≤ m → p.left < n →
    jsonObjectTurn (jsonParseValue m) n c p = .ok (.inl q) → FurtherOn p q
  calls : ∀ n p value, Within s p → p.left ≤ n →
    (∀ q, Within s q → FurtherOn p q → value q = jsonParseValue n q) →
    jsonParseValueWith value (n + 1) p = jsonParseValue (n + 1) p

/-- What `json_decode` ends with: the whole text read, or an error and null. -/
def Decoded (s : Bytes) (x : AerVal × JsonParser) : Prop :=
  x.2.s = s ∧ ((x.2.err = none ∧ x.2.pos = s.length ∧ ∃ j, Text lenient s j) ∨
    (x.2.err.isSome = true ∧ x.1 = .null))

theorem sat_jsonDecode (heap : Heap) (s : Bytes) (hn : s.length < n) :
    Sat (Decoded s) (NearLimit s) (jsonDecode n heap s) := by
  unfold jsonDecode
  refine (sat_jsonParseValue (s := s) ⟨rfl, Nat.zero_le _, rfl⟩ hn).bind fun ⟨v, q⟩ ⟨hq, hres⟩ => ?_
  dsimp only at hq hres ⊢
  rcases hres with ⟨he, -⟩ | ⟨he, j, t, ht, hj⟩
  · rw [if_neg (by simpa [Option.isNone_iff_eq_none] using Option.isSome_iff_ne_none.mp he)]
    exact ⟨hq.text, .inr ⟨he, if_pos he⟩⟩
  · have hn' : q.left < n := hq.left_le.trans_lt hn
    obtain ⟨r, hr, hs⟩ := exists_jsonSkipWs hq.inside hn'
    have hto := hq.trans hs.reaches
    have hlen : r.len = s.length := hto.len_eq
    rw [if_pos (by simp [he]), hr, ok_bind]
    split
    · exact ⟨by simpa using hto.text, .inr ⟨setError_err r _, if_pos (setError_err r _)⟩⟩
    · rename_i hend
      refine ⟨hto.text, .inl ⟨hs.err.trans he, (not_not.mp hend).trans hlen, j, t, q.rest, ht, hj, ?_⟩⟩
      have hnil : r.rest = [] := rest_eq_nil_iff.mpr (not_not.mp hend).ge
      exact hnil ▸ hs.ws

theorem not_nearLimit {s : Bytes} (h : s.length < 2 ^ 31) : ¬ NearLimit s := by
  unfold NearLimit
  omega

end Aer.Json
