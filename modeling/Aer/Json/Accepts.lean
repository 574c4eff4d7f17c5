import Aer.Json.Positions

set_option linter.all false

/-! What the decoder accepts: JSON in a dialect of its own. Every parse function stays
within the text, moves forward, and ends with an error or behind a phrase. -/
namespace Aer.Json

open Aer.Data Aer.Memory Aer.Lib.Scan JsonParser

/-- The literal as it is converted, in a buffer of 64 bytes. -/
def cutLiteral (l : Bytes) : Bytes := l.take (if 64 ≤ l.length then 63 else l.length)

/-- The dialect of the decoder: any byte may stand in a string, any four bytes are taken
for hexadecimal digits, and an integer is clamped to 64 bits. -/
def lenient : Dialect where
  plain _ := True
  unit q := some (jsonCodeBytes (strtoul16 q))
  integer l := some (strtoll (cutLiteral l))

/-- The length from which the look-ahead of `\u` can wrap around. -/
def NearLimit (s : Bytes) : Prop := 2 ^ 32 ≤ s.length + 3

/-- The outcome of a parse function started at `p`: an error and null, or the text read
up to the new position. -/
structure Parsed (P : Bytes → Bytes → Prop) (p : JsonParser) (x : AerVal × JsonParser) : Prop where
  reaches : p.Reaches x.2
  result : x.2.err.isSome = true ∧ x.1 = .null ∨ x.2.err = none ∧ P p.rest x.2.rest

section Parsed
variable {P Q : Bytes → Bytes → Prop} {p q : JsonParser}

theorem Parsed.fail (h : p.Reaches q) (m : Bytes) : Parsed P p (.null, q.setError m) :=
  ⟨h.trans (reaches_setError h.inside m), .inl ⟨setError_err q m, rfl⟩⟩

theorem Parsed.failed (h : p.Reaches q) (he : q.err.isSome = true) : Parsed P p (.null, q) :=
  ⟨h, .inl ⟨he, rfl⟩⟩

theorem Parsed.done {v : AerVal} (h : p.Reaches q) (he : q.err = none) (hP : P p.rest q.rest) :
    Parsed P p (v, q) :=
  ⟨h, .inr ⟨he, hP⟩⟩

theorem Parsed.after {x : AerVal × JsonParser} (h : Parsed P q x) (hq : p.Reaches q)
    (hPQ : ∀ r, P q.rest r → Q p.rest r) : Parsed Q p x :=
  ⟨hq.trans h.reaches, h.result.imp_right fun hr => ⟨hr.1, hPQ _ hr.2⟩⟩

end Parsed

variable {p : JsonParser} {n : Nat}

/-- Where a loop of a parse function is. -/
structure Within (s : Bytes) (p : JsonParser) : Prop where
  text : p.s = s
  inside : p.pos ≤ p.len
  err : p.err = none

theorem Within.reach {s : Bytes} {q : JsonParser} (h : Within s p) (hq : p.Reaches q)
    (he : q.err = none) : Within s q :=
  ⟨hq.text.trans h.text, hq.inside, he⟩

theorem Within.reaches {s : Bytes} {q : JsonParser} (hp : Within s p) (hq : Within s q)
    (h : p.pos ≤ q.pos) : p.Reaches q :=
  ⟨hq.text.trans hp.text.symm, h, hq.inside⟩

/-! Strings. -/

theorem jsonShortEscape_eq (e b : UInt8) :
    jsonShortEscape e = some b ↔ (e, b) ∈ shortEscapes := by
  constructor
  · intro h
    unfold jsonShortEscape at h
    split_ifs at h <;> (cases h; subst e; decide)
  · intro h
    simp only [shortEscapes, List.mem_cons, Prod.mk.injEq, List.not_mem_nil, or_false] at h
    rcases h with ⟨rfl, rfl⟩ | ⟨rfl, rfl⟩ | ⟨rfl, rfl⟩ | ⟨rfl, rfl⟩ | ⟨rfl, rfl⟩ | ⟨rfl, rfl⟩ |
      ⟨rfl, rfl⟩ | ⟨rfl, rfl⟩ <;> decide

/-- The rest of a string. -/
def StringRest (t r : Bytes) : Prop := ∃ m, Chars lenient t m r

/-- A turn of the string loop: round again further on, or done. -/
def StringStep (p : JsonParser) : StringTurn → Prop :=
  Sum.elim
    (fun x => Within p.s x.2 ∧ x.2.left < p.left ∧
      ∀ y, Parsed StringRest x.2 y → Parsed StringRest p y)
    (Parsed StringRest p)

theorem StringStep.again {q : JsonParser} {b : Bytes} (hq : p.Reaches q) (he : q.err = none)
    (hlt : p.pos < q.pos) (hr : ∀ r, StringRest q.rest r → StringRest p.rest r) :
    StringStep p (.inl (b, q)) := by
  exact ⟨⟨hq.text, hq.inside, he⟩, hq.left_lt hlt, fun y hy => hy.after hq hr⟩

theorem sat_jsonEscape {s t b : Bytes} (hp : Within s p) (ht : p.rest = backslash :: t) :
    Sat (StringStep p) (NearLimit s) (jsonEscape b (p.skip 1)) := by
  have hq : p.Reaches (p.skip 1) := reaches_skip (by simp [ht]) hp.inside
  have hrest := rest_skip_one ht
  unfold jsonEscape
  split
  · exact Parsed.fail hq _
  rename_i hlt
  obtain ⟨e, u, hu⟩ := rest_ne_nil (not_le.mp hlt)
  have hetext : p.rest = backslash :: e :: u := by rw [ht, ← hrest, hu]
  rw [read_of_rest hu, ok_bind]
  cases hesc : jsonShortEscape e with
  | some ch =>
    refine StringStep.again ?_ hp.err (by simp) ?_
    · rw [skip_skip]
      exact reaches_skip (by simp [hetext]) hp.inside
    · rintro r ⟨m, hm⟩
      rw [rest_skip_one hu] at hm
      exact ⟨ch :: m, hetext ▸ .escape ((jsonShortEscape_eq _ _).mp hesc) hm⟩
  | none =>
    simp only
    split
    · rename_i he
      split
      · exact Parsed.fail hq _
      rename_i hfour
      rw [skip_len, skip_pos] at hfour
      by_cases hlong : p.pos + 1 + 4 < p.len
      · -- The four bytes are there.
        have hfive : 5 ≤ (p.skip 1).rest.length := by
          rw [length_rest, left, skip_len, skip_pos]
          omega
        have hu4 : 4 ≤ u.length := by simpa [hu] using hfive
        have hread : (p.skip 1).readMany ((p.skip 1).pos + 1) 4 = .ok (u.take 4) := by
          have := readMany_of_rest (p := p.skip 2) (a := u.take 4) (t := u.drop 4)
            (by rw [← skip_skip p 1 1, rest_skip_one hu, List.take_append_drop])
            (by simp; omega)
          rwa [List.length_take, min_eq_left hu4] at this
        rw [hread, ok_bind]
        refine StringStep.again ?_ hp.err (by simp) ?_
        · exact hq.trans (reaches_skip hfive hq.inside)
        · rintro r ⟨m, hm⟩
          have hu' : (p.skip 1 |>.skip 5).rest = u.drop 4 := by
            rw [rest_skip, hu]
            rfl
          rw [hu'] at hm
          have hunit : Chars lenient (backslash :: byte 'u' :: (u.take 4 ++ u.drop 4)) _ r :=
            .unit (by rw [List.length_take, min_eq_left hu4]) rfl hm
          rw [List.take_append_drop] at hunit
          exact ⟨_, by rwa [hetext, he]⟩
      · -- The sum has wrapped around.
        have hnear : NearLimit s := by
          have hlen : s.length = p.len := by rw [len, hp.text]
          have := Nat.div_add_mod (p.pos + 1 + 4) (2 ^ 32)
          rw [skip_len, skip_pos] at hlt
          unfold NearLimit
          rw [hlen]
          by_contra hcon
          rw [Nat.mod_eq_of_lt (by omega)] at hfour
          omega
        rw [readMany, if_neg (by simp; omega)]
        exact hnear
    · exact Parsed.fail hq _

theorem parsed_jsonStringEnd {s b : Bytes} (hp : Within s p)
    (h : p.rest = [] ∨ ∃ t, p.rest = quote :: t) : Parsed StringRest p (jsonStringEnd b p) := by
  unfold jsonStringEnd
  split
  · exact Parsed.fail (.refl hp.inside) _
  · rename_i hlt
    rcases h with h | ⟨t, ht⟩
    · exact absurd (rest_eq_nil_iff.mp h) hlt
    · have hq := reaches_skip (p := p) (k := 1) (by simp [ht]) hp.inside
      refine Parsed.done ⟨hq.text, hq.forward, hq.inside⟩ hp.err ⟨[], ?_⟩
      have : (p.skip 1).rest = t := rest_skip_one ht
      rw [ht]
      exact this ▸ .close _

theorem sat_jsonStringTurn {s b : Bytes} (hp : Within s p) :
    Sat (StringStep p) (NearLimit s) (jsonStringTurn (b, p)) := by
  simp only [jsonStringTurn]
  split
  · rename_i hlt
    obtain ⟨c, t, ht⟩ := rest_ne_nil hlt
    rw [read_of_rest ht, ok_bind]
    split
    · rename_i hc
      exact parsed_jsonStringEnd hp (.inr ⟨t, by rw [ht, hc]; rfl⟩)
    · rename_i hquote
      split
      · rename_i hback
        refine StringStep.again (reaches_skip (by simp [ht]) hp.inside) hp.err (by simp) ?_
        rintro r ⟨m, hm⟩
        rw [rest_skip_one ht] at hm
        exact ⟨c :: m, ht ▸ .plain hquote hback trivial hm⟩
      · rename_i hback
        exact sat_jsonEscape hp (by rw [ht, not_not.mp hback]; rfl)
  · rename_i hge
    exact parsed_jsonStringEnd hp (.inl (rest_eq_nil_iff.mpr (not_lt.mp hge)))

theorem sat_jsonParseStringRaw {s t : Bytes} (hp : Within s p) (ht : p.rest = quote :: t)
    (hn : p.left ≤ n) :
    Sat (Parsed (fun t r => ∃ m u, t = quote :: u ∧ Chars lenient u m r) p) (NearLimit s)
      (jsonParseStringRaw n p) := by
  have hq : p.Reaches (p.skip 1) := reaches_skip (by simp [ht]) hp.inside
  refine (Sat.iterate (I := fun x => Within s x.2) (Q := fun x => Parsed StringRest x.2)
    (fun x => x.2.left) (fun x hx => ?_) (hp.reach hq hp.err) ?_).mono ?_
  · have := sat_jsonStringTurn (b := x.1) hx
    unfold StringStep at this
    rwa [hx.text] at this
  · have := lt_of_rest ht
    rw [left_skip]
    unfold left at hn ⊢
    omega
  · intro x hx
    refine Parsed.after hx hq ?_
    rintro r ⟨m, hm⟩
    rw [rest_skip_one ht] at hm
    exact ⟨m, t, ht, hm⟩

/-! Numbers. -/

/-- A part of a number: read up to `q`, or an error. -/
structure Piece (P : Bytes → Prop) (p : JsonParser) (ok : Bool) (q : JsonParser) : Prop where
  reaches : p.Reaches q
  failed : ok = false → q.err.isSome = true
  read : ok = true → q.err = p.err ∧ ∃ a, P a ∧ p.rest = a ++ q.rest

theorem Piece.fail {P : Bytes → Prop} (hp : p.pos ≤ p.len) (m : Bytes) :
    Piece P p false (p.setError m) :=
  ⟨reaches_setError hp m, fun _ => setError_err p m, by simp⟩

theorem Piece.skip {P : Bytes → Prop} {a t : Bytes} (hp : p.pos ≤ p.len) (ha : P a)
    (h : p.rest = a ++ t) : Piece P p true (p.skip a.length) :=
  ⟨reaches_skip (by simp [h]) hp, by simp, fun _ => ⟨rfl, a, ha, by rw [rest_skip_of_append h, h]⟩⟩

theorem sat_skipDigits (hp : p.pos ≤ p.len) (hn : p.left < n) {c : UInt8} {t : Bytes}
    (ht : p.rest = c :: t) (hc : isDigit c = true) :
    Sat (fun q => ∃ ds, AllDigits ds ∧ p.rest = c :: ds ++ q.rest ∧ p.Reaches q ∧ q.err = p.err)
      False (skipWhile isDigit n p) := by
  rw [skipWhile_eq isDigit hn]
  refine ⟨t.takeWhile isDigit, fun d hd => List.mem_takeWhile_imp hd, ?_,
    reaches_skipWhile isDigit hp, rfl⟩
  rw [rest_skipWhile, ht, List.dropWhile_cons_of_pos hc, List.cons_append,
    List.takeWhile_append_dropWhile]

theorem sat_jsonDigits {E : Prop} (hp : p.pos ≤ p.len) (hn : p.left < n) :
    Sat (fun x => Piece (fun a => a ≠ [] ∧ AllDigits a) p x.1 x.2) E (jsonDigits n p) := by
  unfold jsonDigits
  rw [looksAt_eq, ok_bind]
  cases hr : p.rest with
  | nil => exact Piece.fail hp _
  | cons c t =>
    cases hc : isDigit c with
    | false =>
      simp only [List.head?_cons, Option.any_some, hc]
      exact Piece.fail hp _
    | true =>
      simp only [List.head?_cons, Option.any_some, hc, ↓reduceIte]
      obtain ⟨q, hq, ds, hds, heq, hreach, herr⟩ := (sat_skipDigits hp hn hr hc).exists_ok id
      rw [hq]
      refine ⟨hreach, by simp, fun _ => ⟨herr, c :: ds, ⟨by simp, ?_⟩, heq⟩⟩
      exact List.forall_mem_cons.mpr ⟨hc, hds⟩

theorem sat_jsonIntegerPart {E : Prop} (hp : p.pos ≤ p.len) (hn : p.left < n) :
    Sat (fun x => Piece IsInteger p x.1 x.2) E (jsonIntegerPart n p) := by
  unfold jsonIntegerPart
  rw [looksAt_eq, ok_bind]
  cases hr : p.rest with
  | nil => exact Piece.fail hp _
  | cons c t =>
    cases hc : isDigit c with
    | false =>
      simp only [List.head?_cons, Option.any_some, hc]
      exact Piece.fail hp _
    | true =>
      simp only [List.head?_cons, Option.any_some, hc, ↓reduceIte, read_of_rest hr, ok_bind]
      split
      · rename_i hzero
        exact Piece.skip (a := [c]) hp (hzero ▸ .zero) hr
      · rename_i hzero
        obtain ⟨q, hq, ds, hds, heq, hreach, herr⟩ := (sat_skipDigits hp hn hr hc).exists_ok id
        rw [hq]
        exact ⟨hreach, by simp, fun _ => ⟨herr, c :: ds, .digits hc hzero hds, heq⟩⟩

/-- An optional part: nothing, or what the flag stands for. -/
def Optional (P : Bytes → Prop) (flag : Bool) (a : Bytes) : Prop :=
  if flag then P a else a = []

theorem Piece.absent {P : Bytes → Prop} (hp : p.pos ≤ p.len) : Piece (Optional P false) p true p :=
  ⟨.refl hp, by simp, fun _ => ⟨rfl, [], rfl, rfl⟩⟩

/-- Digits after a mark. -/
theorem Piece.mark {P Q : Bytes → Prop} {ok : Bool} {q r : JsonParser} {a : Bytes}
    (hq : p.Reaches q) (hpq : p.rest = a ++ q.rest) (he : q.err = p.err) (h : Piece P q ok r)
    (hPQ : ∀ b, P b → Q (a ++ b)) : Piece (Optional Q true) p ok r := by
  refine ⟨hq.trans h.reaches, h.failed, fun hok => ?_⟩
  obtain ⟨herr, b, hb, hr⟩ := h.read hok
  exact ⟨herr.trans he, a ++ b, hPQ b hb, by rw [hpq, hr, List.append_assoc]⟩

theorem sat_jsonFraction {E : Prop} (hp : p.pos ≤ p.len) (hn : p.left < n) :
    Sat (fun x => Piece (Optional IsFraction x.2.1) p x.1 x.2.2) E (jsonFraction n p) := by
  unfold jsonFraction
  rw [looksAt_eq, ok_bind]
  cases hr : p.rest with
  | nil => exact Piece.absent hp
  | cons c t =>
    simp only [List.head?_cons, Option.any_some, beq_iff_eq]
    split
    · rename_i hc
      have hq : p.Reaches (p.skip 1) := reaches_skip (by simp [hr]) hp
      refine (sat_jsonDigits hq.inside (by rw [left_skip]; omega)).bind fun x hx => ?_
      refine Piece.mark (a := [byte '.']) hq ?_ rfl hx (fun b hb => .mk hb.1 hb.2)
      rw [hr, rest_skip_one hr, hc]
      rfl
    · exact Piece.absent hp

theorem sat_jsonExponent {E : Prop} (hp : p.pos ≤ p.len) (hn : p.left < n) :
    Sat (fun x => Piece (Optional IsExponent x.2.1) p x.1 x.2.2) E (jsonExponent n p) := by
  unfold jsonExponent
  rw [looksAt_eq, ok_bind]
  cases hr : p.rest with
  | nil => exact Piece.absent hp
  | cons c t =>
    simp only [List.head?_cons, Option.any_some, Bool.or_eq_true, beq_iff_eq]
    split
    · rename_i hc
      have hq : p.Reaches (p.skip 1) := reaches_skip (by simp [hr]) hp
      have hrest := rest_skip_one hr
      rw [looksAt_eq, ok_bind, hrest]
      cases hsign : t.head?.any fun ch => ch == byte '+' || ch == byte '-' with
      | false =>
        simp only [Bool.false_eq_true, ↓reduceIte]
        refine (sat_jsonDigits hq.inside (by rw [left_skip]; omega)).bind fun x hx => ?_
        refine Piece.mark (a := [c]) hq ?_ rfl hx
          (fun b hb => IsExponent.mk (s := []) hc (.inl rfl) hb.1 hb.2)
        rw [hr, hrest]
        rfl
      | true =>
        obtain ⟨g, u, rfl⟩ : ∃ g u, t = g :: u := List.exists_cons_of_ne_nil (by rintro rfl; cases hsign)
        simp only [List.head?_cons, Option.any_some, Bool.or_eq_true, beq_iff_eq] at hsign
        have hq' := hq.trans (reaches_skip (p := p.skip 1) (k := 1) (by simp [hrest]) hq.inside)
        simp only [↓reduceIte]
        refine (sat_jsonDigits hq'.inside (by rw [left_skip, left_skip]; omega)).bind fun x hx => ?_
        refine Piece.mark (a := [c, g]) hq' ?_ rfl hx
          (fun b hb => IsExponent.mk (s := [g]) hc (.inr (by simpa using hsign)) hb.1 hb.2)
        rw [hr, rest_skip_one hrest]
        rfl
    · exact Piece.absent hp

/-- The conversion of the literal between two positions. -/
theorem jsonNumberValue_eq {q : JsonParser} {l : Bytes} (hq : p.Reaches q)
    (hl : p.rest = l ++ q.rest) (isReal : Bool) :
    jsonNumberValue p.pos isReal q =
      .ok (if isReal then (aerReal (Double.strtod (cutLiteral l)), q)
        else ((q.heap.aerInt (strtoll (cutLiteral l))).1,
          { q with heap := (q.heap.aerInt (strtoll (cutLiteral l))).2 })) := by
  have hlen := congrArg List.length hl
  rw [List.length_append, length_rest, length_rest, left, left, hq.len_eq] at hlen
  have hsize : q.pos - p.pos = l.length := by
    have := hq.forward
    have := hq.inside
    have := hq.len_eq
    omega
  have hread : q.readMany p.pos (if 64 ≤ l.length then 63 else l.length) = .ok (cutLiteral l) := by
    have hk : (if 64 ≤ l.length then 63 else l.length) ≤ l.length := by split <;> omega
    have := readMany_of_rest (p := p) (a := cutLiteral l)
      (t := l.drop (if 64 ≤ l.length then 63 else l.length) ++ q.rest)
      (by rw [hl, cutLiteral, ← List.append_assoc, List.take_append_drop])
      (hq.forward.trans (hq.inside.trans hq.len_eq.le))
    rw [cutLiteral, List.length_take, min_eq_left hk, ← cutLiteral] at this
    rwa [readMany, hq.len_eq, hq.text]
  simp only [jsonNumberValue, hsize, hread, ok_bind]
  cases isReal <;> rfl

theorem sat_jsonParseNumber {s : Bytes} {E : Prop} (hp : Within s p) (hn : p.left < n) :
    Sat (Parsed (fun t r => ∃ j, Value lenient j t r) p) E (jsonParseNumber n p) := by
  unfold jsonParseNumber
  rw [looksAt_eq, ok_bind]
  -- The sign and the integer part.
  have hsigned : ∀ b, b = p.rest.head?.any (· == byte '-') →
      Sat (fun x => Piece IsSigned p x.1 x.2) E
        (jsonIntegerPart n (if b = true then p.skip 1 else p)) := by
    intro b hb
    cases b with
    | false =>
      simp only [Bool.false_eq_true, ↓reduceIte]
      refine (sat_jsonIntegerPart hp.inside hn).mono fun x hx => ⟨hx.reaches, hx.failed, fun hok => ?_⟩
      obtain ⟨he, a, ha, hr⟩ := hx.read hok
      exact ⟨he, a, .plus ha, hr⟩
    | true =>
      obtain ⟨c, t, hr⟩ : ∃ c t, p.rest = c :: t :=
        List.exists_cons_of_ne_nil (by intro h; rw [h] at hb; cases hb)
      obtain rfl : c = byte '-' := by rw [hr] at hb; simpa using hb.symm
      have hq : p.Reaches (p.skip 1) := reaches_skip (by simp [hr]) hp.inside
      simp only [↓reduceIte]
      refine (sat_jsonIntegerPart hq.inside (by rw [left_skip]; omega)).mono fun x hx => ?_
      refine ⟨hq.trans hx.reaches, hx.failed, fun hok => ?_⟩
      obtain ⟨he, a, ha, hr'⟩ := hx.read hok
      exact ⟨he, byte '-' :: a, .minus ha, by rw [hr, ← rest_skip_one hr, hr']; rfl⟩
  refine (hsigned _ rfl).bind fun ⟨ok, q₁⟩ h₁ => ?_
  cases ok with
  | false => exact Parsed.failed h₁.reaches (h₁.failed rfl)
  | true =>
  obtain ⟨he₁, i, hi, hr₁⟩ := h₁.read rfl
  have hleft₁ := h₁.reaches.left_le
  refine (sat_jsonFraction (n := n) h₁.reaches.inside (by omega)).bind fun ⟨ok, fr, q₂⟩ h₂ => ?_
  have hq₂ := h₁.reaches.trans h₂.reaches
  cases ok with
  | false => exact Parsed.failed hq₂ (h₂.failed rfl)
  | true =>
  obtain ⟨he₂, f, hf, hr₂⟩ := h₂.read rfl
  have hleft₂ := hq₂.left_le
  refine (sat_jsonExponent (n := n) h₂.reaches.inside (by omega)).bind fun ⟨ok, ex, q₃⟩ h₃ => ?_
  have hq₃ := hq₂.trans h₃.reaches
  cases ok with
  | false => exact Parsed.failed hq₃ (h₃.failed rfl)
  | true =>
  obtain ⟨he₃, e, hee, hr₃⟩ := h₃.read rfl
  have herr : q₃.err = none := he₃.trans (he₂.trans (he₁.trans hp.err))
  have hrest : p.rest = i ++ f ++ e ++ q₃.rest := by
    rw [hr₁, hr₂, hr₃]
    simp only [List.append_assoc]
  simp only [Bool.not_true, Bool.false_eq_true, ↓reduceIte]
  rw [jsonNumberValue_eq hq₃ hrest]
  cases fr <;> cases ex <;>
    simp only [Optional, Bool.false_eq_true, ↓reduceIte, Bool.or_false, Bool.or_true] at hf hee ⊢
  · subst hf hee
    rw [List.append_nil, List.append_nil] at hrest
    exact Parsed.done ⟨hq₃.text, hq₃.forward, hq₃.inside⟩ herr
      ⟨.integer (strtoll (cutLiteral i)), hrest ▸ .integer hi rfl _⟩
  · subst hf
    rw [List.append_nil] at hrest
    exact Parsed.done hq₃ herr ⟨.real (i ++ e), hrest ▸ .real (.exponent hi hee) _⟩
  · subst hee
    rw [List.append_nil] at hrest
    exact Parsed.done hq₃ herr ⟨.real (i ++ f), hrest ▸ .real (.fraction hi hf) _⟩
  · exact Parsed.done hq₃ herr ⟨.real (i ++ f ++ e), hrest ▸ .real (.both hi hf hee) _⟩

end Aer.Json
