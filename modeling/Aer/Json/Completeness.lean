import Aer.Json.Denotes

set_option linter.all false

/-! What the decoder's dialect derives, the decoder accepts, with the value the text
denotes. -/
namespace Aer.Json

open Aer.Data Aer.Memory Aer.Memory.Heap Aer.Lib.Scan JsonParser

variable {p : JsonParser} {n : Nat}

/-! Where a scanner stops. -/

theorem Ws.eq_of_stop {t u v : Bytes} (hu : Ws t u) (hv : Ws t v)
    (hus : u.head?.any isWs = false) (hvs : v.head?.any isWs = false) : u = v := by
  induction hu with
  | none r =>
    cases hv with
    | none => rfl
    | more hb _ => simp [hb] at hus
  | more hb _ ih =>
    cases hv with
    | none => simp [hb] at hvs
    | more _ hv => exact ih hv hus

theorem jsonSkipWs_complete {u : Bytes} (hp : p.pos ≤ p.len) (hn : p.left < n) (hu : Ws p.rest u)
    (hstop : u.head?.any isWs = false) :
    ∃ q, jsonSkipWs n p = .ok q ∧ Skipped p q ∧ q.rest = u := by
  obtain ⟨q, hq, hs⟩ := exists_jsonSkipWs hp hn
  exact ⟨q, hq, hs, hs.ws.eq_of_stop hu hs.stop hstop⟩

/-- What may follow a number. -/
def EndsNumber (r : Bytes) : Prop :=
  r.head?.any (fun b => isDigit b || b == byte '.' || b == byte 'e' || b == byte 'E') = false

theorem EndsNumber.digit {r : Bytes} (h : EndsNumber r) : r.head?.any isDigit = false := by
  cases r with
  | nil => rfl
  | cons b r =>
    simp only [EndsNumber, List.head?_cons, Option.any_some, Bool.or_eq_false_iff] at h
    exact h.1.1.1

theorem EndsNumber.ne {r : Bytes} {b : UInt8} (h : EndsNumber r)
    (hb : b = byte '.' ∨ b = byte 'e' ∨ b = byte 'E') : r.head?.any (· == b) = false := by
  cases r with
  | nil => rfl
  | cons c r =>
    simp only [EndsNumber, List.head?_cons, Option.any_some, Bool.or_eq_false_iff] at h ⊢
    rcases hb with rfl | rfl | rfl
    · exact h.1.1.2
    · exact h.1.2
    · exact h.2

theorem Ws.endsNumber {t r : Bytes} (h : Ws t r) (hr : EndsNumber r) : EndsNumber t := by
  cases h with
  | none => exact hr
  | more hb _ =>
    simp only [isWs, Bool.or_eq_true, beq_iff_eq] at hb
    rcases hb with ((rfl | rfl) | rfl) | rfl <;> rfl

/-! Strings. -/

/-- A parse function ended at `q` with the text `r` left. -/
structure Arrives (p q : JsonParser) (r : Bytes) : Prop where
  reaches : p.Reaches q
  err : q.err = none
  rest : q.rest = r

theorem Arrives.within {s r : Bytes} {q : JsonParser} (h : Arrives p q r) (hp : Within s p) :
    Within s q :=
  hp.reach h.reaches h.err

theorem jsonStringTurn_close {b r : Bytes} (hr : p.rest = quote :: r) :
    jsonStringTurn (b, p) = .ok (.inr ((p.heap.aerMakeString b).1,
      { p.skip 1 with heap := (p.heap.aerMakeString b).2 })) := by
  have hlt := lt_of_rest hr
  have hend : jsonStringEnd b p = ((p.heap.aerMakeString b).1,
      { p.skip 1 with heap := (p.heap.aerMakeString b).2 }) := if_neg (not_le.mpr hlt)
  simp only [jsonStringTurn, if_pos hlt, read_of_rest hr, ok_bind, hend]
  rfl

theorem jsonStringTurn_plain {b t : Bytes} {c : UInt8} (hr : p.rest = c :: t) (hq : c ≠ quote)
    (hb : c ≠ backslash) : jsonStringTurn (b, p) = .ok (.inl (b ++ [c], p.skip 1)) := by
  have hq' : c ≠ byte '"' := hq
  have hb' : c ≠ byte '\\' := hb
  simp only [jsonStringTurn, if_pos (lt_of_rest hr), read_of_rest hr, ok_bind, if_neg hq', if_pos hb']
  rfl

theorem jsonStringTurn_backslash {b t : Bytes} (hr : p.rest = backslash :: t) :
    jsonStringTurn (b, p) = jsonEscape b (p.skip 1) := by
  simp only [jsonStringTurn, if_pos (lt_of_rest hr), read_of_rest hr, ok_bind]
  rfl

theorem jsonEscape_short {b t : Bytes} {e c : UInt8} (hr : p.rest = e :: t)
    (he : (e, c) ∈ shortEscapes) : jsonEscape b p = .ok (.inl (b ++ [c], p.skip 1)) := by
  simp only [jsonEscape, if_neg (not_le.mpr (lt_of_rest hr)), read_of_rest hr, ok_bind,
    (jsonShortEscape_eq e c).mpr he]
  rfl

theorem jsonEscape_unit {b q t : Bytes} (hp : p.pos ≤ p.len) (hlen : p.len < 2 ^ 32)
    (hr : p.rest = byte 'u' :: (q ++ t)) (hq : q.length = 4) :
    jsonEscape b p = .ok (.inl (b ++ jsonCodeBytes (strtoul16 q), p.skip 5)) := by
  have hleft := congrArg List.length hr
  simp only [length_rest, left, List.length_cons, List.length_append, hq] at hleft
  have hread : p.readMany (p.pos + 1) 4 = .ok q := by
    have := readMany_of_rest (p := p.skip 1) (a := q) (t := t) (rest_skip_one hr)
      (by rw [skip_pos, skip_len]; omega)
    rwa [hq] at this
  have hesc : jsonShortEscape (byte 'u') = none := by decide
  have hwrap : ¬ p.len ≤ (p.pos + 4) % 2 ^ 32 := by
    rw [Nat.mod_eq_of_lt (by omega)]
    omega
  simp only [jsonEscape, if_neg (not_le.mpr (lt_of_rest hr)), read_of_rest hr, ok_bind, hesc,
    ↓reduceIte, if_neg hwrap, hread]
  rfl

/-- The string loop from `p` on makes a string of `m` and leaves `r`. -/
def MakesString (n : Nat) (p : JsonParser) (b m r : Bytes) : Prop :=
  ∃ q, iterate jsonStringTurn n (b, p) = .ok ((p.heap.aerMakeString (b ++ m)).1, q) ∧
    Arrives p q r ∧ q.heap = (p.heap.aerMakeString (b ++ m)).2

theorem MakesString.again {s b c m r : Bytes} {k : Nat} (hp : Within s p) (hk : k ≤ p.rest.length)
    (hturn : jsonStringTurn (b, p) = .ok (.inl (b ++ c, p.skip k)))
    (h : MakesString n (p.skip k) (b ++ c) m r) : MakesString (n + 1) p b (c ++ m) r := by
  obtain ⟨q, hq, ha, hheap⟩ := h
  rw [List.append_assoc] at hq hheap
  exact ⟨q, (iterate_again hturn n).trans hq,
    ⟨(reaches_skip hk hp.inside).trans ha.reaches, ha.err, ha.rest⟩, hheap⟩

theorem Within.skip {s : Bytes} {k : Nat} (hp : Within s p) (hk : k ≤ p.rest.length) :
    Within s (p.skip k) :=
  hp.reach (reaches_skip hk hp.inside) hp.err

theorem makesString {s t m r : Bytes} (h : Chars lenient t m r) (hs : s.length < 2 ^ 32)
    (hp : Within s p) (hr : p.rest = t) (hn : p.left < n) (b : Bytes) : MakesString n p b m r := by
  induction h generalizing p n b with
  | close r =>
    obtain ⟨n, rfl⟩ : ∃ k, n = k + 1 := ⟨n - 1, by omega⟩
    have hto := reaches_skip (p := p) (k := 1) (by simp [hr]) hp.inside
    unfold MakesString
    rw [List.append_nil]
    exact ⟨_, iterate_leave (jsonStringTurn_close hr) n,
      ⟨⟨hto.text, hto.forward, hto.inside⟩, hp.err, rest_skip_one hr⟩, rfl⟩
  | plain hq hb _ _ ih =>
    obtain ⟨n, rfl⟩ : ∃ k, n = k + 1 := ⟨n - 1, by omega⟩
    have hk : 1 ≤ p.rest.length := by simp [hr]
    have hleft : 1 ≤ p.left := by rwa [length_rest] at hk
    exact .again (c := [_]) hp hk (jsonStringTurn_plain hr hq hb)
      (ih (hp.skip hk) (rest_skip_one hr) (by rw [left_skip]; omega) _)
  | escape he _ ih =>
    obtain ⟨n, rfl⟩ : ∃ k, n = k + 1 := ⟨n - 1, by omega⟩
    have hk : 2 ≤ p.rest.length := by simp [hr]
    have hleft : 2 ≤ p.left := by rwa [length_rest] at hk
    have hr₁ := rest_skip_one hr
    have hturn := (jsonStringTurn_backslash (b := b) hr).trans (jsonEscape_short hr₁ he)
    have hr₂ := rest_skip_one hr₁
    rw [skip_skip] at hturn hr₂
    exact .again hp hk hturn (ih (hp.skip hk) hr₂ (by rw [left_skip]; omega) _)
  | @unit q u t m r hq hu _ ih =>
    obtain ⟨n, rfl⟩ : ∃ k, n = k + 1 := ⟨n - 1, by omega⟩
    obtain rfl : jsonCodeBytes (strtoul16 q) = u := Option.some.inj hu
    have hk : 6 ≤ p.rest.length := by simp [hr, hq]
    have hleft : 6 ≤ p.left := by rwa [length_rest] at hk
    have hr₁ := rest_skip_one hr
    have hlen : p.len < 2 ^ 32 := by rwa [len, hp.text]
    have hturn := (jsonStringTurn_backslash (b := b) hr).trans
      (jsonEscape_unit (hp.skip (k := 1) (by omega)).inside hlen hr₁ hq)
    have hr₂ := rest_skip_of_append (p := p.skip 1) (a := byte 'u' :: q) hr₁
    rw [List.length_cons, hq, skip_skip] at hr₂
    rw [skip_skip] at hturn
    exact .again hp hk hturn (ih (hp.skip hk) hr₂ (by rw [left_skip]; omega) _)

theorem jsonParseStringRaw_complete {s t m r : Bytes} (hs : s.length < 2 ^ 32) (hp : Within s p)
    (hr : p.rest = quote :: t) (hm : Chars lenient t m r) (hn : p.left ≤ n) :
    ∃ q, jsonParseStringRaw n p = .ok ((p.heap.aerMakeString m).1, q) ∧
      Arrives p q r ∧ q.heap = (p.heap.aerMakeString m).2 := by
  have hk : 1 ≤ p.rest.length := by simp [hr]
  have hleft : 1 ≤ p.left := by rwa [length_rest] at hk
  obtain ⟨q, hq, ha, hheap⟩ :=
    makesString hm hs (hp.skip hk) (rest_skip_one hr) (n := n) (by rw [left_skip]; omega) []
  exact ⟨q, hq, ⟨(reaches_skip hk hp.inside).trans ha.reaches, ha.err, ha.rest⟩, hheap⟩

/-! Numbers. -/

theorem takeWhile_digits {ds r : Bytes} (hds : AllDigits ds) (hr : r.head?.any isDigit = false) :
    (ds ++ r).takeWhile isDigit = ds := by
  rw [List.takeWhile_append_of_pos hds]
  cases r with
  | nil => simp
  | cons b r =>
    rw [List.takeWhile_cons_of_neg (by simpa using hr), List.append_nil]

theorem skipDigits_complete {ds r : Bytes} (hds : AllDigits ds) (h : p.rest = ds ++ r)
    (hr : r.head?.any isDigit = false) (hn : p.left < n) :
    skipWhile isDigit n p = .ok (p.skip ds.length) := by
  rw [skipWhile_eq isDigit hn, h, takeWhile_digits hds hr]

theorem jsonDigits_complete {ds r : Bytes} (hne : ds ≠ []) (hds : AllDigits ds)
    (h : p.rest = ds ++ r) (hr : r.head?.any isDigit = false) (hn : p.left < n) :
    jsonDigits n p = .ok (true, p.skip ds.length) := by
  obtain ⟨d, ds, rfl⟩ := List.exists_cons_of_ne_nil hne
  have hd : isDigit d = true := hds d List.mem_cons_self
  simp only [jsonDigits, looksAt_eq, h, List.cons_append, List.head?_cons, Option.any_some, hd,
    ok_bind, ↓reduceIte, skipDigits_complete hds h hr hn]
  rfl

theorem jsonIntegerPart_complete {i r : Bytes} (hi : IsInteger i) (h : p.rest = i ++ r)
    (hr : r.head?.any isDigit = false) (hn : p.left < n) :
    jsonIntegerPart n p = .ok (true, p.skip i.length) := by
  cases hi with
  | zero =>
    have hd : isDigit (byte '0') = true := by decide
    have hread : p.read p.pos = .ok (byte '0') := read_of_rest h
    simp only [jsonIntegerPart, looksAt_eq, h, List.cons_append, List.head?_cons, Option.any_some,
      hd, ok_bind, ↓reduceIte, hread]
    rfl
  | @digits d ds hd hne hds =>
    have hread : p.read p.pos = .ok d := read_of_rest h
    have hall : AllDigits (d :: ds) := List.forall_mem_cons.mpr ⟨hd, hds⟩
    simp only [jsonIntegerPart, looksAt_eq, h, List.cons_append, List.head?_cons, Option.any_some,
      hd, ok_bind, ↓reduceIte, hread, if_neg hne, skipDigits_complete hall h hr hn]
    rfl

theorem jsonFraction_absent (h : p.rest.head?.any (· == byte '.') = false) :
    jsonFraction n p = .ok (true, false, p) := by
  simp only [jsonFraction, looksAt_eq, h, ok_bind, Bool.false_eq_true, ↓reduceIte]
  rfl

theorem jsonFraction_complete {f r : Bytes} (hf : IsFraction f) (h : p.rest = f ++ r)
    (hr : r.head?.any isDigit = false) (hn : p.left < n) :
    jsonFraction n p = .ok (true, true, p.skip f.length) := by
  cases hf with
  | @mk ds hne hds =>
    have hrest : (p.skip 1).rest = ds ++ r := rest_skip_one h
    have hdigits := jsonDigits_complete hne hds hrest hr (n := n) (by rw [left_skip]; omega)
    simp only [jsonFraction, looksAt_eq, h, List.cons_append, List.head?_cons, Option.any_some,
      beq_self_eq_true, ok_bind, ↓reduceIte, hdigits, skip_skip, List.length_cons]
    rw [Nat.add_comm]
    rfl

theorem jsonExponent_absent (he : p.rest.head?.any (· == byte 'e') = false)
    (hE : p.rest.head?.any (· == byte 'E') = false) :
    jsonExponent n p = .ok (true, false, p) := by
  have h : p.rest.head?.any (fun ch => ch == byte 'e' || ch == byte 'E') = false := by
    cases hr : p.rest.head? with
    | none => rfl
    | some b =>
      rw [hr, Option.any_some] at he hE
      rw [Option.any_some, he, hE]
      rfl
  simp only [jsonExponent, looksAt_eq, h, ok_bind, Bool.false_eq_true, ↓reduceIte]
  rfl

theorem jsonExponent_complete {e r : Bytes} (he : IsExponent e) (h : p.rest = e ++ r)
    (hr : r.head?.any isDigit = false) (hn : p.left < n) :
    jsonExponent n p = .ok (true, true, p.skip e.length) := by
  cases he with
  | @mk c sign ds hc hsign hne hds =>
    have hmark : (c == byte 'e' || c == byte 'E') = true := by simpa using hc
    have hrest : (p.skip 1).rest = sign ++ ds ++ r := rest_skip_one h
    have hlook : (p.skip 1).rest.head?.any (fun ch => ch == byte '+' || ch == byte '-') =
        !sign.isEmpty := by
      rw [hrest]
      rcases hsign with rfl | rfl | rfl
      · obtain ⟨d, ds, rfl⟩ := List.exists_cons_of_ne_nil hne
        have hd : isDigit d = true := hds d List.mem_cons_self
        have hplus : d ≠ byte '+' := by rintro rfl; exact absurd hd (by decide)
        have hminus : d ≠ byte '-' := by rintro rfl; exact absurd hd (by decide)
        simp [hplus, hminus]
      · rfl
      · rfl
    have hsigned : (if (!sign.isEmpty) = true then (p.skip 1).skip 1 else p.skip 1) =
        p.skip (1 + sign.length) := by
      rcases hsign with rfl | rfl | rfl <;> rfl
    have hrest' : (p.skip (1 + sign.length)).rest = ds ++ r := by
      rw [← skip_skip]
      exact rest_skip_of_append (by rw [hrest, List.append_assoc])
    have hdigits := jsonDigits_complete hne hds hrest' hr (n := n) (by rw [left_skip]; omega)
    simp only [jsonExponent, looksAt_eq, h, List.cons_append, List.head?_cons, Option.any_some,
      hmark, ok_bind, ↓reduceIte]
    rw [hlook, hsigned, hdigits]
    simp only [ok_bind, skip_skip, List.length_cons, List.length_append]
    rw [show 1 + sign.length + ds.length = sign.length + ds.length + 1 by omega]
    rfl

theorem signedPart_complete {i r : Bytes} (hi : IsSigned i) (h : p.rest = i ++ r)
    (hr : r.head?.any isDigit = false) (hn : p.left < n) :
    jsonIntegerPart n (if p.rest.head?.any (· == byte '-') = true then p.skip 1 else p) =
      .ok (true, p.skip i.length) := by
  cases hi with
  | plus hi =>
    have hhead : p.rest.head?.any (· == byte '-') = false := by
      rw [h]
      cases hi with
      | zero => rfl
      | @digits d ds hd hne hds =>
        have hd' : d ≠ byte '-' := by rintro rfl; exact absurd hd (by decide)
        simpa using hd'
    rw [hhead]
    exact jsonIntegerPart_complete hi h hr hn
  | @minus i hi =>
    have hhead : p.rest.head?.any (· == byte '-') = true := by rw [h]; rfl
    rw [hhead, if_pos rfl,
      jsonIntegerPart_complete hi (p := p.skip 1) (rest_skip_one h) hr (by rw [left_skip]; omega),
      skip_skip, List.length_cons, Nat.add_comm]

theorem endsDigits_exponent {e r : Bytes} {ex : Bool} (he : Optional IsExponent ex e)
    (hr : EndsNumber r) : (e ++ r).head?.any isDigit = false ∧
      (e ++ r).head?.any (· == byte '.') = false := by
  cases ex with
  | false =>
    obtain rfl : e = [] := he
    exact ⟨hr.digit, hr.ne (.inl rfl)⟩
  | true =>
    obtain ⟨hc, -, -, -⟩ : IsExponent e := he
    rcases hc with rfl | rfl <;> exact ⟨rfl, rfl⟩

theorem jsonParseNumber_parts {i f e r : Bytes} {c d : Bool} (hp : p.pos ≤ p.len) (hn : p.left < n)
    (hi : IsSigned i) (hf : Optional IsFraction c f) (he : Optional IsExponent d e)
    (h : p.rest = i ++ f ++ e ++ r) (hr : EndsNumber r) :
    ∃ q, p.Reaches q ∧ q.err = p.err ∧ q.heap = p.heap ∧ q.rest = r ∧
      jsonParseNumber n p = jsonNumberValue p.pos (c || d) q := by
  have hafter : (f ++ e ++ r).head?.any isDigit = false := by
    cases c with
    | false =>
      obtain rfl : f = [] := hf
      exact (endsDigits_exponent he hr).1
    | true =>
      obtain ⟨-, -⟩ : IsFraction f := hf
      rfl
  have hr₁ : (p.skip i.length).rest = f ++ (e ++ r) :=
    rest_skip_of_append (by rw [h]; simp only [List.append_assoc])
  have hsign := signedPart_complete (n := n) hi
    (r := f ++ e ++ r) (by rw [h]; simp only [List.append_assoc]) hafter hn
  have hfraction : jsonFraction n (p.skip i.length) =
      .ok (true, c, p.skip (i.length + f.length)) := by
    cases c with
    | false =>
      obtain rfl : f = [] := hf
      exact jsonFraction_absent (by rw [hr₁]; exact (endsDigits_exponent he hr).2)
    | true =>
      rw [jsonFraction_complete hf hr₁ (endsDigits_exponent he hr).1 (by rw [left_skip]; omega),
        skip_skip]
  have hr₂ : (p.skip (i.length + f.length)).rest = e ++ r := by
    rw [← skip_skip]
    exact rest_skip_of_append hr₁
  have hexponent : jsonExponent n (p.skip (i.length + f.length)) =
      .ok (true, d, p.skip (i.length + f.length + e.length)) := by
    cases d with
    | false =>
      obtain rfl : e = [] := he
      refine jsonExponent_absent ?_ ?_
      · rw [hr₂]
        exact hr.ne (.inr (.inl rfl))
      · rw [hr₂]
        exact hr.ne (.inr (.inr rfl))
    | true =>
      rw [jsonExponent_complete he hr₂ hr.digit (by rw [left_skip]; omega), skip_skip]
  refine ⟨p.skip (i.length + f.length + e.length), reaches_skip ?_ hp, rfl, rfl, ?_, ?_⟩
  · rw [h]
    simp only [List.length_append]
    omega
  · rw [← skip_skip]
    exact rest_skip_of_append hr₂
  · simp only [jsonParseNumber, looksAt_eq, ok_bind, hsign, hfraction, hexponent, Bool.not_true,
      Bool.false_eq_true, ↓reduceIte]

/-! Values. -/

/-- The parser of values, started at `p`, reads `j` and leaves `r`. -/
structure MakesValue (p : JsonParser) (j : Tree) (r : Bytes) (v : AerVal) (q : JsonParser) : Prop where
  arrives : Arrives p q r
  grows : Grows p.heap q.heap
  denotes : Denotes p.heap.Live q.heap v j

theorem jsonParseNumber_integer {s l r : Bytes} (hp : Within s p) (hw : p.heap.PoolsWf)
    (hn : p.left < n) (hl : IsSigned l) (h : p.rest = l ++ r) (hr : EndsNumber r) :
    ∃ v q, jsonParseNumber n p = .ok (v, q) ∧
      MakesValue p (.integer (strtoll (cutLiteral l))) r v q := by
  obtain ⟨q, hto, he, hheap, hrest, hq⟩ := jsonParseNumber_parts (f := []) (e := []) (c := false)
    (d := false) hp.inside hn hl rfl rfl (by rw [h, List.append_nil, List.append_nil]) hr
  rw [jsonNumberValue_eq hto (hrest ▸ h)] at hq
  refine ⟨_, _, hq, ⟨⟨hto.text, hto.forward, hto.inside⟩, he.trans hp.err, hrest⟩, ?_, ?_⟩
  · exact hheap ▸ grows_aerInt hw _
  · exact hheap ▸ denotes_integer hw _

theorem jsonParseNumber_real {s l r : Bytes} (hp : Within s p) (hn : p.left < n) (hl : IsReal l)
    (h : p.rest = l ++ r) (hr : EndsNumber r) :
    ∃ v q, jsonParseNumber n p = .ok (v, q) ∧ MakesValue p (.real l) r v q := by
  obtain ⟨i, f, e, fr, ex, hi, hf, he, heq, hreal⟩ : ∃ i f e fr ex, IsSigned i ∧
      Optional IsFraction fr f ∧ Optional IsExponent ex e ∧ l = i ++ f ++ e ∧ (fr || ex) = true := by
    cases hl with
    | @fraction i f hi hf => exact ⟨i, f, [], true, false, hi, hf, rfl, by simp, rfl⟩
    | @exponent i e hi he => exact ⟨i, [], e, false, true, hi, rfl, he, by simp, rfl⟩
    | @both i f e hi hf he => exact ⟨i, f, e, true, true, hi, hf, he, rfl, rfl⟩
  obtain ⟨q, hto, herr, hheap, hrest, hq⟩ :=
    jsonParseNumber_parts hp.inside hn hi hf he (heq ▸ h) hr
  rw [hreal, jsonNumberValue_eq hto (hrest ▸ h)] at hq
  exact ⟨_, _, hq, ⟨hto, herr.trans hp.err, hrest⟩, hheap ▸ .refl _ _, .real l⟩

theorem jsonLiteral_complete {lit r : Bytes} (hp : p.pos ≤ p.len) (h : p.rest = lit ++ r) (v : AerVal) :
    jsonLiteral p lit v = .ok (v, p.skip lit.length) := by
  have hlen := congrArg List.length h
  rw [List.length_append, length_rest, left] at hlen
  simp only [jsonLiteral, jsonMatchLiteral, if_neg (show ¬ p.len < p.pos + lit.length by omega),
    readMany_of_rest h hp, ok_bind, ↓reduceIte]
  rfl

theorem makesValue_literal {s l r : Bytes} {v : AerVal} {j : Tree} (hp : Within s p)
    (h : p.rest = l ++ r) (hd : Denotes p.heap.Live p.heap v j) :
    ∃ w q, jsonLiteral p l v = .ok (w, q) ∧ MakesValue p j r w q :=
  ⟨v, _, jsonLiteral_complete hp.inside h v,
    ⟨reaches_skip (by simp [h]) hp.inside, hp.err, rest_skip_of_append h⟩, .refl _ _, hd⟩

end Aer.Json
