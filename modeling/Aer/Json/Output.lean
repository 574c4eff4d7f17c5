import Aer.Json.RealText
import Aer.Json.RoundTrip

set_option linter.all false

/-! What the encoder writes is JSON, with the nesting and the keys of the value, exactly where
every real in the value is finite: the text of one infinity or NaN makes all of it unreadable. -/
namespace Aer.Json

open Aer.Data Aer.Memory Aer.Memory.Heap

/-! Where a value ends. -/

theorem Ws.eq_of_head {t u : Bytes} (h : Ws t u) (ht : t.head?.any isWs = false) : t = u := by
  cases h with
  | none => rfl
  | more hb _ =>
    rw [List.head?_cons, Option.any_some, hb] at ht
    cases ht

theorem Ws.cons_inj {b c : UInt8} {t u : Bytes} (h : Ws (b :: t) (c :: u)) (hb : isWs b = false) :
    b = c ∧ t = u :=
  List.cons.inj (h.eq_of_head hb)

theorem value_unique {j k : Tree} {t r u : Bytes} (h : Value lenient j t r)
    (h' : Value lenient k t u) (hr : EndsNumber r) (hu : EndsNumber u) (ht : t.length < 2 ^ 32) :
    r = u := by
  let p : JsonParser := { s := t, pos := 0, err := none, heap := .init }
  have hp : Within t p := ⟨rfl, Nat.zero_le _, rfl⟩
  have hleft : p.left < t.length + 1 := Nat.lt_succ_self _
  obtain ⟨v, q, hq, hm⟩ := completes_of_derives h ht p _ hp poolsWf_init hleft (.none _) hr
  obtain ⟨w, s, hs, hm'⟩ := completes_of_derives h' ht p _ hp poolsWf_init hleft (.none _) hu
  rw [hq] at hs
  cases hs
  exact hm.arrives.rest.symm.trans hm'.arrives.rest

/-- A text that stands for a value, whatever comes after it. -/
def Readable (t : Bytes) : Prop := ∃ j, ∀ r, Value lenient j (t ++ r) r

/-- A text no value begins with. -/
structure Unreadable (t : Bytes) : Prop where
  head : ∃ b u, t = b :: u ∧ isWs b = false ∧ b ≠ byte ']'
  not_value : ∀ j r u, (t ++ r).length < 2 ^ 32 → ¬ Value lenient j (t ++ r) u

theorem Unreadable.not_derives {t r t₁ t₂ : Bytes} {j : Tree} (h : Unreadable t)
    (hlen : (t ++ r).length < 2 ^ 32) (h₁ : Ws (t ++ r) t₁) : ¬ Value lenient j t₁ t₂ := by
  obtain ⟨b, u, rfl, hb, -⟩ := h.head
  rw [← h₁.eq_of_head hb]
  exact h.not_value j r t₂ hlen

/-- Behind a readable text the derivation goes on where the text ends. -/
theorem Readable.ends {t r t₁ t₂ t₃ : Bytes} {j : Tree} {b c : UInt8} (h : Readable t)
    (hlen : (t ++ b :: r).length < 2 ^ 32) (h₁ : Ws (t ++ b :: r) t₁) (hj : Value lenient j t₁ t₂)
    (h₂ : Ws t₂ (c :: t₃)) (hb : b = byte ',' ∨ b = byte ']' ∨ b = byte '}')
    (hc : c = byte ',' ∨ c = byte ']' ∨ c = byte '}') : b = c ∧ r = t₃ := by
  obtain ⟨k, hk⟩ := h
  have hends (b : UInt8) (hb : b = byte ',' ∨ b = byte ']' ∨ b = byte '}') (r : Bytes) :
      EndsNumber (b :: r) ∧ isWs b = false := by
    rcases hb with rfl | rfl | rfl <;> exact ⟨rfl, by decide⟩
  rw [← h₁.eq_of_head (value_stop (hk _))] at hj
  obtain rfl := value_unique (hk _) hj (hends b hb r).1 (h₂.endsNumber (hends c hc t₃).1) hlen
  exact h₂.cons_inj (hends b hb r).2

/-! The text of a real that is not finite. -/

theorem IsInteger.head_digit {i r t : Bytes} {b : UInt8} (h : IsInteger i) (heq : i ++ r = b :: t) :
    isDigit b = true := by
  cases h with
  | zero =>
    rw [← (List.cons.inj heq).1]
    decide
  | digits hd _ _ => exact (List.cons.inj heq).1 ▸ hd

theorem IsSigned.after_minus {l r t : Bytes} {b : UInt8} (h : IsSigned l)
    (heq : l ++ r = byte '-' :: b :: t) : isDigit b = true := by
  cases h with
  | plus h => exact absurd (h.head_digit heq) (by decide)
  | minus h => exact h.head_digit (List.cons.inj heq).2

theorem IsReal.after_minus {l r t : Bytes} {b : UInt8} (h : IsReal l)
    (heq : l ++ r = byte '-' :: b :: t) : isDigit b = true := by
  cases h with
  | fraction hi _ | exponent hi _ =>
    rw [List.append_assoc] at heq
    exact hi.after_minus heq
  | both hi _ _ =>
    rw [List.append_assoc, List.append_assoc] at heq
    exact hi.after_minus heq

theorem not_value_minus {j : Tree} {b : UInt8} {t u : Bytes} (hb : isDigit b = false) :
    ¬ Value lenient j (byte '-' :: b :: t) u := by
  intro h
  generalize hx : byte '-' :: b :: t = x at h
  have hdigit : isDigit b = true := by
    cases h with
    | integer hl _ _ => exact hl.after_minus hx.symm
    | real hl _ => exact hl.after_minus hx.symm
    | null | true | false | string _ | emptyArray _ | array _ | emptyObject _ | object _ =>
      exact absurd (List.cons.inj hx).1 (by decide)
  rw [hb] at hdigit
  cases hdigit

theorem starts_ne {l r t : Bytes} {c : UInt8} (hl : ∃ b u, l ++ r = b :: u ∧ StartsNumber b)
    (hc : c ≠ byte '-') (hd : isDigit c = false) : c :: t ≠ l ++ r := by
  intro heq
  obtain ⟨b, u, hlr, hb⟩ := hl
  rw [hlr] at heq
  exact hb.ne hc hd (List.cons.inj heq).1.symm

theorem not_value_inf {j : Tree} {t u : Bytes} : ¬ Value lenient j (bytes "inf" ++ t) u := by
  intro h
  generalize hx : bytes "inf" ++ t = x at h
  cases h with
  | integer hl _ _ => exact absurd hx (starts_ne (hl.starts _) (by decide) (by decide))
  | real hl _ => exact absurd hx (starts_ne (hl.starts _) (by decide) (by decide))
  | null | true | false | string _ | emptyArray _ | array _ | emptyObject _ | object _ =>
    exact absurd (List.cons.inj hx).1 (by decide)

theorem not_value_nan {j : Tree} {t u : Bytes} : ¬ Value lenient j (bytes "nan" ++ t) u := by
  intro h
  generalize hx : bytes "nan" ++ t = x at h
  cases h with
  | integer hl _ _ => exact absurd hx (starts_ne (hl.starts _) (by decide) (by decide))
  | real hl _ => exact absurd hx (starts_ne (hl.starts _) (by decide) (by decide))
  | null => exact absurd (List.cons.inj (List.cons.inj hx).2).1 (by decide)
  | true | false | string _ | emptyArray _ | array _ | emptyObject _ | object _ =>
    exact absurd (List.cons.inj hx).1 (by decide)

theorem unreadable_formatG {x : Double} (h : ¬ IsFinite x) : Unreadable x.formatG := by
  have hword : x.formatG = (if x.isNeg then [byte '-'] else []) ++ bytes "nan" ∨
      x.formatG = (if x.isNeg then [byte '-'] else []) ++ bytes "inf" := by
    unfold Double.formatG
    cases hnan : x.isNaN with
    | true => exact .inl rfl
    | false =>
      cases hinf : x.isInf with
      | true => exact .inr rfl
      | false => exact absurd ⟨hnan, hinf⟩ h
  cases hneg : x.isNeg with
  | true =>
    rw [hneg] at hword
    rcases hword with hword | hword <;> rw [hword]
    · exact ⟨⟨_, _, rfl, by decide, by decide⟩, fun _ _ _ _ => not_value_minus (by decide)⟩
    · exact ⟨⟨_, _, rfl, by decide, by decide⟩, fun _ _ _ _ => not_value_minus (by decide)⟩
  | false =>
    rw [hneg] at hword
    rcases hword with hword | hword <;> rw [hword]
    · exact ⟨⟨_, _, rfl, by decide, by decide⟩, fun _ _ _ _ => not_value_nan⟩
    · exact ⟨⟨_, _, rfl, by decide, by decide⟩, fun _ _ _ _ => not_value_inf⟩

/-! Containers with an unreadable part. -/

theorem not_derives_items {texts : List Bytes} (hall : ∀ t ∈ texts, Readable t ∨ Unreadable t)
    (hbad : ∃ t ∈ texts, Unreadable t) {js : List Tree} {r u : Bytes}
    (hlen : (joinCommas true texts ++ byte ']' :: r).length < 2 ^ 32) :
    ¬ Derives lenient (.items js) (joinCommas true texts ++ byte ']' :: r) u := by
  induction texts generalizing js with
  | nil => simp at hbad
  | cons t ts ih =>
    intro h
    -- What stands behind the first text.
    obtain ⟨b, rest, heq, hb⟩ : ∃ b rest, joinCommas true (t :: ts) ++ byte ']' :: r =
        t ++ b :: rest ∧ (b = byte ']' ∧ ts = [] ∨
          b = byte ',' ∧ rest = joinCommas true ts ++ byte ']' :: r) := by
      cases ts with
      | nil => exact ⟨byte ']', r, by simp [joinCommas], .inl ⟨rfl, rfl⟩⟩
      | cons s ss =>
        refine ⟨byte ',', _, ?_, .inr ⟨rfl, rfl⟩⟩
        rw [joinCommas_cons t (List.cons_ne_nil s ss), List.append_assoc, List.cons_append]
    rw [heq] at h hlen
    rcases hall t List.mem_cons_self with hgood | hunread
    · obtain ⟨s, hs, hsbad⟩ := hbad
      have hs : s ∈ ts := by
        rcases List.mem_cons.mp hs with rfl | hs
        · obtain ⟨j, hj⟩ := hgood
          exact absurd (hj _) (hsbad.not_value j (b :: rest) _ hlen)
        · exact hs
      obtain ⟨rfl, rfl⟩ : b = byte ',' ∧ rest = joinCommas true ts ++ byte ']' :: r := by
        rcases hb with ⟨-, rfl⟩ | hb
        · cases hs
        · exact hb
      cases h with
      | lastItem h₁ hj h₂ =>
        have := (hgood.ends hlen h₁ hj h₂ (.inl rfl) (.inr (.inl rfl))).1
        exact absurd this (by decide)
      | nextItem h₁ hj h₂ hjs =>
        obtain ⟨-, rfl⟩ := hgood.ends hlen h₁ hj h₂ (.inl rfl) (.inl rfl)
        refine ih (fun x hx => hall x (List.mem_cons_of_mem _ hx)) ⟨s, hs, hsbad⟩ ?_ hjs
        rw [List.length_append, List.length_cons] at hlen
        omega
    · cases h with
      | lastItem h₁ hj _ | nextItem h₁ hj _ _ => exact hunread.not_derives hlen h₁ hj

theorem not_derives_members {ms : List (Bytes × Bytes)}
    (hall : ∀ m ∈ ms, Readable m.2 ∨ Unreadable m.2) (hbad : ∃ m ∈ ms, Unreadable m.2)
    {ks : List (Bytes × Tree)} {r u : Bytes}
    (hlen : (joinCommas true (ms.map fun m => memberText m.1 m.2) ++ byte '}' :: r).length < 2 ^ 32) :
    ¬ Derives lenient (.members ks)
      (joinCommas true (ms.map fun m => memberText m.1 m.2) ++ byte '}' :: r) u := by
  induction ms generalizing ks with
  | nil => simp at hbad
  | cons m ms ih =>
    intro h
    obtain ⟨b, rest, heq, hb⟩ : ∃ b rest,
        joinCommas true ((m :: ms).map fun m => memberText m.1 m.2) ++ byte '}' :: r =
        quote :: (m.1.flatMap jsonEncodeByte ++ quote :: byte ':' :: (m.2 ++ b :: rest)) ∧
          (b = byte '}' ∧ ms = [] ∨
            b = byte ',' ∧
              rest = joinCommas true (ms.map fun m => memberText m.1 m.2) ++ byte '}' :: r) := by
      cases ms with
      | nil => exact ⟨byte '}', r, by simp [joinCommas, memberText, stringText], .inl ⟨rfl, rfl⟩⟩
      | cons s ss =>
        refine ⟨byte ',', _, ?_, .inr ⟨rfl, rfl⟩⟩
        rw [List.map_cons, joinCommas_cons _ (by simp)]
        simp [memberText, stringText]
    rw [heq] at h hlen
    have hkey : Chars lenient (m.1.flatMap jsonEncodeByte ++ quote :: byte ':' :: (m.2 ++ b :: rest))
        m.1 (byte ':' :: (m.2 ++ b :: rest)) :=
      (chars_encoded _ _).within rfc8259Long_within_lenient
    have hlen : (m.2 ++ b :: rest).length < 2 ^ 32 := by
      simp only [List.length_cons, List.length_append] at hlen ⊢
      omega
    -- The key and the colon are read as they were written.
    have hvalue {t₁ t₂ t₃ t₄ k : Bytes}
        (h₁ : Ws (quote :: (m.1.flatMap jsonEncodeByte ++ quote :: byte ':' :: (m.2 ++ b :: rest)))
          (quote :: t₁)) (hk : Chars lenient t₁ k t₂) (h₂ : Ws t₂ (byte ':' :: t₃)) (h₃ : Ws t₃ t₄) :
        Ws (m.2 ++ b :: rest) t₄ := by
      obtain ⟨-, rfl⟩ := h₁.cons_inj (by decide)
      obtain ⟨-, rfl⟩ := hkey.unique hk
      obtain ⟨-, rfl⟩ := h₂.cons_inj (by decide)
      exact h₃
    rcases hall m List.mem_cons_self with hgood | hunread
    · obtain ⟨s, hs, hsbad⟩ := hbad
      have hs : s ∈ ms := by
        rcases List.mem_cons.mp hs with rfl | hs
        · obtain ⟨j, hj⟩ := hgood
          exact absurd (hj _) (hsbad.not_value j (b :: rest) _ hlen)
        · exact hs
      obtain ⟨rfl, rfl⟩ : b = byte ',' ∧
          rest = joinCommas true (ms.map fun m => memberText m.1 m.2) ++ byte '}' :: r := by
        rcases hb with ⟨-, rfl⟩ | hb
        · cases hs
        · exact hb
      cases h with
      | lastMember h₁ hk h₂ h₃ hj h₄ =>
        have := (hgood.ends hlen (hvalue h₁ hk h₂ h₃) hj h₄ (.inl rfl) (.inr (.inr rfl))).1
        exact absurd this (by decide)
      | nextMember h₁ hk h₂ h₃ hj h₄ hms =>
        obtain ⟨-, rfl⟩ := hgood.ends hlen (hvalue h₁ hk h₂ h₃) hj h₄ (.inl rfl) (.inl rfl)
        refine ih (fun x hx => hall x (List.mem_cons_of_mem _ hx)) ⟨s, hs, hsbad⟩ ?_ hms
        rw [List.length_append, List.length_cons] at hlen
        omega
    · cases h with
      | lastMember h₁ hk h₂ h₃ hj _ | nextMember h₁ hk h₂ h₃ hj _ _ =>
        exact hunread.not_derives hlen (hvalue h₁ hk h₂ h₃) hj

theorem value_bracket {d : Dialect} {j : Tree} {t r : Bytes} (h : Value d j (byte '[' :: t) r) :
    Ws t (byte ']' :: r) ∨ ∃ js, Derives d (.items js) t r := by
  generalize hx : byte '[' :: t = x at h
  cases h with
  | emptyArray h => exact .inl ((List.cons.inj hx).2 ▸ h)
  | array h => exact .inr ⟨_, (List.cons.inj hx).2 ▸ h⟩
  | integer hl _ _ => exact absurd hx (starts_ne (hl.starts _) (by decide) (by decide))
  | real hl _ => exact absurd hx (starts_ne (hl.starts _) (by decide) (by decide))
  | null | true | false | string _ | emptyObject _ | object _ =>
    exact absurd (List.cons.inj hx).1 (by decide)

theorem value_brace {d : Dialect} {j : Tree} {t r : Bytes} (h : Value d j (byte '{' :: t) r) :
    Ws t (byte '}' :: r) ∨ ∃ ms, Derives d (.members ms) t r := by
  generalize hx : byte '{' :: t = x at h
  cases h with
  | emptyObject h => exact .inl ((List.cons.inj hx).2 ▸ h)
  | object h => exact .inr ⟨_, (List.cons.inj hx).2 ▸ h⟩
  | integer hl _ _ => exact absurd hx (starts_ne (hl.starts _) (by decide) (by decide))
  | real hl _ => exact absurd hx (starts_ne (hl.starts _) (by decide) (by decide))
  | null | true | false | string _ | emptyArray _ | array _ =>
    exact absurd (List.cons.inj hx).1 (by decide)

theorem Readable.head {t : Bytes} (h : Readable t) :
    ∃ b u, t = b :: u ∧ isWs b = false ∧ b ≠ byte ']' := by
  obtain ⟨j, hj⟩ := h
  obtain ⟨b, u, hu, hb⟩ := value_head (hj [])
  exact ⟨b, u, by rwa [List.append_nil] at hu, hb⟩

theorem unreadable_array {texts : List Bytes} (hall : ∀ t ∈ texts, Readable t ∨ Unreadable t)
    (hbad : ∃ t ∈ texts, Unreadable t) :
    Unreadable (byte '[' :: joinCommas true texts ++ [byte ']']) := by
  refine ⟨⟨_, _, rfl, by decide, by decide⟩, fun j r u hlen h => ?_⟩
  rw [List.append_assoc, List.cons_append, List.singleton_append] at h hlen
  rcases value_bracket h with hempty | ⟨js, hjs⟩
  · obtain ⟨t, ts, rfl⟩ := List.exists_cons_of_ne_nil (fun hnil : texts = [] => by simp [hnil] at hbad)
    obtain ⟨b, v, rfl, hb, hne⟩ := (hall t List.mem_cons_self).elim Readable.head Unreadable.head
    exact hne (hempty.cons_inj hb).1
  · refine not_derives_items hall hbad ?_ hjs
    rw [List.length_cons] at hlen
    omega

theorem unreadable_object {ms : List (Bytes × Bytes)}
    (hall : ∀ m ∈ ms, Readable m.2 ∨ Unreadable m.2) (hbad : ∃ m ∈ ms, Unreadable m.2) :
    Unreadable (byte '{' :: joinCommas true (ms.map fun m => memberText m.1 m.2) ++ [byte '}']) := by
  refine ⟨⟨_, _, rfl, by decide, by decide⟩, fun j r u hlen h => ?_⟩
  rw [List.append_assoc, List.cons_append, List.singleton_append] at h hlen
  rcases value_brace h with hempty | ⟨ks, hks⟩
  · obtain ⟨m, ms, rfl⟩ := List.exists_cons_of_ne_nil (fun hnil : ms = [] => by simp [hnil] at hbad)
    have hquote : ∃ v, joinCommas true ((m :: ms).map fun m => memberText m.1 m.2) ++ byte '}' :: r =
        quote :: v := ⟨_, rfl⟩
    obtain ⟨v, hv⟩ := hquote
    rw [hv] at hempty
    exact absurd (hempty.cons_inj (by decide)).1 (by decide)
  · refine not_derives_members hall hbad ?_ hks
    rw [List.length_cons] at hlen
    omega

end Aer.Json
