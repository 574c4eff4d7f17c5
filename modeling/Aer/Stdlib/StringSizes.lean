import Aer.Stdlib.Strings

set_option linter.all false

/-! The buffers of the string operations against what is written to them. -/
namespace Aer.Stdlib

open Aer.Data Aer.Lib

theorem u32_natCast (n : Nat) : u32 n = n % 2 ^ 32 := by
  unfold u32
  omega

theorem u32_of_lt {n : Nat} (h : n < 2 ^ 32) : u32 n = n := by
  rw [u32_natCast, Nat.mod_eq_of_lt h]

@[simp] theorem ok_bind {α β : Type} (a : α) (f : α → Call β) : (Except.ok a >>= f) = f a := rfl

@[simp] theorem undefined_bind {α β : Type} (f : α → Call β) : (undefined >>= f) = undefined := rfl

@[simp] theorem fail_bind {α β : Type} (msg : String) (f : α → Call β) :
    (fail msg >>= f) = fail msg := rfl

@[simp] theorem bind_ok {α : Type} (x : Call α) : (x >>= fun a => Except.ok a) = x := by
  cases x <;> rfl

/-- Chunks copied one behind the other, with the position in 32 bits. -/
def writeChunks (chunks : List Bytes) (pos : Nat) (buf : Bytes) : Call Bytes :=
  orUndefined (Block.writeAll (2 ^ 32) chunks pos buf)

@[simp] theorem writeChunks_nil (pos : Nat) (buf : Bytes) : writeChunks [] pos buf = .ok buf := rfl

theorem writeChunks_cons (src : Bytes) (chunks : List Bytes) (pos : Nat) (buf : Bytes) :
    writeChunks (src :: chunks) pos buf =
      memcpy buf pos src >>= fun buf => writeChunks chunks ((pos + src.length) % 2 ^ 32) buf := by
  rw [writeChunks, Block.writeAll, memcpy]
  cases Block.write buf pos src <;> rfl

/-- A string built from chunks written one behind the other: the computed size holds them
unless their length and the NUL do not fit into 32 bits. -/
theorem build_eq {filled : Bytes → Call Bytes} {len : Nat} (chunks : List Bytes)
    (hlen : len = chunks.flatten.length % 2 ^ 32)
    (hfilled : ∀ buf, filled buf = writeChunks chunks 0 buf) :
    build len filled =
      if chunks.flatten.length + 1 < 2 ^ 32 then .ok chunks.flatten else undefined := by
  have hsize : u32 (len + 1) = (chunks.flatten.length + 1) % 2 ^ 32 := by
    rw [hlen]
    unfold u32
    omega
  generalize hT : chunks.flatten.length = T at *
  unfold build
  rw [hfilled, hsize, writeChunks, Block.writeAll_eq]
  · split
    · next hfits =>
      rw [Nat.mod_eq_of_lt hfits, Block.write_of_le (by simp [hT])]
      obtain rfl : len = T := by omega
      simp only [orUndefined, ok_bind, List.take_zero, List.nil_append, Nat.zero_add, hT,
        List.drop_replicate]
      rw [memcpy, Block.write_of_le (by simp [hT])]
      simp only [orUndefined, ok_bind]
      rw [List.append_assoc, List.take_left' (by simp [hT]), List.take_left' hT]
      rfl
    · next hover =>
      rw [Block.write_of_lt]
      · rfl
      · rw [List.length_replicate, hT]
        omega
  · rw [List.length_replicate]
    exact Nat.mod_lt _ (by decide)
  · exact Nat.zero_le _

theorem stringConcat_eq {a b : Bytes} (ha : a.length < 2 ^ 32) :
    stringConcat a b =
      if (a ++ b).length + 1 < 2 ^ 32 then .ok (a ++ b) else undefined := by
  have hflat : [a, b].flatten = a ++ b := by simp
  rw [← hflat]
  refine build_eq [a, b] ?_ fun buf => ?_
  · rw [hflat, List.length_append]
    exact u32_natCast _
  · rw [writeChunks_cons, Nat.zero_add, Nat.mod_eq_of_lt ha]
    congr 1
    funext buf
    rw [writeChunks_cons]
    exact (bind_ok _).symm

theorem repeatLoop_eq (s : Bytes) (n i : Nat) (buf : Bytes) :
    repeatLoop s n i buf =
      writeChunks (List.replicate n s) (i * s.length % 2 ^ 32) buf := by
  induction n generalizing i buf with
  | zero => rfl
  | succ n ih =>
    have hpos : u32 (u32 i * s.length) = i * s.length % 2 ^ 32 := by
      rw [u32_natCast i]
      exact (u32_natCast _).trans (Nat.mod_mul_mod _ _ _)
    have hnext : (i * s.length % 2 ^ 32 + s.length) % 2 ^ 32 = (i + 1) * s.length % 2 ^ 32 := by
      rw [Nat.succ_mul]
      omega
    rw [repeatLoop, hpos, List.replicate_succ, writeChunks_cons, hnext]
    congr 1
    funext buf
    exact ih (i + 1) buf

theorem stringRepeat_eq {s : Bytes} {n : Int} (hn : 0 ≤ n) :
    stringRepeat s n =
      if s.length * n.toNat + 1 < 2 ^ 32 then .ok (List.replicate n.toNat s).flatten
      else undefined := by
  have hlen : (List.replicate n.toNat s).flatten.length = s.length * n.toNat := by
    simp [Nat.mul_comm]
  rw [stringRepeat, if_neg (by omega), ← hlen]
  refine build_eq _ ?_ fun buf => ?_
  · rw [hlen]
    obtain ⟨m, rfl⟩ := Int.eq_ofNat_of_zero_le hn
    rw [u32_natCast m]
    exact (u32_natCast _).trans (Nat.mul_mod_mod _ _ _)
  · rw [repeatLoop_eq, Nat.zero_mul, Nat.zero_mod]

/-- The chunks that `join` copies. -/
def joinChunks (sep : Bytes) : Nat → List Bytes → List Bytes
  | _, [] => []
  | i, item :: items => (if 0 < i then [sep, item] else [item]) ++ joinChunks sep (i + 1) items

theorem joinLoop_eq (sep : Bytes) (i : Nat) (items : List Bytes) (pos : Nat) (buf : Bytes) :
    joinLoop sep i items pos buf = writeChunks (joinChunks sep i items) pos buf := by
  induction items generalizing i pos buf with
  | nil => rfl
  | cons item items ih =>
    have hnext (p n : Nat) : u32 (p + n) = (p + n) % 2 ^ 32 := u32_natCast _
    unfold joinLoop joinChunks
    split
    · simp only [List.cons_append, List.nil_append, writeChunks_cons, hnext, ih, bind_assoc, pure_bind]
    · simp only [List.cons_append, List.nil_append, writeChunks_cons, hnext, ih, pure_bind]

theorem flatten_joinChunks_succ (sep : Bytes) (i : Nat) (items : List Bytes) :
    (joinChunks sep (i + 1) items).flatten = items.flatMap (sep ++ ·) := by
  induction items generalizing i with
  | nil => rfl
  | cons item items ih =>
    rw [joinChunks, if_pos (Nat.succ_pos i), List.flatten_append, ih, List.flatMap_cons]
    simp

theorem intercalate_cons (sep item : Bytes) (items : List Bytes) :
    sep.intercalate (item :: items) = item ++ items.flatMap (sep ++ ·) := by
  induction items generalizing item with
  | nil => simp
  | cons item' items ih =>
    rw [List.intercalate_cons_cons, ih, List.flatMap_cons]
    simp

theorem flatten_joinChunks (sep : Bytes) (items : List Bytes) :
    (joinChunks sep 0 items).flatten = sep.intercalate items := by
  cases items with
  | nil => rfl
  | cons item items =>
    rw [joinChunks, List.flatten_append, flatten_joinChunks_succ, intercalate_cons]
    simp

theorem foldl_lengths (items : List Bytes) (n : Nat) :
    items.foldl (fun total item => u32 (total + item.length)) (n % 2 ^ 32) =
      (n + (items.map List.length).sum) % 2 ^ 32 := by
  induction items generalizing n with
  | nil => rfl
  | cons item items ih =>
    have hnext : u32 ((n % 2 ^ 32 : Nat) + item.length) = (n + item.length) % 2 ^ 32 :=
      (u32_natCast _).trans (Nat.mod_add_mod _ _ _)
    rw [List.foldl_cons, hnext, ih, List.map_cons, List.sum_cons, Nat.add_assoc]

theorem length_intercalate (sep : Bytes) (items : List Bytes) :
    (sep.intercalate items).length =
      (items.length - 1) * sep.length + (items.map List.length).sum := by
  cases items with
  | nil => simp
  | cons item items =>
    rw [intercalate_cons, List.length_append, List.length_flatMap]
    induction items with
    | nil => simp
    | cons item' items ih =>
      simp only [List.map_cons, List.sum_cons, List.length_cons, Nat.add_sub_cancel,
        List.length_append, Nat.succ_mul] at ih ⊢
      omega

theorem stringJoin_eq (arr : List Bytes) (sep : Bytes) :
    stringJoin arr sep =
      if (sep.intercalate arr).length + 1 < 2 ^ 32 then .ok (sep.intercalate arr)
      else undefined := by
  have hseps : (if 0 < arr.length then u32 ((arr.length - 1) * sep.length) else 0) =
      (arr.length - 1) * sep.length % 2 ^ 32 := by
    split
    · next hpos =>
      have hcount : (arr.length : Int) - 1 = (arr.length - 1 : Nat) := by omega
      rw [hcount]
      exact u32_natCast _
    · next hzero =>
      rw [Nat.eq_zero_of_not_pos hzero, Nat.zero_sub, Nat.zero_mul, Nat.zero_mod]
  rw [← flatten_joinChunks]
  refine build_eq (joinChunks sep 0 arr) ?_ fun buf => joinLoop_eq sep 0 arr 0 buf
  rw [hseps, foldl_lengths, flatten_joinChunks, length_intercalate]

/-! The scans of `replace`, at a position behind which `r` is left of the string. -/

section Positions
variable {s sep r : Bytes} {i : Nat}

theorem length_of_drop (hi : i ≤ s.length) (hr : s.drop i = r) : i + r.length = s.length := by
  rw [← hr, List.length_drop]
  omega

theorem drop_of_hit (hr : s.drop i = sep ++ r) : s.drop (i + sep.length) = r := by
  rw [← List.drop_drop, hr, List.drop_left]

theorem drop_of_step {c : UInt8} (hr : s.drop i = c :: r) : s.drop (i + 1) = r := by
  rw [← List.drop_drop, hr]
  rfl

theorem sameAt_of_le (hle : i + sep.length ≤ s.length) :
    sameAt s i sep = .ok (decide (sep <+: s.drop i)) := by
  have hiff : ((s.drop i).take sep.length == sep) = decide (sep <+: s.drop i) := by
    rw [Bool.eq_iff_iff, beq_iff_eq, decide_eq_true_iff, List.prefix_iff_eq_take]
    exact eq_comm
  rw [sameAt, readAt, if_pos hle, ← hiff]
  rfl

theorem sameAt_of_lt (hlt : s.length < i + sep.length) : sameAt s i sep = undefined := by
  rw [sameAt, readAt, if_neg (by omega)]
  rfl

theorem foundAt_of_lt (hi : i ≤ s.length) (hlt : i + sep.length < 2 ^ 32) :
    foundAt s i sep = .ok (decide (sep <+: s.drop i)) := by
  have hsum : u32 (i + sep.length) = i + sep.length := u32_of_lt hlt
  rw [foundAt, hsum]
  split
  · next hle => exact sameAt_of_le hle
  · next hover =>
    have hno : ¬ sep <+: s.drop i := fun hpre => by
      have hlen := hpre.length_le
      rw [List.length_drop] at hlen
      omega
    rw [decide_eq_false hno]

/-- A sum that wraps passes the check, and the comparison reads behind the string. -/
theorem foundAt_of_wraps (hi : i ≤ s.length) (hsep : sep.length < 2 ^ 32)
    (hs : s.length < 2 ^ 32) (hwraps : 2 ^ 32 ≤ i + sep.length) : foundAt s i sep = undefined := by
  have hsum : u32 (i + sep.length) = i + sep.length - 2 ^ 32 := by
    unfold u32
    omega
  rw [foundAt, hsum, if_pos (by omega), sameAt_of_lt (by omega)]

end Positions

/-- The positions of both scans stay so far below 2^32 that the length of `old` may be added: the
first scan adds it at the end of the string too, if the string ends with a match. -/
def ScanInRange (s old : Bytes) (ps : List Bytes) : Prop :=
  s.length + old.length < 2 ^ 32 ∨
    s.length + old.length = 2 ^ 32 ∧ 2 ≤ old.length ∧ ps.getLast? ≠ some []

section Scans
variable {s old new r : Bytes} {ps : List Bytes} {i : Nat}

theorem ScanInRange.le (h : ScanInRange s old ps) : s.length + old.length ≤ 2 ^ 32 := by
  rcases h with h | h <;> omega

/-- The last piece behind a step is empty only where the string is used up. -/
theorem getLast?_of_step {c : UInt8} {p : Bytes} (h : Splitting.Scan old r (p :: ps)) (hr : r ≠ [])
    (hlast : ((c :: p) :: ps).getLast? ≠ some []) : (p :: ps).getLast? ≠ some [] := by
  cases ps with
  | cons q ps => exact hlast
  | nil =>
    intro hnil
    obtain rfl : p = [] := by simpa using hnil
    have hjoin := h.intercalate
    rw [List.intercalate_singleton] at hjoin
    exact hr hjoin.symm

theorem countMatches_eq (hold : old ≠ []) (hscan : Splitting.Scan old r ps) (hi : i ≤ s.length)
    (hr : s.drop i = r) (hrange : ScanInRange s old ps) {fuel : Nat} (hfuel : r.length < fuel)
    (m : Nat) :
    countMatches s old fuel i (m % 2 ^ 32) = .ok ((m + (ps.length - 1)) % 2 ^ 32) := by
  have hpos := List.length_pos_of_ne_nil hold
  induction hscan generalizing i fuel m with
  | nil =>
    obtain ⟨fuel, rfl⟩ : ∃ n, fuel = n + 1 := ⟨fuel - 1, by simp at hfuel; omega⟩
    have hend := length_of_drop hi hr
    have hlt : s.length + old.length < 2 ^ 32 := by
      rcases hrange with h | ⟨_, _, h⟩
      · exact h
      · exact absurd rfl h
    have hsum : u32 (i + old.length) = i + old.length := u32_of_lt (by simp at hend; omega)
    rw [countMatches, hsum, if_neg (by simp at hend; omega)]
    rfl
  | @hit r ps h ih =>
    obtain ⟨fuel, rfl⟩ : ∃ n, fuel = n + 1 := ⟨fuel - 1, by omega⟩
    have hend := length_of_drop hi hr
    rw [List.length_append] at hend hfuel
    have hle := hrange.le
    have hsum : u32 (i + old.length) = i + old.length := u32_of_lt (by omega)
    have hnext : u32 ((m % 2 ^ 32 : Nat) + 1) = (m + 1) % 2 ^ 32 := (u32_natCast _).trans (Nat.mod_add_mod _ _ _)
    have hrange' : ScanInRange s old ps := by
      obtain ⟨p, ps, rfl⟩ := List.exists_cons_of_ne_nil h.ne_nil
      exact hrange
    have hcount : m + 1 + (ps.length - 1) = m + (([] :: ps).length - 1) := by
      have := List.length_pos_of_ne_nil h.ne_nil
      simp only [List.length_cons]
      omega
    rw [countMatches, hsum, if_pos (by omega), sameAt_of_le (by omega), hr, hnext, ok_bind,
      if_pos (by simp), ih (by omega) (drop_of_hit hr) hrange' (by omega), hcount]
  | @step c r p ps hno h ih =>
    obtain ⟨fuel, rfl⟩ : ∃ n, fuel = n + 1 := ⟨fuel - 1, by omega⟩
    have hend := length_of_drop hi hr
    rw [List.length_cons] at hend hfuel
    have hle := hrange.le
    have hsum : u32 (i + old.length) = i + old.length := u32_of_lt (by omega)
    have hnext : u32 (i + 1) = i + 1 := u32_of_lt (n := i + 1) (by omega)
    rw [countMatches, hsum]
    split
    · next hin =>
      have hrange' : ScanInRange s old (p :: ps) := by
        refine hrange.imp_right fun ⟨heq, htwo, hlast⟩ => ⟨heq, htwo, getLast?_of_step h ?_ hlast⟩
        rintro rfl
        simp at hend
        omega
      rw [sameAt_of_le hin, hr, ok_bind, if_neg (by simpa using hno), hnext,
        ih (by omega) (drop_of_step hr) hrange' (by omega)]
      rfl
    · next hout =>
      have hone := (Splitting.Scan.step hno h).of_length_lt (by simp; omega)
      rw [hone]
      rfl

/-- The first scan of a string that ends with a match, or for a single byte, comes to the end. -/
theorem countMatches_undefined (hold : old ≠ []) (hscan : Splitting.Scan old r ps)
    (hi : i ≤ s.length) (hr : s.drop i = r) (hs : s.length < 2 ^ 32) (ho : old.length < 2 ^ 32)
    (hover : 2 ^ 32 ≤ s.length + old.length) (hend : old.length = 1 ∨ ps.getLast? = some [])
    {fuel : Nat} (m : Nat) : countMatches s old fuel i m = undefined := by
  have hpos := List.length_pos_of_ne_nil hold
  have hlen := length_of_drop hi hr
  induction hscan generalizing i fuel m with
  | nil =>
    cases fuel with
    | zero => rfl
    | succ fuel =>
      obtain rfl : i = s.length := by simpa using hlen
      have hsum : u32 (s.length + old.length) ≤ s.length := by
        unfold u32
        omega
      rw [countMatches, if_pos hsum, sameAt_of_lt (by omega)]
      rfl
  | @hit r ps h ih =>
    cases fuel with
    | zero => rfl
    | succ fuel =>
      rw [List.length_append] at hlen
      have hsum : u32 (i + old.length) = i + old.length := u32_of_lt (by omega)
      have hend' : old.length = 1 ∨ ps.getLast? = some [] := by
        obtain ⟨p, ps, rfl⟩ := List.exists_cons_of_ne_nil h.ne_nil
        exact hend
      rw [countMatches, hsum, if_pos (by omega), sameAt_of_le (by omega), hr, ok_bind,
        if_pos (by simp)]
      exact ih (by omega) (drop_of_hit hr) hend' _ (by omega)
  | @step c r p ps hno h ih =>
    cases fuel with
    | zero => rfl
    | succ fuel =>
      rw [List.length_cons] at hlen
      have hin : i + old.length ≤ s.length := by
        rcases hend with hone | hlast
        · omega
        · -- The last piece is behind a match, for which there must be room.
          by_contra hout
          have hone := (Splitting.Scan.step hno h).of_length_lt (by simp; omega)
          rw [hone] at hlast
          simp at hlast
      have hsum : u32 (i + old.length) = i + old.length := u32_of_lt (by omega)
      have hnext : u32 (i + 1) = i + 1 := u32_of_lt (n := i + 1) (by omega)
      have hend' : old.length = 1 ∨ (p :: ps).getLast? = some [] := by
        refine hend.imp_right fun hlast => ?_
        cases ps with
        | nil => simp at hlast
        | cons q ps => exact hlast
      rw [countMatches, hsum, if_pos hin, sameAt_of_le hin, hr, ok_bind, if_neg (by simpa using hno),
        hnext]
      exact ih (by omega) (drop_of_step hr) hend' _ (by omega)

/-- The second scan copies the pieces and `new` between them. -/
theorem replaceLoop_eq (new : Bytes) (hold : old ≠ []) (hscan : Splitting.Scan old r ps)
    (hi : i ≤ s.length) (hr : s.drop i = r) (hle : s.length + old.length ≤ 2 ^ 32) :
    ∃ chunks : List Bytes, chunks.flatten = new.intercalate ps ∧
      ∀ fuel pos buf, r.length < fuel →
        replaceLoop s old new fuel i pos buf = writeChunks chunks pos buf := by
  have hpos := List.length_pos_of_ne_nil hold
  have hlen := length_of_drop hi hr
  induction hscan generalizing i with
  | nil =>
    refine ⟨[], rfl, fun fuel pos buf hfuel => ?_⟩
    obtain ⟨fuel, rfl⟩ : ∃ n, fuel = n + 1 := ⟨fuel - 1, by simp at hfuel; omega⟩
    rw [replaceLoop, if_neg (by simp at hlen; omega)]
    rfl
  | @hit r ps h ih =>
    rw [List.length_append] at hlen
    obtain ⟨chunks, hflat, hloop⟩ := ih (i := i + old.length) (by omega) (drop_of_hit hr) (by omega)
    refine ⟨new :: chunks, ?_, fun fuel pos buf hfuel => ?_⟩
    · obtain ⟨p, ps, rfl⟩ := List.exists_cons_of_ne_nil h.ne_nil
      rw [List.flatten_cons, hflat, List.intercalate_cons_cons]
      rfl
    · rw [List.length_append] at hfuel
      obtain ⟨fuel, rfl⟩ : ∃ n, fuel = n + 1 := ⟨fuel - 1, by omega⟩
      have hsum : u32 (i + old.length) = i + old.length := u32_of_lt (by omega)
      have hnext : u32 (pos + new.length) = (pos + new.length) % 2 ^ 32 := u32_natCast _
      rw [replaceLoop, if_pos (by omega), foundAt_of_lt (by omega) (by omega), hr, ok_bind,
        if_pos (by simp), hsum, hnext, writeChunks_cons]
      congr 1
      funext buf
      exact hloop fuel _ buf (by omega)
  | @step c r p ps hno h ih =>
    rw [List.length_cons] at hlen
    obtain ⟨chunks, hflat, hloop⟩ := ih (i := i + 1) (by omega) (drop_of_step hr) (by omega)
    refine ⟨[c] :: chunks, ?_, fun fuel pos buf hfuel => ?_⟩
    · rw [List.flatten_cons, hflat]
      cases ps with
      | nil => simp
      | cons q ps => simp [List.intercalate_cons_cons]
    · rw [List.length_cons] at hfuel
      obtain ⟨fuel, rfl⟩ : ∃ n, fuel = n + 1 := ⟨fuel - 1, by omega⟩
      have hsum : u32 (i + 1) = i + 1 := u32_of_lt (n := i + 1) (by omega)
      have hnext : u32 (pos + 1) = (pos + 1) % 2 ^ 32 := u32_natCast (pos + 1)
      have hread : readAt s i 1 = .ok [c] := by
        rw [readAt, if_pos (by omega), hr]
        rfl
      rw [replaceLoop, if_pos (by omega), foundAt_of_lt (by omega) (by omega), hr, ok_bind,
        if_neg (by simpa using hno), hread, ok_bind, hsum, hnext, writeChunks_cons]
      congr 1
      funext buf
      exact hloop fuel _ buf (by omega)

/-- The second scan of a string that does not end with a match adds the length of `old` to every
position of its last bytes. -/
theorem replaceLoop_undefined (hold : old ≠ []) (hscan : Splitting.Scan old r ps)
    (hi : i ≤ s.length) (hr : s.drop i = r) (hs : s.length < 2 ^ 32) (ho : old.length < 2 ^ 32)
    (hover : 2 ^ 32 < s.length + old.length) (hlast : ps.getLast? ≠ some []) (fuel pos : Nat)
    (buf : Bytes) : replaceLoop s old new fuel i pos buf = undefined := by
  have hpos := List.length_pos_of_ne_nil hold
  have hlen := length_of_drop hi hr
  induction hscan generalizing i fuel pos buf with
  | nil => exact absurd rfl hlast
  | @hit r ps h ih =>
    cases fuel with
    | zero => rfl
    | succ fuel =>
      rw [List.length_append] at hlen
      have hsum : u32 (i + old.length) = i + old.length := u32_of_lt (by omega)
      have hlast' : ps.getLast? ≠ some [] := by
        obtain ⟨p, ps, rfl⟩ := List.exists_cons_of_ne_nil h.ne_nil
        exact hlast
      rw [replaceLoop, if_pos (by omega), foundAt_of_lt (by omega) (by omega), hr, ok_bind,
        if_pos (by simp), hsum]
      unfold memcpy
      cases Block.write buf pos new with
      | none => rfl
      | some buf => exact ih (by omega) (drop_of_hit hr) hlast' _ _ _ (by omega)
  | @step c r p ps hno h ih =>
    cases fuel with
    | zero => rfl
    | succ fuel =>
      rw [List.length_cons] at hlen
      rw [replaceLoop, if_pos (by omega)]
      by_cases hwraps : 2 ^ 32 ≤ i + old.length
      · rw [foundAt_of_wraps (by omega) ho hs hwraps]
        rfl
      · have hsum : u32 (i + 1) = i + 1 := u32_of_lt (n := i + 1) (by omega)
        have hread : readAt s i 1 = .ok [c] := by
          rw [readAt, if_pos (by omega), hr]
          rfl
        have hr' : r ≠ [] := by
          rintro rfl
          simp at hlen
          omega
        rw [foundAt_of_lt (by omega) (by omega), hr, ok_bind, if_neg (by simpa using hno), hread,
          ok_bind, hsum]
        unfold memcpy
        cases Block.write buf pos [c] with
        | none => rfl
        | some buf =>
          exact ih (by omega) (drop_of_step hr) (getLast?_of_step h hr' hlast) _ _ _ (by omega)

end Scans

section Replace
variable {s old : Bytes} {ps : List Bytes}

/-- The computed size of the result, before it is cut to 32 bits. -/
theorem replace_length (new : Bytes) (hscan : Splitting.Scan old s ps) :
    (s.length : Int) - (ps.length - 1 : Nat) * old.length + (ps.length - 1 : Nat) * new.length =
      (new.intercalate ps).length := by
  rw [length_intercalate, hscan.length_eq]
  push_cast
  omega

theorem stringReplace_eq (new : Bytes) (hold : old ≠ []) (hscan : Splitting.Scan old s ps)
    (hrange : ScanInRange s old ps) :
    stringReplace s old new =
      if (new.intercalate ps).length + 1 < 2 ^ 32 then .ok (new.intercalate ps) else undefined := by
  have hpos := List.length_pos_of_ne_nil hold
  have hle := hrange.le
  obtain ⟨chunks, hflat, hloop⟩ := replaceLoop_eq new hold hscan (Nat.zero_le _) rfl hle
  have hpieces : (ps.length - 1) * 1 ≤ (ps.length - 1) * old.length := Nat.mul_le_mul_left _ hpos
  have hlen := hscan.length_eq
  have hcount : countMatches s old (s.length + 1) 0 0 = .ok (ps.length - 1) := by
    have h := countMatches_eq hold hscan (Nat.zero_le _) rfl hrange (Nat.lt_succ_self _) 0
    rwa [Nat.zero_add, Nat.zero_mod, Nat.mod_eq_of_lt (a := ps.length - 1) (by omega)] at h
  rw [stringReplace, if_neg (by omega), hcount, ok_bind, ← hflat]
  refine build_eq chunks ?_ fun buf => hloop _ _ _ (Nat.lt_succ_self _)
  rw [replace_length new hscan, hflat]
  exact u32_natCast _

theorem countMatches_error {fuel i m : Nat} {e : Failure} (h : countMatches s old fuel i m = .error e) :
    e = .undefined := by
  induction fuel generalizing i m with
  | zero =>
    cases h
    rfl
  | succ fuel ih =>
    unfold countMatches sameAt readAt at h
    split at h
    · split at h
      · rw [ok_bind, pure_bind] at h
        split at h <;> exact ih h
      · cases h
        rfl
    · cases h

theorem stringReplace_undefined (new : Bytes) (hold : old ≠ []) (hscan : Splitting.Scan old s ps)
    (hs : s.length < 2 ^ 32) (ho : old.length < 2 ^ 32) (hrange : ¬ ScanInRange s old ps) :
    stringReplace s old new = undefined := by
  have hpos := List.length_pos_of_ne_nil hold
  have hover : 2 ^ 32 ≤ s.length + old.length := by
    by_contra hlt
    exact hrange (.inl (by omega))
  rw [stringReplace, if_neg (by omega)]
  by_cases hend : old.length = 1 ∨ ps.getLast? = some []
  · rw [countMatches_undefined hold hscan (Nat.zero_le _) rfl hs ho hover hend]
    rfl
  · obtain ⟨hone, hlast⟩ := not_or.mp hend
    have hmore : 2 ^ 32 < s.length + old.length := by
      refine lt_of_le_of_ne hover fun heq => hrange (.inr ⟨heq.symm, by omega, hlast⟩)
    have hloop (fuel pos : Nat) (buf : Bytes) : replaceLoop s old new fuel 0 pos buf = undefined :=
      replaceLoop_undefined hold hscan (Nat.zero_le _) rfl hs ho hmore hlast _ _ _
    cases hcount : countMatches s old (s.length + 1) 0 0 with
    | error e =>
      rw [countMatches_error hcount]
      rfl
    | ok matched =>
      rw [ok_bind, build, hloop]
      rfl

end Replace

/-- The operations that compute the size of a string's buffer. -/
inductive StringOp
  | concat (a b : Bytes)
  | repeated (s : Bytes) (n : Int)
  | replace (s old new : Bytes)
  | join (arr : List Bytes) (sep : Bytes)

namespace StringOp

def run : StringOp → Call Bytes
  | concat a b => stringConcat a b
  | repeated s n => stringRepeat s n
  | replace s old new => stringReplace s old new
  | join arr sep => stringJoin arr sep

/-- Lengths and counts are unsigned 32-bit numbers, `n` is a 64-bit integer that is not negative. -/
def Sized : StringOp → Prop
  | concat a b => a.length < 2 ^ 32 ∧ b.length < 2 ^ 32
  | repeated s n => s.length < 2 ^ 32 ∧ 0 ≤ n ∧ n < 2 ^ 63
  | replace s old new => s.length < 2 ^ 32 ∧ old.length < 2 ^ 32 ∧ new.length < 2 ^ 32
  | join arr sep => arr.length < 2 ^ 32 ∧ (∀ s ∈ arr, s.length < 2 ^ 32) ∧ sep.length < 2 ^ 32

/-- The length that the result has without bounds on numbers. -/
def length : StringOp → Nat
  | concat a b => a.length + b.length
  | repeated s n => s.length * n.toNat
  | replace s old new => (new.intercalate (Splitting.cut old s)).length
  | join arr sep => (sep.intercalate arr).length

/-- An error is reported, or every write is inside the buffer and the result has its length. -/
def Fits (op : StringOp) : Prop :=
  (∃ msg, op.run = .error (.error msg)) ∨ ∃ out, op.run = .ok out ∧ out.length = op.length

/-- The result and its NUL have a length of 32 bits, and the scans of `replace` do not wrap. -/
def InRange (op : StringOp) : Prop :=
  match op with
  | replace s old _ =>
      old = [] ∨ ScanInRange s old (Splitting.cut old s) ∧ op.length + 1 < 2 ^ 32
  | _ => op.length + 1 < 2 ^ 32

theorem fits_of_run {op : StringOp} {out : Bytes} (hout : out.length = op.length)
    (h : op.run = if out.length + 1 < 2 ^ 32 then .ok out else undefined) :
    op.Fits ↔ op.length + 1 < 2 ^ 32 := by
  unfold Fits
  rw [h, hout]
  split
  · next hsize => exact ⟨fun _ => hsize, fun _ => .inr ⟨out, rfl, hout⟩⟩
  · next hsize =>
    refine ⟨?_, fun h => absurd h hsize⟩
    rintro (⟨msg, h⟩ | ⟨out, h, -⟩) <;> cases h

/-- Where the string operations keep to their buffers. -/
theorem fits_iff {op : StringOp} (h : op.Sized) : op.Fits ↔ op.InRange := by
  cases op with
  | concat a b => exact fits_of_run List.length_append (stringConcat_eq h.1)
  | repeated s n =>
    have hlen : (List.replicate n.toNat s).flatten.length = s.length * n.toNat := by
      simp [Nat.mul_comm]
    exact fits_of_run hlen (hlen ▸ stringRepeat_eq h.2.1)
  | join arr sep => exact fits_of_run rfl (stringJoin_eq arr sep)
  | replace s old new =>
    change _ ↔ old = [] ∨ ScanInRange s old (Splitting.cut old s) ∧ (replace s old new).length + 1 < 2 ^ 32
    by_cases hold : old = []
    · subst hold
      exact ⟨fun _ => .inl rfl, fun _ => .inl ⟨_, rfl⟩⟩
    · have hscan := Splitting.scan_cut hold s
      rw [or_iff_right hold]
      by_cases hrange : ScanInRange s old (Splitting.cut old s)
      · rw [and_iff_right hrange]
        exact fits_of_run rfl (stringReplace_eq new hold hscan hrange)
      · refine ⟨?_, fun h => absurd h.1 hrange⟩
        have hrun : (replace s old new).run = undefined :=
          stringReplace_undefined new hold hscan h.1 h.2.1 hrange
        unfold Fits
        rw [hrun]
        rintro (⟨msg, h⟩ | ⟨out, h, -⟩) <;> cases h

theorem fits_iff_join :
    (join [bytes "a", bytes "b"] (bytes ", ")).Fits ↔ (join [bytes "a", bytes "b"] (bytes ", ")).InRange :=
  fits_iff ⟨by decide, by decide, by decide⟩

/-- `string.repeat("ab", 2147483648)` computes a size of 0. -/
theorem repeat_overflows : ¬ (repeated (bytes "ab") (2 ^ 31)).Fits := by
  have hrun : (repeated (bytes "ab") (2 ^ 31)).run = undefined := by decide +kernel
  unfold Fits
  rw [hrun]
  rintro (⟨msg, h⟩ | ⟨out, h, -⟩) <;> cases h

end StringOp

end Aer.Stdlib
