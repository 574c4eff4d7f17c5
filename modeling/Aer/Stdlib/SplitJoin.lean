import Aer.Stdlib.StringSizes

set_option linter.all false

/-! `split` against `join` and `replace`. -/
namespace Aer.Stdlib

open Aer.Data Aer.Lib

theorem build_text (text : Bytes) (h : text.length + 1 < 2 ^ 32) :
    build text.length (fun buf => memcpy buf 0 text) = .ok text := by
  have hflat : [text].flatten = text := by simp
  have hfill (buf : Bytes) : memcpy buf 0 text = writeChunks [text] 0 buf := by
    rw [writeChunks_cons]
    exact (bind_ok _).symm
  have hlen : text.length = [text].flatten.length % 2 ^ 32 := by
    rw [hflat]
    omega
  have hbuild := build_eq [text] hlen hfill
  rwa [hflat, if_pos h] at hbuild

section Scan
variable {s sep r p : Bytes} {ps : List Bytes} {start i : Nat}

/-- The piece begun at `start`. -/
def pieceAt (s : Bytes) (start i : Nat) : Bytes := (s.drop start).take (i - start)

theorem length_pieceAt (start : Nat) (hi : i ≤ s.length) : (pieceAt s start i).length = i - start := by
  rw [pieceAt, List.length_take, List.length_drop]
  omega

theorem readAt_piece (hstart : start ≤ i) (hi : i ≤ s.length) :
    readAt s start (i - start) = .ok (pieceAt s start i) :=
  if_pos (by omega)

theorem build_piece (hi : i ≤ s.length) (hs : s.length + 1 < 2 ^ 32) :
    build (i - start) (fun buf => memcpy buf 0 (pieceAt s start i)) = .ok (pieceAt s start i) := by
  have hlen := length_pieceAt start hi
  have hbuild := build_text (pieceAt s start i) (by omega)
  rwa [hlen] at hbuild

theorem pieceAt_succ {c : UInt8} (hstart : start ≤ i) (hr : s.drop i = c :: r) :
    pieceAt s start (i + 1) = pieceAt s start i ++ [c] := by
  have hget : (s.drop start)[i - start]? = some c := by
    rw [List.getElem?_drop, Nat.add_sub_cancel' hstart, ← List.head?_drop, hr]
    rfl
  rw [pieceAt, pieceAt, Nat.succ_sub hstart, List.take_add_one, hget]
  rfl

theorem splitLoop_eq (hsep : sep ≠ []) {pieces : List Bytes} (hscan : Splitting.Scan sep r pieces)
    (hstart : start ≤ i) (hi : i ≤ s.length) (hr : s.drop i = r)
    (hs : s.length + sep.length < 2 ^ 32) {fuel : Nat} (hfuel : r.length < fuel) :
    splitLoop s sep fuel start i =
      .ok (pieces.modifyHead (pieceAt s start i ++ ·)) := by
  have hpos := List.length_pos_of_ne_nil hsep
  have hlen := length_of_drop hi hr
  induction hscan generalizing start i fuel with
  | nil =>
    obtain ⟨fuel, rfl⟩ : ∃ n, fuel = n + 1 := ⟨fuel - 1, by simp at hfuel; omega⟩
    obtain rfl : i = s.length := by simpa using hlen
    have hn : u32 (s.length - start) = s.length - start := by
      unfold u32
      omega
    rw [splitLoop, if_pos hi, foundAt_of_lt hi hs, ok_bind, if_pos (by simp), hn]
    dsimp only
    rw [readAt_piece hstart hi, ok_bind, build_piece hi (by omega), ok_bind, if_pos rfl]
    simp
    rfl
  | @hit r ps h ih =>
    obtain ⟨fuel, rfl⟩ : ∃ n, fuel = n + 1 := ⟨fuel - 1, by omega⟩
    rw [List.length_append] at hlen hfuel
    have hsum : u32 (i + sep.length) = i + sep.length := u32_of_lt (by omega)
    have hn : u32 (i - start) = i - start := by
      unfold u32
      omega
    rw [splitLoop, if_pos hi, foundAt_of_lt hi (by omega), hr, ok_bind, if_pos (by simp), hn]
    dsimp only
    rw [readAt_piece hstart hi, ok_bind, build_piece hi (by omega), ok_bind, if_neg (by omega), hsum, ih (Nat.le_refl _) (by omega) (drop_of_hit hr) (by omega) (by omega), ok_bind]
    obtain ⟨p, ps, rfl⟩ := List.exists_cons_of_ne_nil h.ne_nil
    simp [pieceAt]
    rfl
  | @step c r p ps hno h ih =>
    obtain ⟨fuel, rfl⟩ : ∃ n, fuel = n + 1 := ⟨fuel - 1, by omega⟩
    rw [List.length_cons] at hlen hfuel
    have hnext : u32 (i + 1) = i + 1 := u32_of_lt (n := i + 1) (by omega)
    rw [splitLoop, if_pos hi, foundAt_of_lt hi (by omega), hr, ok_bind,
      if_neg (by simp [hno]; omega), hnext, ih (by omega) (by omega) (drop_of_step hr) (by omega) (by omega),
      pieceAt_succ hstart hr]
    simp

end Scan

theorem stringSplit_eq {s sep : Bytes} (hsep : sep ≠ []) (hs : s.length + sep.length < 2 ^ 32) :
    stringSplit s sep = .ok (Splitting.cut sep s) := by
  have hpos := List.length_pos_of_ne_nil hsep
  have hloop := splitLoop_eq hsep (Splitting.scan_cut hsep s) (Nat.le_refl 0) (Nat.zero_le _) rfl hs
    (Nat.lt_succ_self _)
  rw [stringSplit, if_neg (by omega), hloop]
  cases Splitting.cut sep s <;> rfl

/-- A call that reports an error. -/
def Fails {α : Type} (r : Call α) : Prop := ∃ msg, r = .error (.error msg)

example : stringSplit (bytes "aaab") (bytes "aa") = .ok [[], bytes "ab"] := by decide +kernel

end Aer.Stdlib
