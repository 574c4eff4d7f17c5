import Aer.Data.Bytes
import Mathlib.Data.List.Induction

set_option linter.all false

/-! The `io` module: the table of open files, and the handles that index it. What the C
library answers is part of a call. -/
namespace Aer.Stdlib.Files

open Aer.Data

/-- The values the functions tell apart. -/
inductive Value
  | null
  | integer (n : Int)
  | string (b : Bytes)
  | other
  deriving DecidableEq

/-- A `FILE*`: the standard input, or what a call of `fopen` has answered. -/
inductive Stream
  | stdin
  | file (fp : Nat)
  deriving DecidableEq

def maxOpenFiles : Nat := 16

structure Io where
  openFiles : Nat → Option Stream

inductive Reply
  /-- A reported error. -/
  | error (msg : Bytes)
  | pair (ok err : Value)
  | value (v : Value)
  deriving DecidableEq

/-- A call with its arguments and what the C library answers to it. -/
inductive Call
  /-- The stream `fopen` gives, or the text of its error. -/
  | open (args : List Value) (answer : Except Bytes Nat)
  /-- The contents, or the text of the error of `ftell`. -/
  | read (args : List Value) (answer : Except Bytes Bytes)
  /-- The number of bytes `fwrite` has written, and the text of its error. -/
  | write (args : List Value) (written : Nat) (errno : Bytes)
  | close (args : List Value)
  | stdin (args : List Value)

/-- The end of a call, with the stream it has acted on. -/
structure Outcome where
  reply : Reply
  acted : Option Stream
  io : Io

namespace Io

/-- `aer_io_register`. -/
def registered : Io := ⟨fun i => if i = 0 then some .stdin else none⟩

def set (s : Io) (i : Nat) (f : Option Stream) : Io := ⟨Function.update s.openFiles i f⟩

/-- A call without effect on the files. -/
def answers (s : Io) (r : Reply) : Outcome := ⟨r, none, s⟩

def makeError (msg : Bytes) : Reply := .pair .null (.string msg)

/-- The first slot that is not in use. -/
def freeSlot (s : Io) : Option Nat :=
  (List.range maxOpenFiles).find? fun i => (s.openFiles i).isNone

def isMode (mode : Bytes) : Bool :=
  [bytes "r", bytes "w", bytes "a"].contains (cString mode)

def ioOpen (s : Io) (args : List Value) (answer : Except Bytes Nat) : Outcome :=
  match args with
  | [.string path, .string mode] =>
      if !isMode mode then s.answers (.error (bytes "io.open() mode must be \"r\", \"w\", or \"a\""))
      else
        match s.freeSlot with
        | none => s.answers (makeError (bytes "Too many open files"))
        | some slot =>
            match answer with
            | .error e => s.answers (makeError ((cString path ++ bytes ": " ++ e).take 255))
            | .ok fp =>
                ⟨.pair (.integer slot) .null, some (.file fp), s.set slot (some (.file fp))⟩
  | _ => s.answers (.error (bytes "io.open() requires a path and a mode string"))

def handleFile (s : Io) (h : Int) : Option Stream :=
  if h < 0 ∨ (maxOpenFiles : Int) ≤ h then none else s.openFiles h.toNat

def ioRead (s : Io) (args : List Value) (answer : Except Bytes Bytes) : Outcome :=
  match args with
  | [.integer h] =>
      match s.handleFile h with
      | none => s.answers (makeError (bytes "Invalid or closed file handle"))
      | some f =>
          match answer with
          | .error e => ⟨makeError e, some f, s⟩
          | .ok b => ⟨.pair (.string b) .null, some f, s⟩
  | _ => s.answers (.error (bytes "io.read() requires a handle"))

def ioWrite (s : Io) (args : List Value) (written : Nat) (errno : Bytes) : Outcome :=
  match args with
  | [.integer h, .string b] =>
      match s.handleFile h with
      | none => s.answers (makeError (bytes "Invalid or closed file handle"))
      | some f => ⟨if written ≠ b.length then makeError errno else .pair .null .null, some f, s⟩
  | _ => s.answers (.error (bytes "io.write() requires a handle and a string"))

def ioClose (s : Io) (args : List Value) : Outcome :=
  match args with
  | [.integer h] =>
      match s.handleFile h with
      | none => s.answers (makeError (bytes "Invalid or already-closed file handle"))
      | some f => ⟨.pair .null .null, some f, s.set h.toNat none⟩
  | _ => s.answers (.error (bytes "io.close() requires a handle"))

def ioStdin (s : Io) (args : List Value) : Outcome :=
  if args ≠ [] then s.answers (.error (bytes "io.stdin() takes no arguments"))
  else s.answers (.value (.integer 0))

def call (s : Io) : Call → Outcome
  | .open args answer => s.ioOpen args answer
  | .read args answer => s.ioRead args answer
  | .write args written errno => s.ioWrite args written errno
  | .close args => s.ioClose args
  | .stdin args => s.ioStdin args

/-- The table behind a sequence of calls. -/
def after (calls : List Call) : Io := calls.foldl (fun s c => (s.call c).io) registered

theorem after_concat (calls : List Call) (c : Call) :
    after (calls ++ [c]) = ((after calls).call c).io := by
  rw [after, List.foldl_append]
  rfl

end Io

/-! Handles. -/

/-- The call hands out the handle. -/
def Io.Opens (s : Io) (c : Call) (h : Int) : Prop :=
  ∃ args answer, c = .open args answer ∧ (s.call c).reply = .pair (.integer h) .null

/-- The call closes the handle. -/
def Io.Closes (s : Io) (c : Call) (h : Int) : Prop :=
  c = .close [.integer h] ∧ (s.call c).reply = .pair .null .null

/-- The handle has been closed, and not handed out again. -/
def Closed (calls : List Call) (h : Int) : Prop :=
  ∃ earlier c later, calls = earlier ++ c :: later ∧ (Io.after earlier).Closes c h ∧
    ∀ between d rest, later = between ++ d :: rest →
      ¬ (Io.after (earlier ++ c :: between)).Opens d h

/-- An operation on the handle. -/
def Call.On (h : Int) : Call → Prop
  | .read args _ | .write args _ _ | .close args => args.head? = some (.integer h)
  | .open _ _ | .stdin _ => False

def Reply.Failed : Reply → Prop
  | .error _ => True
  | .pair ok err => ok = .null ∧ ∃ msg, err = .string msg
  | .value _ => False

/-- The operation fails and touches nothing. -/
def Io.Rejects (s : Io) (c : Call) : Prop :=
  (s.call c).reply.Failed ∧ (s.call c).acted = none ∧ (s.call c).io = s

/-- Handles are not confused behind the calls. -/
structure Unconfused (calls : List Call) : Prop where
  distinct : ∀ g h f, (Io.after calls).handleFile g = some f →
    (Io.after calls).handleFile h = some f → g = h
  closed : ∀ h, Closed calls h → ∀ c : Call, c.On h → (Io.after calls).Rejects c
  stdin : ∀ h, ((Io.after calls).call (.stdin [])).reply = .value (.integer h) →
    ∀ c : Call, c.On h → ∀ fp, ((Io.after calls).call c).acted ≠ some (.file fp)

/-- `fopen` answers with a stream that is not open. -/
def Fresh (calls : List Call) : Prop :=
  ∀ earlier args fp, earlier ++ [.open args (.ok fp)] <+: calls →
    ∀ h, (Io.after earlier).handleFile h ≠ some (.file fp)

/-- No file is opened while the handle of the standard input is closed. -/
def StdinHeld (calls : List Call) : Prop :=
  ∀ earlier c h, earlier ++ [c] <+: calls → (Io.after earlier).Opens c h →
    (Io.after earlier).openFiles 0 ≠ none

/-! What a call can do to the table. -/

namespace Io
variable {s : Io}

theorem freeSlot_spec {slot : Nat} (h : s.freeSlot = some slot) :
    slot < maxOpenFiles ∧ s.openFiles slot = none ∧ ∀ i < slot, s.openFiles i ≠ none := by
  unfold freeSlot at h
  rw [List.find?_range_eq_some] at h
  obtain ⟨hnone, hlt, hfirst⟩ := h
  refine ⟨List.mem_range.mp hlt, Option.isNone_iff_eq_none.mp hnone, fun i hi hi' => ?_⟩
  have := hfirst i hi
  simp [hi'] at this

theorem handleFile_nat {i : Nat} (hi : i < maxOpenFiles) : s.handleFile i = s.openFiles i := by
  unfold handleFile
  rw [if_neg (by omega), Int.toNat_natCast]

theorem handleFile_set {slot : Nat} (hslot : slot < maxOpenFiles) (f : Option Stream) (h : Int) :
    (s.set slot f).handleFile h = if h = slot then f else s.handleFile h := by
  unfold handleFile set
  by_cases hbounds : h < 0 ∨ (maxOpenFiles : Int) ≤ h
  · rw [if_pos hbounds, if_pos hbounds, if_neg (by omega)]
  · rw [if_neg hbounds, if_neg hbounds]
    by_cases hh : h = slot
    · subst hh
      simp
    · rw [if_neg hh]
      exact Function.update_of_ne (by omega) _ _

theorem ioOpen_cases (s : Io) (args : List Value) (answer : Except Bytes Nat) :
    (∃ r, s.ioOpen args answer = s.answers r ∧ ∀ h, r ≠ .pair (.integer h) .null) ∨
      ∃ fp slot, answer = .ok fp ∧ s.freeSlot = some slot ∧ s.ioOpen args answer =
        ⟨.pair (.integer slot) .null, some (.file fp), s.set slot (some (.file fp))⟩ := by
  unfold ioOpen
  split
  · split
    · exact .inl ⟨_, rfl, nofun⟩
    · split
      · exact .inl ⟨_, rfl, nofun⟩
      · next slot hslot =>
        split
        · exact .inl ⟨_, rfl, nofun⟩
        · next fp => exact .inr ⟨fp, slot, rfl, hslot, rfl⟩
  · exact .inl ⟨_, rfl, nofun⟩

theorem ioClose_cases (s : Io) (args : List Value) :
    (∃ r, s.ioClose args = s.answers r ∧ r ≠ .pair .null .null) ∨
      ∃ h f, args = [.integer h] ∧ s.handleFile h = some f ∧
        s.ioClose args = ⟨.pair .null .null, some f, s.set h.toNat none⟩ := by
  unfold ioClose
  split
  · next h =>
    split
    · exact .inl ⟨_, rfl, nofun⟩
    · next f hf => exact .inr ⟨h, f, rfl, hf, rfl⟩
  · exact .inl ⟨_, rfl, nofun⟩

theorem ioRead_io (s : Io) (args : List Value) (answer : Except Bytes Bytes) :
    (s.ioRead args answer).io = s := by
  unfold ioRead
  split
  · split
    · rfl
    · split <;> rfl
  · rfl

theorem ioWrite_io (s : Io) (args : List Value) (written : Nat) (errno : Bytes) :
    (s.ioWrite args written errno).io = s := by
  unfold ioWrite
  split
  · split <;> rfl
  · rfl

/-- A call leaves the table as it is, fills the first free slot, or empties a slot in use. -/
theorem call_cases (s : Io) (c : Call) :
    ((s.call c).io = s ∧ (∀ h, ¬ s.Opens c h) ∧ ∀ h, ¬ s.Closes c h) ∨
      (∃ args fp slot, c = .open args (.ok fp) ∧ s.freeSlot = some slot ∧
        (∀ h, s.Opens c h ↔ h = slot) ∧ (s.call c).io = s.set slot (some (.file fp))) ∨
      ∃ h f, c = .close [.integer h] ∧ s.handleFile h = some f ∧
        (s.call c).io = s.set h.toNat none := by
  cases c with
  | «open» args answer =>
    have hcloses : ∀ h, ¬ s.Closes (.open args answer) h := fun h hc => by cases hc.1
    rcases s.ioOpen_cases args answer with ⟨r, hr, hne⟩ | ⟨fp, slot, rfl, hslot, hr⟩
    · refine .inl ⟨congrArg Outcome.io hr, ?_, hcloses⟩
      rintro h ⟨_, _, -, hreply⟩
      exact hne h ((congrArg Outcome.reply hr).symm.trans hreply)
    · refine .inr (.inl ⟨args, fp, slot, rfl, hslot, fun h => ⟨?_, ?_⟩, congrArg Outcome.io hr⟩)
      · rintro ⟨_, _, -, hreply⟩
        cases (congrArg Outcome.reply hr).symm.trans hreply
        rfl
      · rintro rfl
        exact ⟨_, _, rfl, congrArg Outcome.reply hr⟩
  | close args =>
    rcases s.ioClose_cases args with ⟨r, hr, hne⟩ | ⟨h, f, rfl, hf, hr⟩
    · refine .inl ⟨congrArg Outcome.io hr, fun _ ⟨_, _, hc, _⟩ => (nomatch hc), ?_⟩
      rintro h ⟨-, hreply⟩
      exact hne ((congrArg Outcome.reply hr).symm.trans hreply)
    · exact .inr (.inr ⟨h, f, rfl, hf, congrArg Outcome.io hr⟩)
  | read args answer =>
    exact .inl ⟨ioRead_io s args answer, fun _ ⟨_, _, hc, _⟩ => (nomatch hc), fun _ hc => nomatch hc.1⟩
  | write args written errno =>
    exact .inl ⟨ioWrite_io s args written errno, fun _ ⟨_, _, hc, _⟩ => (nomatch hc),
      fun _ hc => nomatch hc.1⟩
  | stdin args =>
    refine .inl ⟨?_, fun _ ⟨_, _, hc, _⟩ => (nomatch hc), fun _ hc => nomatch hc.1⟩
    change (s.ioStdin args).io = s
    unfold ioStdin
    split <;> rfl

theorem bounds_of_handleFile {h : Int} {f : Stream} (hf : s.handleFile h = some f) :
    0 ≤ h ∧ h < maxOpenFiles := by
  unfold handleFile at hf
  split at hf
  · cases hf
  · omega

/-- Two open handles have two streams. -/
def Distinct (s : Io) : Prop :=
  ∀ g h f, s.handleFile g = some f → s.handleFile h = some f → g = h

theorem Distinct.call (hs : s.Distinct) {c : Call}
    (hfresh : ∀ args fp, c = .open args (.ok fp) → ∀ h, s.handleFile h ≠ some (.file fp)) :
    (s.call c).io.Distinct := by
  rcases s.call_cases c with ⟨hio, -⟩ | ⟨args, fp, slot, rfl, hslot, -, hio⟩ | ⟨k, f, rfl, hf, hio⟩
  · rwa [hio]
  · have hnew := hfresh args fp rfl
    rw [hio]
    intro g h f hg hh
    rw [handleFile_set (freeSlot_spec hslot).1] at hg hh
    split at hg <;> split at hh
    · omega
    · cases hg
      exact absurd hh (hnew h)
    · cases hh
      exact absurd hg (hnew g)
    · exact hs g h f hg hh
  · obtain ⟨hk, hlt⟩ := bounds_of_handleFile hf
    rw [hio]
    intro g h f hg hh
    rw [handleFile_set (by omega)] at hg hh
    split at hg
    · cases hg
    · split at hh
      · cases hh
      · exact hs g h f hg hh

theorem handleFile_of_closes {c : Call} {h : Int} (hc : s.Closes c h) :
    (s.call c).io.handleFile h = none := by
  obtain ⟨rfl, hreply⟩ := hc
  rcases s.ioClose_cases [.integer h] with ⟨r, hr, hne⟩ | ⟨k, f, hk, hf, hr⟩
  · exact absurd ((congrArg Outcome.reply hr).symm.trans hreply) hne
  · cases hk
    obtain ⟨hnonneg, hlt⟩ := bounds_of_handleFile hf
    change (s.ioClose _).io.handleFile h = none
    rw [hr, handleFile_set (by omega), if_pos (by omega)]

/-- A handle that is not open is opened by `io.open` only. -/
theorem handleFile_call {c : Call} {h : Int} (hh : s.handleFile h = none) (hc : ¬ s.Opens c h) :
    (s.call c).io.handleFile h = none := by
  rcases s.call_cases c with ⟨hio, -⟩ | ⟨args, fp, slot, rfl, hslot, hopens, hio⟩ | ⟨k, f, rfl, hf, hio⟩
  · rwa [hio]
  · rw [hio, handleFile_set (freeSlot_spec hslot).1, if_neg fun heq => hc ((hopens h).mpr heq), hh]
  · obtain ⟨hnonneg, hlt⟩ := bounds_of_handleFile hf
    rw [hio, handleFile_set (by omega), hh, ite_self]

/-- No operation does anything with a handle that is not open. -/
theorem rejects_of_handleFile {c : Call} {h : Int} (hh : s.handleFile h = none) (hc : c.On h) :
    s.Rejects c := by
  cases c with
  | «open» args answer => exact hc.elim
  | stdin args => exact hc.elim
  | read args answer =>
    unfold Rejects Io.call ioRead
    dsimp only
    split
    · next k =>
      cases hc
      rw [hh]
      exact ⟨⟨rfl, _, rfl⟩, rfl, rfl⟩
    · exact ⟨trivial, rfl, rfl⟩
  | write args written errno =>
    unfold Rejects Io.call ioWrite
    dsimp only
    split
    · next k b =>
      cases hc
      rw [hh]
      exact ⟨⟨rfl, _, rfl⟩, rfl, rfl⟩
    · exact ⟨trivial, rfl, rfl⟩
  | close args =>
    unfold Rejects Io.call ioClose
    dsimp only
    split
    · next k =>
      cases hc
      rw [hh]
      exact ⟨⟨rfl, _, rfl⟩, rfl, rfl⟩
    · exact ⟨trivial, rfl, rfl⟩

/-- An operation on a handle acts on the stream that the handle denotes. -/
theorem handleFile_of_acted {c : Call} {h : Int} {f : Stream} (hc : c.On h)
    (hacted : (s.call c).acted = some f) : s.handleFile h = some f := by
  cases c with
  | «open» args answer => exact hc.elim
  | stdin args => exact hc.elim
  | read args answer =>
    unfold Io.call ioRead at hacted
    dsimp only at hacted
    split at hacted
    · cases hc
      split at hacted
      · cases hacted
      · next g hg =>
        split at hacted <;>
        · cases hacted
          exact hg
    · cases hacted
  | write args written errno =>
    unfold Io.call ioWrite at hacted
    dsimp only at hacted
    split at hacted
    · cases hc
      split at hacted
      · cases hacted
      · next g hg =>
        cases hacted
        exact hg
    · cases hacted
  | close args =>
    unfold Io.call ioClose at hacted
    dsimp only at hacted
    split at hacted
    · cases hc
      split at hacted
      · cases hacted
      · next g hg =>
        cases hacted
        exact hg
    · cases hacted

end Io

/-! Sequences of calls. -/

section Sequences
variable {calls earlier : List Call} {c : Call}

theorem Fresh.of_prefix (h : Fresh calls) (hp : earlier <+: calls) : Fresh earlier :=
  fun before args fp hb => h before args fp (hb.trans hp)

theorem StdinHeld.of_prefix (h : StdinHeld calls) (hp : earlier <+: calls) : StdinHeld earlier :=
  fun before c g hb => h before c g (hb.trans hp)

theorem distinct_after (hfresh : Fresh calls) : (Io.after calls).Distinct := by
  induction calls using List.reverseRecOn with
  | nil =>
    have hzero : ∀ h f, Io.registered.handleFile h = some f → h = 0 := by
      intro h f hf
      have hbounds := Io.bounds_of_handleFile hf
      by_contra hne
      unfold Io.handleFile at hf
      rw [if_neg (by omega)] at hf
      have hnone : Io.registered.openFiles h.toNat = none := if_neg (by omega)
      rw [hnone] at hf
      cases hf
    exact fun g h f hg hh => (hzero g f hg).trans (hzero h f hh).symm
  | append_singleton calls c ih =>
    rw [Io.after_concat]
    refine (ih (hfresh.of_prefix (List.prefix_append _ _))).call fun args fp hc => ?_
    subst hc
    exact hfresh calls args fp List.prefix_rfl

theorem handleFile_of_closed {h : Int} (hclosed : Closed calls h) :
    (Io.after calls).handleFile h = none := by
  obtain ⟨earlier, c, later, rfl, hcloses, hlater⟩ := hclosed
  induction later using List.reverseRecOn with
  | nil =>
    rw [Io.after_concat]
    exact Io.handleFile_of_closes hcloses
  | append_singleton later d ih =>
    have hlast : earlier ++ c :: (later ++ [d]) = (earlier ++ c :: later) ++ [d] := by simp
    rw [hlast, Io.after_concat]
    refine Io.handleFile_call (ih fun between e rest hrest => ?_) (hlater later d [] rfl)
    exact hlater between e (rest ++ [d]) (by rw [hrest, List.append_assoc, List.cons_append])

/-- While the handle of the standard input is held, no file takes it. -/
theorem stdin_after (hheld : StdinHeld calls) (fp : Nat) :
    (Io.after calls).handleFile 0 ≠ some (.file fp) := by
  induction calls using List.reverseRecOn with
  | nil =>
    have hstdin : (Io.after []).handleFile 0 = some .stdin := rfl
    rw [hstdin]
    nofun
  | append_singleton calls c ih =>
    have ih := ih (hheld.of_prefix (List.prefix_append _ _))
    rw [Io.after_concat]
    rcases (Io.after calls).call_cases c with
      ⟨hio, -⟩ | ⟨args, fp', slot, rfl, hslot, hopens, hio⟩ | ⟨k, f, rfl, hf, hio⟩
    · rwa [hio]
    · obtain ⟨hlt, hfree, -⟩ := Io.freeSlot_spec hslot
      have hzero := hheld calls _ slot List.prefix_rfl ((hopens slot).mpr rfl)
      rw [hio, Io.handleFile_set hlt, if_neg]
      · exact ih
      · rintro heq
        obtain rfl : slot = 0 := by omega
        exact hzero hfree
    · obtain ⟨hnonneg, hlt⟩ := Io.bounds_of_handleFile hf
      rw [hio, Io.handleFile_set (by omega)]
      split
      · nofun
      · exact ih

/-- The operations on the handle 0 act on the stream that it denotes. -/
theorem stdin_iff (s : Io) :
    (∀ h, (s.call (.stdin [])).reply = .value (.integer h) →
      ∀ c : Call, c.On h → ∀ fp, (s.call c).acted ≠ some (.file fp)) ↔
        ∀ fp, s.handleFile 0 ≠ some (.file fp) := by
  constructor
  · intro h fp hfp
    refine h 0 rfl (.read [.integer 0] (.ok [])) rfl fp ?_
    simp only [Io.call, Io.ioRead, hfp]
  · intro h g hg c hc fp hacted
    cases hg
    exact h fp (Io.handleFile_of_acted hc hacted)

/-- Over all calls, handles are not confused just when no file is opened while the handle of the
standard input is closed. -/
theorem unconfused_iff (hfresh : Fresh calls) :
    (∀ earlier, earlier <+: calls → Unconfused earlier) ↔ StdinHeld calls := by
  constructor
  · intro h earlier c g hp hopens hnone
    have hstdin := (stdin_iff _).mp (h _ hp).stdin
    rw [Io.after_concat] at hstdin
    rcases (Io.after earlier).call_cases c with
      ⟨-, hnot, -⟩ | ⟨args, fp, slot, rfl, hslot, -, hio⟩ | ⟨k, f, rfl, -⟩
    · exact hnot g hopens
    · obtain ⟨hlt, -, hfirst⟩ := Io.freeSlot_spec hslot
      obtain rfl : slot = 0 := by
        by_contra hne
        exact hfirst 0 (by omega) hnone
      refine hstdin fp ?_
      rw [hio, Io.handleFile_set hlt]
      exact if_pos rfl
    · obtain ⟨_, _, hc, -⟩ := hopens
      cases hc
  · intro hheld earlier hp
    refine ⟨distinct_after (hfresh.of_prefix hp), fun h hclosed c hc => ?_,
      (stdin_iff _).mpr (stdin_after (hheld.of_prefix hp))⟩
    exact Io.rejects_of_handleFile (handleFile_of_closed hclosed) hc

end Sequences

/-- Open a file, with this stream. -/
def openCall (path mode : String) (fp : Nat) : Call :=
  .open [.string (bytes path), .string (bytes mode)] (.ok fp)

theorem unconfused_iff_open :
    (∀ earlier, earlier <+: [openCall "a" "r" 1] → Unconfused earlier) ↔
      StdinHeld [openCall "a" "r" 1] := by
  refine unconfused_iff fun earlier args fp hp h hh => ?_
  obtain rfl : earlier = [] := by
    have hlen := hp.length_le
    rw [List.length_append, List.length_singleton, List.length_singleton] at hlen
    exact List.eq_nil_of_length_eq_zero (by omega)
  have hbounds := Io.bounds_of_handleFile hh
  unfold Io.after Io.handleFile Io.registered at hh
  simp only [List.foldl_nil] at hh
  split at hh
  · cases hh
  · split at hh <;> cases hh

/-- Close the standard input, and open a file for writing. -/
def stdinReopened : List Call := [.close [.integer 0], openCall "a" "w" 1]

/-- Then `io.write(io.stdin(), ...)` writes to the file. -/
theorem stdinReopened_confused : ¬ Unconfused stdinReopened := by
  intro h
  exact h.stdin 0 rfl (.write [.integer 0, .string (bytes "x")] 1 []) rfl 1 (by decide)

end Aer.Stdlib.Files
