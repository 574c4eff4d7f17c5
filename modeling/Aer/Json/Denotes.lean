import Aer.Json.Totality
import Aer.Memory.Growth
import Aer.Data.TableLimit

set_option linter.all false

/-! The value that a parsed text becomes in the heap. -/
namespace Aer.Json

open Aer.Data Aer.Memory Aer.Memory.Heap

/-- The value `v` is what `j` denotes, made of cells outside `old` only. A dict is the
table that puts the members in order. -/
inductive Denotes (old : Cell → Prop) (h : Heap) : AerVal → Tree → Prop
  | null : Denotes old h .null .null
  | boolean (b : Bool) : Denotes old h (.boolean b) (.boolean b)
  | integer (n : Int47) : Denotes old h (.integer n) (.integer n.val)
  | long {c : Nat} (hold : ¬ old (.long c)) (hc : h.Live (.long c)) :
      Denotes old h (.long c) (.integer (h.longs.data c))
  | real (l : Bytes) : Denotes old h (aerReal (Double.strtod (cutLiteral l))) (.real l)
  | string {c : Nat} (hold : ¬ old (.string c)) (hc : h.Live (.string c)) :
      Denotes old h (.string c) (.string (h.strings.data c))
  | array {c : Nat} {js : List Tree} (hold : ¬ old (.array c)) (hc : h.Live (.array c))
      (hshape : (h.arrays.data c).shape = none)
      (hlen : (h.arrays.data c).items.length = js.length)
      (hitems : ∀ v j, (v, j) ∈ (h.arrays.data c).items.zip js → Denotes old h v j) :
      Denotes old h (.array c) (.array js)
  | dict {c : Nat} {ms : List (Bytes × Tree)} {vs : List AerVal} (hold : ¬ old (.dict c))
      (hc : h.Live (.dict c)) (hlen : vs.length = ms.length)
      (hdata : h.dicts.data c = HashTable.putAll ((ms.map Prod.fst).zip vs))
      (hvals : ∀ v m, (v, m) ∈ vs.zip ms → Denotes old h v m.2) :
      Denotes old h (.dict c) (.object ms)

variable {old old' x : Cell → Prop} {h h' : Heap} {v : AerVal} {j : Tree}

/-- What is written may only be cells the value is not made of. -/
theorem Denotes.grow (hd : Denotes old h v j) (hg : GrowsBut x h h') (hx : ∀ n, x n → old n) :
    Denotes old h' v j := by
  have hkeep : ∀ n, ¬ old n → h.Live n → SameData h h' n :=
    fun n hold hn => hg.data n hn fun hxn => hold (hx n hxn)
  induction hd with
  | null => exact .null
  | boolean b => exact .boolean b
  | integer n => exact .integer n
  | long hold hc =>
    have hs : _ = _ := hkeep _ hold hc
    exact hs ▸ .long hold (hg.live _ hc)
  | real l => exact .real l
  | string hold hc =>
    have hs : _ = _ := hkeep _ hold hc
    exact hs ▸ .string hold (hg.live _ hc)
  | array hold hc hshape hlen _ ih =>
    have hs : _ = _ := hkeep _ hold hc
    exact .array hold (hg.live _ hc) (hs ▸ hshape) (hs ▸ hlen) (hs ▸ ih)
  | dict hold hc hlen hdata _ ih =>
    have hs : _ = _ := hkeep _ hold hc
    exact .dict hold (hg.live _ hc) hlen (hs.trans hdata) ih

theorem Denotes.mono (hd : Denotes old h v j) (hold' : ∀ n, old' n → old n) :
    Denotes old' h v j := by
  induction hd with
  | null => exact .null
  | boolean b => exact .boolean b
  | integer n => exact .integer n
  | long hold hc => exact .long (fun hn => hold (hold' _ hn)) hc
  | real l => exact .real l
  | string hold hc => exact .string (fun hn => hold (hold' _ hn)) hc
  | array hold hc hshape hlen _ ih => exact .array (fun hn => hold (hold' _ hn)) hc hshape hlen ih
  | dict hold hc hlen hdata _ ih => exact .dict (fun hn => hold (hold' _ hn)) hc hlen hdata ih

theorem denotes_string (hw : h.PoolsWf) (b : Bytes) :
    Denotes h.Live (h.aerMakeString b).2 (h.aerMakeString b).1 (.string b) := by
  have hf := hw.strings.alloc_fresh b
  have hdata : (h.aerMakeString b).2.strings.data (h.strings.alloc b).1 = b := hf.data_self
  have : Denotes h.Live (h.aerMakeString b).2 (.string (h.strings.alloc b).1) _ :=
    .string hf.fresh ((hf.live _).mpr (.inl rfl))
  rwa [hdata] at this

theorem denotes_integer (hw : h.PoolsWf) (n : Int) :
    Denotes h.Live (h.aerInt n).2 (h.aerInt n).1 (.integer n) := by
  unfold aerInt
  split
  · exact .integer ⟨n, _⟩
  · have hf := hw.longs.alloc_fresh n
    have hdata : (h.newLong n).2.longs.data (h.longs.alloc n).1 = n := hf.data_self
    have : Denotes h.Live (h.newLong n).2 (.long (h.longs.alloc n).1) _ :=
      .long hf.fresh ((hf.live _).mpr (.inl rfl))
    rwa [hdata] at this

end Aer.Json
