import Aer.Program.Process

set_option linter.all false

/-! What the collections of a process keep of the pairs that do not run. The collector
starts from the running machine and the file modules only. -/
namespace Aer.Program

open Aer.Data Aer.Memory Aer.Machine Aer.Compiler Aer.Lib Aer.Lib.Interaction

section Alone

/-- A process with a single pair. -/
def Process.alone (s : State) (cs : List Collection) : Process where
  pairs := [⟨s.vm, s.chunk⟩]
  modules := []
  heap := s.heap
  gc := s.gc
  runtimeHadError := s.runtimeHadError
  errors := s.errors
  output := s.output
  assertFailureCount := s.assertFailureCount
  nativeCalls := s.nativeCalls
  collections := cs

variable (s : State) (cs : List Collection)

theorem alone_state : (Process.alone s cs).state ⟨s.vm, s.chunk⟩ = s := rfl

theorem alone_resume (t : State) : (Process.alone s cs).resume 0 t = .alone t cs := rfl

theorem alone_roots (minor : Bool) :
    Collection.roots ⟨0, [⟨s.vm, s.chunk⟩], [], s.heap, minor⟩ = s.roots :=
  List.append_nil _

theorem alone_gcCollect (minor : Bool) :
    ∃ cs', (Process.alone s cs).gcCollect 0 minor = .alone (s.gcCollect minor) cs' := by
  refine ⟨⟨0, [⟨s.vm, s.chunk⟩], [], s.heap, minor⟩ :: cs, ?_⟩
  simp only [Process.gcCollect, Process.alone, Collection.after, alone_roots, State.gcCollect]

theorem alone_minorCycle : ∃ cs', (Process.alone s cs).minorCycle 0 = .alone s.minorCycle cs' := by
  obtain ⟨cs', h⟩ := alone_gcCollect s cs true
  refine ⟨cs', ?_⟩
  unfold Process.minorCycle State.minorCycle
  rw [h]
  generalize s.gcCollect true = t
  rfl

theorem alone_majorCycle : ∃ cs', (Process.alone s cs).majorCycle 0 = .alone s.majorCycle cs' := by
  obtain ⟨cs', h⟩ := alone_gcCollect s cs false
  refine ⟨cs', ?_⟩
  unfold Process.majorCycle State.majorCycle
  rw [h]
  generalize s.gcCollect false = t
  rfl

theorem alone_reportCeiling : (Process.alone s cs).reportCeiling 0 = .alone s.reportCeiling cs := rfl

theorem alone_checkCeiling (majorRan : Bool) :
    ∃ cs', (Process.alone s cs).checkCeiling 0 majorRan = .alone (s.checkCeiling majorRan) cs' := by
  unfold Process.checkCeiling State.checkCeiling
  change ∃ cs', (if s.gc.ceiling = 0 ∨ s.heap.liveCells ≤ s.gc.ceiling then _ else _) = _
  split
  · exact ⟨cs, rfl⟩
  · split
    · exact ⟨cs, alone_reportCeiling s cs⟩
    · obtain ⟨cs', h⟩ := alone_majorCycle s cs
      exact ⟨cs', by rw [h, alone_reportCeiling]⟩

theorem alone_gcMaybeCollect :
    ∃ cs', (Process.alone s cs).gcMaybeCollect 0 = .alone s.gcMaybeCollect cs' := by
  unfold Process.gcMaybeCollect State.gcMaybeCollect
  change ∃ cs', (if 0 < s.gc.suppressDepth then _ else
    if s.heap.allocCount < s.gc.minorThreshold then _ else _) = _
  split
  · exact ⟨cs, rfl⟩
  · split
    · exact ⟨cs, rfl⟩
    · unfold Process.gcRunCollectionCycle State.gcRunCollectionCycle
      obtain ⟨cs', hminor⟩ := alone_minorCycle s cs
      simp only [hminor]
      change ∃ cs', (if s.minorCycle.gc.majorEveryNMinor ≤ s.minorCycle.gc.minorSinceMajor
        then _ else _) = _
      split
      · obtain ⟨cs'', hmajor⟩ := alone_majorCycle s.minorCycle cs'
        rw [hmajor]
        exact alone_checkCeiling _ cs'' true
      · exact alone_checkCeiling _ cs' false

/-- With a single pair and no file modules the process goes as the machine alone. -/
theorem alone_turn (cfg : Config) :
    ∃ cs', (Process.alone s cs).turn cfg 0 = .alone (dispatch cfg s).state cs' := by
  unfold Process.turn dispatch
  change ∃ cs', (if s.runtimeHadError then _ else _) = _
  split
  · exact ⟨cs, rfl⟩
  · obtain ⟨cs', h⟩ := alone_gcMaybeCollect s cs
    simp only [h]
    exact ⟨cs', rfl⟩

end Alone

/-- What a pair's stack, scopes and constant pool refer to. -/
def Pair.refs (p : Pair) : List Ref :=
  ((List.range p.vm.stackTop).map fun i => .val (p.vm.stack i)) ++
    ((List.range p.vm.scopeDepth).flatMap fun i => State.scopeRefs (p.vm.scopes i)) ++
    p.chunk.pool.map .val

namespace Collection

/-- What the trace of the collection starts from. -/
def refs (c : Collection) : List Ref :=
  (c.enumerated.flatMap fun p => (p.over c.heap).rootRefs) ++ c.heap.rememberedRefs c.minor

/-- No cell that another pair can reach is freed. -/
def KeepsOthers (c : Collection) : Prop :=
  ∀ j pair, j ≠ c.running → c.pairs[j]? = some pair →
    ∀ n, c.heap.ReachedCell pair.refs (.traced n) → c.heap.Live n → c.after.Live n

/-- Every cell that another pair can reach and that the pass considers can also be
reached from where the trace starts. -/
def OthersCovered (c : Collection) : Prop :=
  ∀ j pair, j ≠ c.running → c.pairs[j]? = some pair →
    ∀ n, c.heap.ReachedCell pair.refs (.traced n) → c.heap.Sweepable c.minor n →
      c.heap.ReachedCell c.refs (.traced n)

theorem covers_roots (c : Collection) :
    c.heap.Covers (c.enumerated.flatMap fun p => (p.over c.heap).rootRefs)
      (c.roots.map Root.toVal) := by
  rw [roots, List.map_flatMap]
  exact .flatMap fun p _ => (p.over c.heap).covers_roots

theorem reached_roots (c : Collection) {v : AerVal} (hv : v ∈ c.roots.map Root.toVal) :
    c.heap.Reached (c.enumerated.flatMap fun p => (p.over c.heap).rootRefs) (.val v) := by
  rw [roots, List.map_flatMap] at hv
  obtain ⟨p, hp, hv⟩ := List.mem_flatMap.mp hv
  exact ((p.over c.heap).reached_roots hv).mono fun r hr => List.mem_flatMap.mpr ⟨p, hp, hr⟩

theorem freed_iff (c : Collection) {n : Cell} (hl : c.heap.Live n) :
    ¬ c.after.Live n ↔ c.heap.Sweepable c.minor n ∧ ¬ c.heap.ReachedCell c.refs (.traced n) :=
  Heap.freed_iff_not_reached c.covers_roots (fun _ hv => c.reached_roots hv) c.minor hl

theorem keepsOthers_iff (c : Collection) : c.KeepsOthers ↔ c.OthersCovered := by
  constructor
  · intro hkeep j pair hj hpair n hreach hsweep
    by_contra hnot
    exact (c.freed_iff hsweep.1).mpr ⟨hsweep, hnot⟩ (hkeep j pair hj hpair n hreach hsweep.1)
  · intro hcover j pair hj hpair n hreach hl
    by_contra hfreed
    obtain ⟨hsweep, hnot⟩ := (c.freed_iff hl).mp hfreed
    exact hnot (hcover j pair hj hpair n hreach hsweep)

end Collection

/-- In every run of a host, the collections keep the other pairs' data exactly when all
of it that they consider can be reached from the running machine as well. -/
theorem Process.run_keepsOthers_iff (cfg : Config) (steps : List HostStep) :
    (∀ c ∈ (Process.run cfg steps).collections, c.KeepsOthers) ↔
      ∀ c ∈ (Process.run cfg steps).collections, c.OthersCovered := by
  simp only [Collection.keepsOthers_iff]

section Sample

def sourceFile (text : String) : File := .open [] (bytes text)

/-- Two independent pairs: the first has run its program to the end and keeps an array
in a global variable when the second begins to run. -/
def twoPairs : List HostStep :=
  [.init, .compile 0 .alone 20 0 (sourceFile "x = [1]\n"), .turn 0, .turn 0, .turn 0, .turn 0,
    .turn 0, .init, .compile 1 .alone 20 0 (sourceFile "y = 2\n"), .configure 1 10, .turn 1]

theorem twoPairs_collection :
    ∃ c ∈ (Process.run {} twoPairs).collections, ∃ pair ∈ c.pairs[0]?,
      .val (.array 0) ∈ pair.refs ∧ c.running = 1 ∧ c.heap.arrays.Live 0 ∧
        ¬ c.after.arrays.Live 0 := by
  decide +kernel

/-- The collection that the second pair triggers frees the array of the first. -/
theorem Process.twoPairs_lost :
    ¬ ∀ c ∈ (Process.run {} twoPairs).collections, c.KeepsOthers := by
  obtain ⟨c, hc, pair, hpair, href, hrunning, hl, hfreed⟩ := twoPairs_collection
  intro hkeep
  have hne : 0 ≠ c.running := by rw [hrunning]; decide
  exact hfreed (hkeep c hc 0 pair hne hpair (.array 0) ⟨_, .root href, rfl⟩ hl)

end Sample

end Aer.Program
