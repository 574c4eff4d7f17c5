import Aer.Machine.Collections

set_option linter.all false

/-! One process with several chunk and machine pairs. The pools are the process's own,
so a collection that one machine triggers sweeps the data of all of them. -/
namespace Aer.Program

open Aer.Data Aer.Memory Aer.Machine Aer.Compiler Aer.Lib.Interaction

structure Pair where
  vm : Vm
  chunk : Chunk

/-- The pair's machine over the heap of the process. -/
def Pair.over (p : Pair) (heap : Heap) : State :=
  { State.init with vm := p.vm, chunk := p.chunk, heap }

def modulePair (m : FileModule) : Pair := ⟨m.vm, m.chunk⟩

/-- A collection, with the process as it was before it. -/
structure Collection where
  running : Nat
  pairs : List Pair
  modules : List FileModule
  heap : Heap
  minor : Bool

namespace Collection

/-- Whose roots the collector enumerates: the dispatching machine and the file modules. -/
def enumerated (c : Collection) : List Pair :=
  c.pairs[c.running]?.toList ++ c.modules.map modulePair

def roots (c : Collection) : List Root :=
  c.enumerated.flatMap fun p => (p.over c.heap).roots

def after (c : Collection) : Heap := c.heap.gcCollect c.roots c.minor

end Collection

/-- What the host has set up, what the pairs share, and the collections made so far,
newest first; the code keeps no record of them. -/
structure Process where
  pairs : List Pair
  modules : List FileModule
  heap : Heap
  gc : GcState
  runtimeHadError : Bool
  errors : List (Nat × Bytes)
  output : List Bytes
  assertFailureCount : Nat
  nativeCalls : List NativeCall
  collections : List Collection

namespace Process

def init : Process where
  pairs := []
  modules := []
  heap := .init
  gc := {}
  runtimeHadError := false
  errors := []
  output := []
  assertFailureCount := 0
  nativeCalls := []
  collections := []

/-- The machine of a pair as it runs in the process. -/
def state (p : Process) (pair : Pair) : State where
  vm := pair.vm
  chunk := pair.chunk
  heap := p.heap
  gc := p.gc
  runtimeHadError := p.runtimeHadError
  errors := p.errors
  output := p.output
  assertFailureCount := p.assertFailureCount
  nativeCalls := p.nativeCalls

/-- The process after the machine of pair `i` has come to a state. -/
def resume (p : Process) (i : Nat) (s : State) : Process :=
  { p with
    pairs := p.pairs.set i ⟨s.vm, s.chunk⟩
    heap := s.heap
    gc := s.gc
    runtimeHadError := s.runtimeHadError
    errors := s.errors
    output := s.output
    assertFailureCount := s.assertFailureCount
    nativeCalls := s.nativeCalls }

def gcCollect (p : Process) (i : Nat) (minor : Bool) : Process :=
  let c : Collection := ⟨i, p.pairs, p.modules, p.heap, minor⟩
  { p with heap := c.after, collections := c :: p.collections }

def minorCycle (p : Process) (i : Nat) : Process :=
  let p := p.gcCollect i true
  { p with
    heap := { p.heap with allocCount := 0 }
    gc :=
      { p.gc with
        minorCollections := p.gc.minorCollections + 1
        minorSinceMajor := p.gc.minorSinceMajor + 1 } }

def majorCycle (p : Process) (i : Nat) : Process :=
  let p := p.gcCollect i false
  { p with
    gc := { p.gc with majorCollections := p.gc.majorCollections + 1, minorSinceMajor := 0 } }

def reportCeiling (p : Process) (i : Nat) : Process :=
  match p.pairs[i]? with
  | none => p
  | some pair => p.resume i (p.state pair).reportCeiling

def checkCeiling (p : Process) (i : Nat) (majorRan : Bool) : Process :=
  if p.gc.ceiling = 0 ∨ p.heap.liveCells ≤ p.gc.ceiling then p
  else if majorRan then p.reportCeiling i
  else (p.majorCycle i).reportCeiling i

def gcRunCollectionCycle (p : Process) (i : Nat) : Process :=
  let p := p.minorCycle i
  if p.gc.majorEveryNMinor ≤ p.gc.minorSinceMajor then (p.majorCycle i).checkCeiling i true
  else p.checkCeiling i false

def gcMaybeCollect (p : Process) (i : Nat) : Process :=
  if 0 < p.gc.suppressDepth then p
  else if p.heap.allocCount < p.gc.minorThreshold then p
  else p.gcRunCollectionCycle i

/-- One turn of the dispatch loop of pair `i`. -/
def turn (cfg : Config) (i : Nat) (p : Process) : Process :=
  if p.runtimeHadError then p
  else
    let p := p.gcMaybeCollect i
    match p.pairs[i]? with
    | none => p
    | some pair => p.resume i (instruction.run (exec cfg) (p.state pair)).state

end Process

/-- What a host does with the process. -/
inductive HostStep
  /-- `chunk_init` and `vm_init` of a further pair -/
  | init
  /-- `aer_gc_configure` -/
  | configure (minorThreshold majorEveryNMinor : Nat)
  /-- `aer_gc_set_ceiling` -/
  | setCeiling (maxLiveCells : Nat)
  /-- `lex`, `parse` and the final `OP_HALT`, onto the chunk of a pair -/
  | compile (i : Nat) (env : Env) (fuel imports : Nat) (file : File)
  /-- the documented reset before the next `vm_run` of a pair -/
  | reset (i ip : Nat)
  /-- what calls into them have made of the file modules' own machines -/
  | modules (ms : List FileModule)
  | turn (i : Nat)

namespace Process

def compile (p : Process) (i : Nat) (env : Env) (fuel imports : Nat) (file : File) : Process :=
  match p.pairs[i]? with
  | none => p
  | some pair =>
      let start := { Parser.start .run file pair.chunk p.heap with modules := p.modules }
      let s := (compileProgram env fuel imports start).state
      { p with pairs := p.pairs.set i ⟨pair.vm, s.chunk⟩, modules := s.modules, heap := s.heap }

def reset (p : Process) (i ip : Nat) : Process :=
  match p.pairs[i]? with
  | none => p
  | some pair =>
      let s := p.state pair
      let s := { s with vm := { s.vm with ip, stackTop := 0, callDepth := 0 } }
      p.resume i { s.unwindScopes 1 with runtimeHadError := false }

def perform (cfg : Config) (p : Process) : HostStep → Process
  | .init => { p with pairs := p.pairs ++ [⟨.init, .init⟩] }
  | .configure minorThreshold majorEveryNMinor =>
      { p with
        gc :=
          { p.gc with
            minorThreshold := if minorThreshold = 0 then p.gc.minorThreshold else minorThreshold
            majorEveryNMinor :=
              if majorEveryNMinor = 0 then p.gc.majorEveryNMinor else majorEveryNMinor } }
  | .setCeiling maxLiveCells => { p with gc := { p.gc with ceiling := maxLiveCells } }
  | .compile i env fuel imports file => p.compile i env fuel imports file
  | .reset i ip => p.reset i ip
  | .modules ms => { p with modules := ms }
  | .turn i => p.turn cfg i

/-- The process after a host's steps, from its start. -/
def run (cfg : Config) (steps : List HostStep) : Process :=
  steps.foldl (perform cfg) init

end Process

end Aer.Program
