import Aer.Compiler.Program
import Aer.Machine.Step

set_option linter.all false

/-! Programs from source to run: the machine on the chunk that a text compiles to. -/
namespace Aer.Program

open Aer.Data Aer.Memory Aer.Machine

/-- What the text compiles to behind earlier programs of the same machine, with a bound on the nesting of the parser's calls. -/
def compileOnto (fuel : Nat) (text : String) (s : State) : Compiler.Parser :=
  (Compiler.compileProgram .alone fuel 0 (.start .run (.open [] (bytes text)) s.chunk s.heap)).state

/-- A new machine about to run the program. -/
def load (fuel : Nat) (text : String) : State :=
  { State.init with
    chunk := (compileOnto fuel text .init).chunk
    heap := (compileOnto fuel text .init).heap }

/-- The state of the program after `n` instructions, or where it has stopped before. -/
def after (n fuel : Nat) (text : String) : State :=
  (vmRun {} n (load fuel text)).state

theorem steps_after {n fuel : Nat} {text : String}
    (h : (vmRun {} n (load fuel text)).isDone = true) :
    Steps {} (load fuel text) (after n fuel text) :=
  steps_of_vmRun (Lib.Interaction.Outcome.eq_done_of_isDone h)

end Aer.Program
