import LinearScan.Import
import LinearScan.Scan.Basic

/-!
# Compiling a program

A program is read into a graph of its own and scanned with a new allocator.  The
program itself comes back changed: its stores show the registers they took their
values from.
-/

namespace LinearScan

/-- What an allocator is made with. -/
structure Settings where
  /-- How many registers there are. -/
  registers : Int := 4
  /-- Whether a result may go into the register of an operand. -/
  reuse : Bool := true
deriving DecidableEq, Repr

/-- A compiled program. -/
structure Compiled where
  graph : Graph
  ir : Ir
  /-- The allocator as the scan left it. -/
  alloc : Allocator
  /-- What stopped the scan, if anything did. -/
  fault : Option Fault
  /-- The program as the scan left it. -/
  program : Program

namespace Program

/-- Compile a program. -/
def compile (p : Program) (settings : Settings) : Except Fault Compiled := do
  let m ← p.import?
  let alloc := Allocator.create m.notes settings.registers settings.reuse
  let (alloc, fault) :=
    match Alloc.scan m.graph m.ir alloc with
    | .ok _ alloc => (alloc, none)
    | .error fault alloc => (alloc, some fault)
  return { graph := m.graph, ir := m.ir, alloc, fault, program := p.refresh alloc.notes m.stores }

end Program
end LinearScan
