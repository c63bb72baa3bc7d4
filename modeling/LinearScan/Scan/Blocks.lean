import LinearScan.Ir
import LinearScan.Scan.Step

/-!
# Scanning blocks

A block starts with the registers as one of its predecessors has left them, and
with empty registers if it has no predecessor.  Of several predecessors the first
one that has been scanned counts.  A block ends with its local variables in
registers and without temporaries.
-/

namespace LinearScan

/-- The exit set of the first of the blocks that has one. -/
def Notes.firstExit (n : Notes) : List BlockId → Option Crossings
  | [] => none
  | b :: rest =>
      match (n.block b).exit with
      | some crossings => some crossings
      | none => n.firstExit rest

namespace Alloc

/-- Say of each of the intervals that it lives in no register. -/
def forget : List IntervalId → Alloc Unit
  | [] => pure ()
  | i :: rest => do
      setLiveIn i none
      forget rest

/-- Empty all registers. -/
def clear : Alloc Unit := do
  modify fun s => { s with registers := s.registers.map fun _ => none }
  forget (← get).active
  modify fun s => { s with active := [] }

/-- Put intervals into the registers they come in. -/
def seat : List Crossing → Alloc Unit
  | [] => pure ()
  | c :: rest => do
      occupy c.reg (some c.interval)
      setLiveIn c.interval c.reg
      pushActive c.interval
      seat rest

/-- Start the block `b`. -/
def enter (b : BlockId) : Alloc Unit := do
  modify fun s => { s with block := some b }
  clear
  let n := (← get).notes
  match (n.block b).predecessors with
  | [] => pure ()
  | predecessors =>
      match n.firstExit predecessors with
      | none => throw .noExitSet
      | some crossings =>
          seat crossings.members
          modifyNotes fun n => n.modifyBlock b fun note => { note with entry := some crossings }

/-- Empty the registers of the temporaries; the result is the list of the
others. -/
def dropTemps : List IntervalId → Alloc (List IntervalId)
  | [] => pure []
  | i :: rest => do
      let iv ← interval i
      if iv.owner.isTemp then
        occupy iv.liveIn none
        setLiveIn i none
        dropTemps rest
      else
        return i :: (← dropTemps rest)

/-- End the block `b`. -/
def depart (b : BlockId) : Alloc Unit := do
  let kept ← dropTemps (← get).active
  modify fun s =>
    { s with
      active := kept
      notes := s.notes.setExit b (kept.map fun i => ⟨(s.interval i).liveIn, i⟩) }

/-- Scan a block. -/
def scanBlock (g : Graph) (b : BlockId) : Alloc Unit := do
  enter b
  scanTrees g (g.treesOf b)
  depart b

/-- Scan blocks in order. -/
def scanBlocks (g : Graph) : List BlockId → Alloc Unit
  | [] => pure ()
  | b :: rest => do
      scanBlock g b
      scanBlocks g rest

end Alloc
end LinearScan
