import LinearScan.Allocator.Activate
import LinearScan.Allocator.Release

/-!
# Scanning a tree

A tree is scanned in three parts.  First the registers that are no longer needed
are released, where operands still count as needed, and the spills and restores
recorded at the tree are carried out.  Then, if results may go into the
registers of operands, those are released as well.  Last, the tree gets the
register it needs: a read of a local variable the one of the variable, a store
the one of its operand, and any other tree that produces a value a register for
a new temporary.
-/

namespace LinearScan
namespace Alloc

/-- Carry out a spill that is recorded at the tree. -/
def carrySpill (g : Graph) (spill : Spill) : Alloc Unit := do
  let liveIn := (← interval spill.interval).liveIn
  if liveIn.isNone then
    throw .recordedSpillInactive
  if spill.reg ≠ liveIn then
    throw .recordedSpillElsewhere
  dropActive g spill.interval
  occupy spill.reg none
  setLiveIn spill.interval none

/-- Carry out spills that are recorded at the tree. -/
def carrySpills (g : Graph) : List Spill → Alloc Unit
  | [] => pure ()
  | spill :: rest => do
      carrySpill g spill
      carrySpills g rest

/-- Carry out the restore that is recorded at `t` in place `k`, and note the
register that was found for it. -/
def carryRestore (g : Graph) (t : Tree) (k : Nat) (restore : Restore) : Alloc Unit := do
  if (← interval restore.interval).liveIn.isSome then
    throw .recordedRestoreActive
  activate g t restore.interval
  let reg := (← interval restore.interval).liveIn
  modifyNotes fun n => n.modifyTree t fun note =>
    { note with restores := note.restores.modify k fun r => { r with reg } }

/-- Carry out restores that are recorded at `t` from place `k` on. -/
def carryRestores (g : Graph) (t : Tree) : Nat → List Restore → Alloc Unit
  | _, [] => pure ()
  | k, restore :: rest => do
      carryRestore g t k restore
      carryRestores g t (k + 1) rest

/-- Release registers and carry out what is recorded at `t`. -/
def prepare (g : Graph) (t : Tree) : Alloc Unit := do
  let reuse := (← get).reuse
  modify fun s => { s with reuse := false }
  release t
  carrySpills g ((← get).notes.tree t).spills
  carryRestores g t 0 ((← get).notes.tree t).restores
  modify fun s => { s with reuse }
  if reuse then
    release t

/-- Scan a read of a local variable. -/
def scanLoad (g : Graph) (t : Tree) : Alloc Unit := do
  let i ← ofExcept ((← get).slotOf t)
  activate g t i
  match (← interval i).liveIn with
  | some reg => setReg t reg
  | none => pure ()

/-- Clear the way for a store into `reg`: a local variable that lives there is
spilled, and a temporary is no longer active. -/
def clearFor (g : Graph) (t : Tree) (reg : Int) : Alloc Unit := do
  match ← occupant (some reg) with
  | none => pure ()
  | some j =>
      if (← interval j).owner.isTemp then
        dropActive g j
      else
        let _ ← spill g t j

/-- Let the local variable with interval `i` live in `reg` from now on. -/
def settle (g : Graph) (t : Tree) (i : IntervalId) (reg : Int) : Alloc Unit := do
  clearFor g t reg
  match (← interval i).liveIn with
  | some old =>
      emit (toString old)
      occupy (some old) none
  | none => pushActive i
  setLiveIn i (some reg)
  occupy (some reg) (some i)

/-- Scan a store to a local variable. -/
def scanStore (g : Graph) (t : Tree) : Alloc Unit := do
  let i ← ofExcept ((← get).slotOf t)
  match t.subtrees with
  | [] => throw .outOfRange
  | value :: _ =>
      let reg := (← get).notes.reg value
      if (← interval i).liveIn ≠ some reg then
        settle g t i reg
      modifyNotes fun n => (g.sharers t).foldl (fun n u => n.addStored u reg) n

/-- Scan a tree that produces a value for the tree `p`. -/
def scanTemp (g : Graph) (t p : Tree) : Alloc Unit := do
  let i := (← get).notes.intervalCount
  modifyNotes fun n => n.addInterval
    { owner := .temp t, uses := [p], writes := [t], firstWrite := n.index t, lastRead := n.index p }
  activate g t i
  match (← interval i).liveIn with
  | some reg => setReg t reg
  | none => pure ()

/-- Give a tree the register it needs. -/
def place (g : Graph) (t : Tree) : Alloc Unit :=
  match t.kind with
  | .ldLocal => scanLoad g t
  | .stLocal => scanStore g t
  | _ =>
      match g.parent t with
      | some p => scanTemp g t p
      | none => pure ()

/-- Scan a tree. -/
def scanTree (g : Graph) (t : Tree) : Alloc Unit := do
  modify fun s => { s with tree := some t }
  prepare g t
  place g t

/-- Scan trees in order. -/
def scanTrees (g : Graph) : List Tree → Alloc Unit
  | [] => pure ()
  | t :: rest => do
      scanTree g t
      scanTrees g rest

end Alloc
end LinearScan
