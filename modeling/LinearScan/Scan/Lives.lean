import LinearScan.Allocator.Basic
import LinearScan.Ir

/-!
# The lives of the local variables

Before the scan, one pass over the trees collects for every local variable where
it is written and read.  No attempt is made to find out where a variable is read
for the last time: once a block has been gone over, every variable counts as
read up to the end of the code.
-/

namespace LinearScan
namespace Notes

/-- Note a write of the interval `i` by the tree `t`. -/
def addWrite (n : Notes) (i : IntervalId) (t : Tree) : Notes :=
  n.modifyInterval i fun iv =>
    { iv with
      firstWrite := if (n.index t : Int) < iv.firstWrite then n.index t else iv.firstWrite
      writes := iv.writes ++ [t] }

/-- Note a read of the interval `i` by the tree `t`, whose value is taken at
index `taken`. -/
def addRead (n : Notes) (i : IntervalId) (t : Tree) (taken : Nat) : Notes :=
  n.modifyInterval i fun iv =>
    { iv with
      lastRead := if iv.lastRead < (taken : Int) then taken else iv.lastRead
      uses := iv.uses ++ [t] }

/-- Let all the intervals be read up to the index `last`. -/
def extendReads (n : Notes) (last : Nat) (is : List IntervalId) : Notes :=
  is.foldl (fun n i => n.modifyInterval i fun iv => { iv with lastRead := last }) n

end Notes

namespace Alloc

/-- A new interval for each of `count` local variables, the first of which is
`k`. -/
def createSlots (ir : Ir) : Nat → Nat → Alloc Unit
  | _, 0 => pure ()
  | k, count + 1 => do
      modify fun s =>
        { s with
          slots := s.slots ++ [s.notes.intervalCount]
          notes := s.notes.addInterval
            { owner := .slot k, firstWrite := ir.count, lastRead := -1 } }
      createSlots ir (k + 1) count

/-- Note what the tree `t` does to a local variable. -/
def surveyTree (g : Graph) (t : Tree) : Alloc Unit := do
  match t.kind with
  | .stLocal =>
      let i ← ofExcept ((← get).slotOf t)
      modifyNotes fun n => n.addWrite i t
  | .ldLocal =>
      let i ← ofExcept ((← get).slotOf t)
      match g.parent t with
      | none => throw .noParent
      | some p => modifyNotes fun n => n.addRead i t (n.index p)
  | _ => pure ()

/-- Note what the trees do to the local variables. -/
def surveyTrees (g : Graph) : List Tree → Alloc Unit
  | [] => pure ()
  | t :: rest => do
      surveyTree g t
      surveyTrees g rest

/-- Note what the blocks do to the local variables. -/
def surveyBlocks (g : Graph) (ir : Ir) : List BlockId → Alloc Unit
  | [] => pure ()
  | b :: rest => do
      surveyTrees g (g.treesOf b)
      modify fun s => { s with notes := s.notes.extendReads ir.count s.slots }
      surveyBlocks g ir rest

/-- Find the lives of the local variables. -/
def survey (g : Graph) (ir : Ir) : Alloc Unit := do
  modify fun s => { s with slots := [] }
  createSlots ir 0 ir.locals.toNat
  surveyBlocks g ir (ir.blocks g)

end Alloc
end LinearScan
