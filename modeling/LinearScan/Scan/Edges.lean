import LinearScan.Allocator.Basic
import LinearScan.Ir
import LinearScan.Render.Record

/-!
# Agreement along edges

Where control passes along an edge, the registers have to change from what the
source left in them to what the target was scanned with.  What is in a register
only before is spilled, what is in another register is moved, and what is in a
register only after is restored.

For each move and each restore a line shows whose value it is, before the move or
restore is noted.
-/

namespace LinearScan
namespace Notes

/-- Whether two crossings are of the same local variable. -/
def sameSlot (n : Notes) (c d : Crossing) : Bool :=
  (n.interval c.interval).owner.sameSlot (n.interval d.interval).owner

/-- The spills on an edge from exit set `before` to entry set `after`. -/
def edgeSpills (n : Notes) (before after : List Crossing) : List Spill :=
  (before.filter fun c => !after.any fun d => n.sameSlot d c).map fun c => ⟨c.reg, c.interval⟩

/-- The moves on an edge from exit set `before` to entry set `after`. -/
def edgeMoves (n : Notes) (before after : List Crossing) : List Move :=
  before.flatMap fun c =>
    (after.filter fun d => n.sameSlot c d && c.reg != d.reg).map fun d =>
      ⟨c.reg, d.reg, c.interval⟩

/-- The restores on an edge from exit set `before` to entry set `after`. -/
def edgeRestores (n : Notes) (before after : List Crossing) : List Restore :=
  (after.filter fun d => !before.any fun c => n.sameSlot c d).map fun d => ⟨d.reg, d.interval⟩

/-- Note spills, moves and restores on the edge `e`. -/
def addTraffic (n : Notes) (e : EdgeId) (spills : List Spill) (moves : List Move)
    (restores : List Restore) : Notes :=
  n.modifyEdge e fun note =>
    { spills := note.spills ++ spills
      moves := note.moves ++ moves
      restores := note.restores ++ restores }

/-- The line that shows whose value the interval `i` is: the number of a local
variable, or the record of a tree. -/
def ownerLine (n : Notes) (g : Graph) (i : IntervalId) : String :=
  match (n.interval i).owner with
  | .slot k => toString k
  | .temp t => Entity.render g n (.tree t)

/-- The lines for moves.  Only local variables are moved, so that these lines do not
depend on what is noted on the edge. -/
def moveLines (n : Notes) (g : Graph) (moves : List Move) : List String :=
  moves.map fun m => n.ownerLine g m.interval

/-- The lines for restores on the edge `e`, where `n` has all that is noted before
them. -/
def restoreLines (g : Graph) (e : EdgeId) : Notes → List Restore → List String
  | _, [] => []
  | n, r :: rest => n.ownerLine g r.interval :: restoreLines g e (n.addTraffic e [] [] [r]) rest

theorem edge_addTraffic
    (n : Notes) (e d : EdgeId) (spills : List Spill) (moves : List Move)
    (restores : List Restore) :
    (n.addTraffic e spills moves restores).edge d =
      if e = d then
        { spills := (n.edge d).spills ++ spills
          moves := (n.edge d).moves ++ moves
          restores := (n.edge d).restores ++ restores }
      else n.edge d :=
  n.edge_modifyEdge e d _

@[simp]
theorem block_addTraffic
    (n : Notes) (e : EdgeId) (spills : List Spill) (moves : List Move)
    (restores : List Restore) (b : BlockId) :
    (n.addTraffic e spills moves restores).block b = n.block b :=
  rfl

@[simp]
theorem interval_addTraffic
    (n : Notes) (e : EdgeId) (spills : List Spill) (moves : List Move)
    (restores : List Restore) (i : IntervalId) :
    (n.addTraffic e spills moves restores).interval i = n.interval i :=
  rfl

end Notes

namespace Alloc

/-- Note on the edge `e` from `b` to `target` how the registers change. -/
def resolveEdge (g : Graph) (b : BlockId) (e : EdgeId) (target : BlockId) : Alloc Unit := do
  let s ← get
  let n := s.notes
  match (n.block target).entry with
  | none => throw .noEntrySet
  | some after =>
      let before := ((n.block b).exit.map Crossings.members).getD []
      let spills := n.edgeSpills before after.members
      let moves := n.edgeMoves before after.members
      let restores := n.edgeRestores before after.members
      let lines := n.moveLines g moves ++
        Notes.restoreLines g e (n.addTraffic e spills moves []) restores
      set { s with notes := n.addTraffic e spills moves restores, log := s.log ++ lines }

/-- Resolve the edges that leave the blocks. -/
def resolveEdges (g : Graph) : List BlockId → Alloc Unit
  | [] => pure ()
  | b :: rest => do
      Ir.eachExit g (← get).notes b (resolveEdge g b)
      resolveEdges g rest

end Alloc
end LinearScan
