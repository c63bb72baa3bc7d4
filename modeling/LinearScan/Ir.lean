import LinearScan.Graph.Basic
import LinearScan.Notes

/-!
# Intermediate code

A unit of intermediate code is a chain of blocks and a number of local
variables.  The two passes here prepare it for register allocation: every tree
gets its index, and every block learns from which blocks it can be reached.
-/

namespace LinearScan

/-- A unit of intermediate code. -/
structure Ir where
  /-- The block with which execution starts. -/
  first : BlockId
  /-- How many local variables there are. -/
  locals : Int
  /-- How many trees were numbered. -/
  count : Nat := 0
deriving DecidableEq, Repr

/-- Go over the edges among the operands of a terminator.  An operand that is no
edge is only met after the edges before it. -/
def eachEdge {σ : Type} (visit : EdgeId → BlockId → EStateM Fault σ Unit) :
    List Operand → EStateM Fault σ Unit
  | [] => pure ()
  | .edge e target :: rest => do
      visit e target
      eachEdge visit rest
  | _ :: _ => throw .edgeExpected

namespace Ir

/-- The blocks of a unit in order. -/
def blocks (ir : Ir) (g : Graph) : List BlockId :=
  g.blocksFrom ir.first

/-- The trees of a unit in execution order. -/
def trees (ir : Ir) (g : Graph) : List Tree :=
  g.treesFrom ir.first

/-- Give every tree its place in execution order as index.  A tree that is
reached twice keeps the later one. -/
def reindex (ir : Ir) (g : Graph) (n : Notes) : Ir × Notes :=
  let ts := ir.trees g
  ({ ir with count := ts.length }, n.number 0 ts)

/-- Go over the edges that leave the block `b`. -/
def eachExit {σ : Type} (g : Graph) (n : Notes) (b : BlockId)
    (visit : EdgeId → BlockId → EStateM Fault σ Unit) : EStateM Fault σ Unit :=
  match g.terminator b with
  | .ok t => eachEdge visit (n.operands t)
  | .error fault => throw fault

/-- Note at the target of each edge out of `b` that `b` is a predecessor. -/
def notePredecessor (g : Graph) (b : BlockId) : EStateM Fault Notes Unit := do
  eachExit g (← get) b fun _ target =>
    modify fun n => n.modifyBlock target fun note =>
      { note with predecessors := note.predecessors ++ [b] }

/-- Note for each of the blocks at which targets it is a predecessor. -/
def notePredecessors (g : Graph) : List BlockId → EStateM Fault Notes Unit
  | [] => pure ()
  | b :: rest => do
      notePredecessor g b
      notePredecessors g rest

/-- Let every block of a unit know its predecessors.  What was noted before
stays, so that doing it twice doubles the lists. -/
def recomputePredecessors (ir : Ir) (g : Graph) : EStateM Fault Notes Unit :=
  notePredecessors g (ir.blocks g)

end Ir
end LinearScan
