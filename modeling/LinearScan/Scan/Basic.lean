import LinearScan.Scan.Lives
import LinearScan.Scan.Blocks
import LinearScan.Scan.Edges

/-!
# The linear scan

Register allocation in one pass over the code: find the lives of the local
variables, scan the blocks in order, then bring the registers to agreement
along the edges.
-/

namespace LinearScan.Alloc

/-- Allocate registers for a unit of intermediate code. -/
def scan (g : Graph) (ir : Ir) : Alloc Unit := do
  survey g ir
  scanBlocks g (ir.blocks g)
  resolveEdges g (ir.blocks g)

end LinearScan.Alloc
