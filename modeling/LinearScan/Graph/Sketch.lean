import LinearScan.Graph.Basic

/-!
# Graphs from sketches

A sketch describes a tree before it has a number: its edges name their targets by
position in a chain of blocks.  Planting a sketch in a block makes the tree, unless
a position lies outside the chain.
-/

namespace LinearScan

/-- An operand of a sketched tree. -/
inductive SketchOperand where
  | literal (l : Literal)
  | operator (op : Operator)
  /-- A new edge to the block at `position`. -/
  | edge (position : Int)
deriving DecidableEq, Repr

/-- A tree that is not yet part of a graph. -/
inductive Sketch where
  | node (kind : TreeKind) (operands : List SketchOperand) (subtrees : List Sketch)

instance : Inhabited Sketch := ⟨.node .const [] []⟩

namespace Graph

/-- The block at a position of a chain. -/
def atPosition (chain : List BlockId) (position : Int) : Option BlockId :=
  if position < 0 then none else chain[position.toNat]?

/-- Make operands, where edges go to blocks of `chain`. -/
def plantOperands (g : Graph) (chain : List BlockId) :
    List SketchOperand → Option (List Operand × Graph)
  | [] => some ([], g)
  | o :: rest => do
      let (operand, g) ←
        match o with
        | .literal l => some (.literal l, g)
        | .operator op => some (.operator op, g)
        | .edge position => (atPosition chain position).map g.newEdge
      let (operands, g) ← g.plantOperands chain rest
      return (operand :: operands, g)

mutual

/-- Make a tree for the block `b`, with edges to blocks of `chain`. -/
def plant (g : Graph) (chain : List BlockId) (b : BlockId) : Sketch → Option (Tree × Graph)
  | .node kind operands subtrees => do
      let (subtrees, g) ← g.plantAll chain b subtrees
      let (operands, g) ← g.plantOperands chain operands
      return g.newTree kind operands b subtrees

/-- Make several trees for the block `b`. -/
def plantAll (g : Graph) (chain : List BlockId) (b : BlockId) :
    List Sketch → Option (List Tree × Graph)
  | [] => some ([], g)
  | s :: rest => do
      let (t, g) ← g.plant chain b s
      let (ts, g) ← g.plantAll chain b rest
      return (t :: ts, g)

end

/-- Make a tree and put it at the end of the block `b`. -/
def plantStmt (g : Graph) (chain : List BlockId) (b : BlockId) (offset : Int) (s : Sketch) :
    Option Graph := do
  let (t, g) ← g.plant chain b s
  return g.append b offset t

/-- Add blocks at the given offsets, linked both ways, the first one behind
`prev`. -/
def addLinked (g : Graph) (prev : Option BlockId) : List Int → Graph
  | [] => g
  | offset :: rest =>
      let b := g.blockCount
      let next := if rest.isEmpty then none else some (b + 1)
      (g.addBlock { offset, prev, next }).addLinked (some b) rest

/-- Put statements at the ends of blocks of `chain`. -/
def plantBlocks (g : Graph) (chain : List BlockId) :
    List (BlockId × List (Int × Sketch)) → Option Graph :=
  List.foldlM
    (fun g (b, stmts) => stmts.foldlM (fun g (offset, s) => g.plantStmt chain b offset s) g) g

/-- A new chain of blocks with the given offsets and statements, the first of
which gets the number `g.blockCount`.  A chain has at least one block: without any
block given it is the new chain that has no statements. -/
def build (g : Graph) (blocks : List (Int × List (Int × Sketch))) : Option Graph :=
  match blocks with
  | [] => some g.newChain
  | blocks =>
      let chain := (List.range blocks.length).map (g.blockCount + ·)
      (g.addLinked none (blocks.map (·.1))).plantBlocks chain (chain.zip (blocks.map (·.2)))

end Graph
end LinearScan
