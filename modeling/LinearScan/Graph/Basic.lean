import LinearScan.Table
import LinearScan.Tree

/-!
# Flow graphs

A flow graph is a table of blocks and a table of statements.  Blocks are
chained by `next`, and so are the statements of a block.  The links are kept as
numbers because they really are shared: after a block is cut in two, the chain
of one part may run into statements that the other part also reaches.

The numbers are given out in order of creation.  Nothing here changes what is
known about a tree; that is the business of the notes.
-/

namespace LinearScan

/-- A basic block. -/
structure Block where
  /-- The offset of the instruction at which the block starts. -/
  offset : Int := 0
  next : Option BlockId := none
  prev : Option BlockId := none
  first : Option StmtId := none
  last : Option StmtId := none
deriving DecidableEq, Repr, Inhabited

/-- A statement: a tree that stands on its own in a block. -/
structure Stmt where
  /-- The offset of the first instruction of the statement. -/
  offset : Int := 0
  next : Option StmtId := none
  prev : Option StmtId := none
  tree : Tree := default
deriving Inhabited

/-- Blocks and statements, with the counters from which new numbers come. -/
structure Graph where
  blocks : Table Block := {}
  stmts : Table Stmt := {}
  /-- The tree that has the given tree among its subtrees. -/
  parents : Table (Option Tree) := {}
  /-- The other trees that were read from the same store. -/
  twins : Table (List Tree) := {}
  blockCount : Nat := 0
  stmtCount : Nat := 0
  treeCount : Nat := 0
  edgeCount : Nat := 0
deriving Inhabited

namespace Graph

/-- The block with number `b`. -/
def block (g : Graph) (b : BlockId) : Block :=
  g.blocks.get b

/-- The statement with number `s`. -/
def stmt (g : Graph) (s : StmtId) : Stmt :=
  g.stmts.get s

/-- The tree that takes the value of `t`. -/
def parent (g : Graph) (t : Tree) : Option Tree :=
  g.parents.get t.id

/-- The trees that were read from the same store as `t`, first `t` itself.  They
have their operands in common. -/
def sharers (g : Graph) (t : Tree) : List Tree :=
  t :: g.twins.get t.id

/-! ## Chains -/

/-- At most `fuel` blocks along `next`. -/
def walkBlocks (g : Graph) : Nat → Option BlockId → List BlockId
  | 0, _ => []
  | _ + 1, none => []
  | fuel + 1, some b => b :: g.walkBlocks fuel (g.block b).next

/-- At most `fuel` statements along `next`. -/
def walkStmts (g : Graph) : Nat → Option StmtId → List StmtId
  | 0, _ => []
  | _ + 1, none => []
  | fuel + 1, some s => s :: g.walkStmts fuel (g.stmt s).next

/-- The chain of blocks that starts with `b`.  A chain never holds a block
twice, so it is no longer than the number of blocks. -/
def blocksFrom (g : Graph) (b : BlockId) : List BlockId :=
  g.walkBlocks g.blockCount (some b)

/-- The chain of statements of a block. -/
def stmtsOf (g : Graph) (b : BlockId) : List StmtId :=
  g.walkStmts g.stmtCount (g.block b).first

/-- The trees of a block in execution order. -/
def treesOf (g : Graph) (b : BlockId) : List Tree :=
  (g.stmtsOf b).flatMap fun s => (g.stmt s).tree.postorder

/-- The trees of the chain of blocks that starts with `b`, in execution
order. -/
def treesFrom (g : Graph) (b : BlockId) : List Tree :=
  (g.blocksFrom b).flatMap g.treesOf

/-- The tree with which a block ends. -/
def terminator (g : Graph) (b : BlockId) : Except Fault Tree :=
  match (g.block b).last with
  | some s => .ok (g.stmt s).tree
  | none => .error .noTerminator

/-! ## Changes of single rows -/

/-- Change the block with number `b`. -/
def modifyBlock (g : Graph) (b : BlockId) (f : Block → Block) : Graph :=
  { g with blocks := g.blocks.modify b f }

/-- Change the statement with number `s`. -/
def modifyStmt (g : Graph) (s : StmtId) (f : Stmt → Stmt) : Graph :=
  { g with stmts := g.stmts.modify s f }

/-- Change the block with number `b`, if there is one. -/
def modifyBlock? (g : Graph) (b : Option BlockId) (f : Block → Block) : Graph :=
  match b with
  | some b => g.modifyBlock b f
  | none => g

/-- Change the statement with number `s`, if there is one. -/
def modifyStmt? (g : Graph) (s : Option StmtId) (f : Stmt → Stmt) : Graph :=
  match s with
  | some s => g.modifyStmt s f
  | none => g

/-! ## Construction -/

/-- Add a block, under the number `g.blockCount`. -/
def addBlock (g : Graph) (b : Block) : Graph :=
  { g with blocks := g.blocks.set g.blockCount b, blockCount := g.blockCount + 1 }

/-- Add a statement, under the number `g.stmtCount`. -/
def addStmt (g : Graph) (s : Stmt) : Graph :=
  { g with stmts := g.stmts.set g.stmtCount s, stmtCount := g.stmtCount + 1 }

/-- An edge to `target`, under the number `g.edgeCount`. -/
def newEdge (g : Graph) (target : BlockId) : Operand × Graph :=
  (.edge g.edgeCount target, { g with edgeCount := g.edgeCount + 1 })

/-- A tree under the number `g.treeCount`, which becomes the parent of its
subtrees. -/
def newTree
    (g : Graph) (kind : TreeKind) (operands : List Operand)
    (block : BlockId) (subtrees : List Tree) : Tree × Graph :=
  let t := Tree.node g.treeCount kind operands block subtrees
  (t, { g with
    treeCount := g.treeCount + 1
    parents := subtrees.foldl (fun ps u => ps.set u.id (some t)) g.parents })

/-- Let the trees `t` and `u` have their operands in common. -/
def share (g : Graph) (t u : Tree) : Graph :=
  { g with twins := (g.twins.modify t.id (· ++ [u])).modify u.id (· ++ [t]) }

/-- Put a tree as a statement at the end of a block. -/
def append (g : Graph) (b : BlockId) (offset : Int) (t : Tree) : Graph :=
  let s := g.stmtCount
  let last := (g.block b).last
  let g := g.addStmt { offset, prev := last, tree := t }
  match last with
  | none => g.modifyBlock b fun blk => { blk with first := some s, last := some s }
  | some l =>
      (g.modifyStmt l fun st => { st with next := some s }).modifyBlock b
        fun blk => { blk with last := some s }

/-- A new chain of blocks: one block without statements at offset zero, under
the number `g.blockCount`. -/
def newChain (g : Graph) : Graph :=
  g.addBlock {}

/-! ## Reading back -/

theorem block_addBlock (g : Graph) (new : Block) (b : BlockId) :
    (g.addBlock new).block b = if g.blockCount = b then new else g.block b :=
  Table.get_set g.blocks g.blockCount b new

theorem block_modifyBlock (g : Graph) (b c : BlockId) (f : Block → Block) :
    (g.modifyBlock b f).block c = if b = c then f (g.block c) else g.block c :=
  Table.get_modify g.blocks b c f

theorem stmt_addStmt (g : Graph) (new : Stmt) (s : StmtId) :
    (g.addStmt new).stmt s = if g.stmtCount = s then new else g.stmt s :=
  Table.get_set g.stmts g.stmtCount s new

theorem stmt_modifyStmt (g : Graph) (s r : StmtId) (f : Stmt → Stmt) :
    (g.modifyStmt s f).stmt r = if s = r then f (g.stmt r) else g.stmt r :=
  Table.get_modify g.stmts s r f

/-- A tree of a graph in which nothing is shared has its operands for itself. -/
theorem sharers_of_twins_eq_empty {g : Graph} (h : g.twins = {}) (t : Tree) :
    g.sharers t = [t] := by
  simp [sharers, h, Table.get_empty, default]

@[simp]
theorem block_addStmt (g : Graph) (new : Stmt) (b : BlockId) :
    (g.addStmt new).block b = g.block b :=
  rfl

@[simp]
theorem block_modifyStmt (g : Graph) (s : StmtId) (f : Stmt → Stmt) (b : BlockId) :
    (g.modifyStmt s f).block b = g.block b :=
  rfl

@[simp]
theorem stmt_addBlock (g : Graph) (new : Block) (s : StmtId) :
    (g.addBlock new).stmt s = g.stmt s :=
  rfl

@[simp]
theorem stmt_modifyBlock (g : Graph) (b : BlockId) (f : Block → Block) (s : StmtId) :
    (g.modifyBlock b f).stmt s = g.stmt s :=
  rfl

@[simp]
theorem walkBlocks_none (g : Graph) (fuel : Nat) : g.walkBlocks fuel none = [] := by
  cases fuel <;> rfl

@[simp]
theorem walkStmts_none (g : Graph) (fuel : Nat) : g.walkStmts fuel none = [] := by
  cases fuel <;> rfl

end Graph
end LinearScan
