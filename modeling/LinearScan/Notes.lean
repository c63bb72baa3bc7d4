import LinearScan.Table
import LinearScan.Tree

/-!
# Notes on a flow graph

What the passes find out about a graph is noted beside it: the index of a tree
in execution order, the predecessors of a block, and all that the register
allocator decides.  Notes are kept in tables under the numbers of the graph.

An interval is the life of a value, that of a local variable or of the result
of one tree, together with the register that holds the value at the moment.
-/

namespace LinearScan

/-- Whose value an interval is about. -/
inductive Owner where
  /-- The local variable `n`. -/
  | slot (n : Int)
  /-- The result of the tree `t`. -/
  | temp (t : Tree)

/-- Whether a value is the result of a tree. -/
def Owner.isTemp : Owner → Bool
  | .slot _ => false
  | .temp _ => true

/-- Whether a value is the result of the tree `t`. -/
def Owner.isResultOf (t : Tree) : Owner → Bool
  | .slot _ => false
  | .temp u => u.id == t.id

/-- Whether two values belong to the same local variable. -/
def Owner.sameSlot : Owner → Owner → Bool
  | .slot m, .slot n => m == n
  | _, _ => false

/-- The life of a value. -/
structure Interval where
  owner : Owner := .slot 0
  /-- The trees that read the value, in execution order. -/
  uses : List Tree := []
  /-- The trees that write the value, in execution order. -/
  writes : List Tree := []
  /-- The index of the first write. -/
  firstWrite : Int := 0
  /-- The index of the last read. -/
  lastRead : Int := 0
  /-- The register that holds the value. -/
  liveIn : Option Int := none
deriving Inhabited

/-- An interval written from a register to memory. -/
structure Spill where
  reg : Option Int
  interval : IntervalId
deriving DecidableEq, Repr

/-- An interval read from memory into a register. -/
structure Restore where
  reg : Option Int
  interval : IntervalId
deriving DecidableEq, Repr

/-- An interval taken from one register to another. -/
structure Move where
  source : Option Int
  target : Option Int
  interval : IntervalId
deriving DecidableEq, Repr

/-- An interval that is in a register where control passes from one block to
another. -/
structure Crossing where
  reg : Option Int
  interval : IntervalId
deriving DecidableEq, Repr

/-- A set of crossings.  A block that starts with what another block left has the
same set as that block, and not only an equal one: the same number stands for the
same set. -/
structure Crossings where
  id : Nat
  members : List Crossing
deriving DecidableEq, Repr

/-- What is noted about a tree. -/
structure TreeNote where
  /-- The place of the tree in execution order. -/
  index : Nat := 0
  /-- The register of the result, `-1` if none was given. -/
  reg : Int := -1
  spills : List Spill := []
  restores : List Restore := []
  /-- The registers that a store took its value from, one for each scan. -/
  stored : List Int := []
deriving DecidableEq, Repr, Inhabited

/-- What is noted about an edge between blocks. -/
structure EdgeNote where
  spills : List Spill := []
  moves : List Move := []
  restores : List Restore := []
deriving DecidableEq, Repr, Inhabited

/-- What is noted about a block. -/
structure BlockNote where
  predecessors : List BlockId := []
  /-- What is in registers where the block starts. -/
  entry : Option Crossings := none
  /-- What is in registers where the block ends. -/
  exit : Option Crossings := none
deriving DecidableEq, Repr, Inhabited

/-- All that is noted about a graph. -/
structure Notes where
  trees : Table TreeNote := {}
  edges : Table EdgeNote := {}
  blocks : Table BlockNote := {}
  intervals : Table Interval := {}
  /-- The number of the next interval. -/
  intervalCount : Nat := 0
  /-- The number of the next set of crossings. -/
  crossingsCount : Nat := 0
deriving Inhabited

namespace Notes

/-- What is noted about the tree `t`. -/
def tree (n : Notes) (t : Tree) : TreeNote :=
  n.trees.get t.id

/-- The place of `t` in execution order. -/
def index (n : Notes) (t : Tree) : Nat :=
  (n.tree t).index

/-- The register of the result of `t`. -/
def reg (n : Notes) (t : Tree) : Int :=
  (n.tree t).reg

/-- What is noted about the edge `e`. -/
def edge (n : Notes) (e : EdgeId) : EdgeNote :=
  n.edges.get e

/-- What is noted about the block `b`. -/
def block (n : Notes) (b : BlockId) : BlockNote :=
  n.blocks.get b

/-- The interval with number `i`. -/
def interval (n : Notes) (i : IntervalId) : Interval :=
  n.intervals.get i

/-- The operands of a tree as they stand now: a store shows behind its own
operands the registers it took its value from. -/
def operands (n : Notes) (t : Tree) : List Operand :=
  t.operands ++ (n.tree t).stored.map fun r => .literal (.num r)

/-- Change what is noted about the tree `t`. -/
def modifyTree (n : Notes) (t : Tree) (f : TreeNote → TreeNote) : Notes :=
  { n with trees := n.trees.modify t.id f }

/-- Change what is noted about the edge `e`. -/
def modifyEdge (n : Notes) (e : EdgeId) (f : EdgeNote → EdgeNote) : Notes :=
  { n with edges := n.edges.modify e f }

/-- Change what is noted about the block `b`. -/
def modifyBlock (n : Notes) (b : BlockId) (f : BlockNote → BlockNote) : Notes :=
  { n with blocks := n.blocks.modify b f }

/-- Change the interval with number `i`. -/
def modifyInterval (n : Notes) (i : IntervalId) (f : Interval → Interval) : Notes :=
  { n with intervals := n.intervals.modify i f }

/-- Note a spill at the tree `t`. -/
def addSpill (n : Notes) (t : Tree) (spill : Spill) : Notes :=
  n.modifyTree t fun note => { note with spills := note.spills ++ [spill] }

/-- Note a restore at the tree `t`. -/
def addRestore (n : Notes) (t : Tree) (restore : Restore) : Notes :=
  n.modifyTree t fun note => { note with restores := note.restores ++ [restore] }

/-- Note that the store `t` took its value from `reg`. -/
def addStored (n : Notes) (t : Tree) (reg : Int) : Notes :=
  n.modifyTree t fun note => { note with stored := note.stored ++ [reg] }

/-- Note that `members` are in registers where the block `b` ends.  They become a
new set, under the number `n.crossingsCount`. -/
def setExit (n : Notes) (b : BlockId) (members : List Crossing) : Notes :=
  { n.modifyBlock b fun note => { note with exit := some ⟨n.crossingsCount, members⟩ } with
    crossingsCount := n.crossingsCount + 1 }

/-- Note an interval, under the number `n.intervalCount`. -/
def addInterval (n : Notes) (i : Interval) : Notes :=
  { n with
    intervals := n.intervals.set n.intervalCount i
    intervalCount := n.intervalCount + 1 }

/-- The first use of an interval at index `pos` or later. -/
def nextUse (n : Notes) (i : IntervalId) (pos : Int) : Option Tree :=
  (n.interval i).uses.find? fun t => pos ≤ n.index t

/-- The first write of an interval at index `pos` or later. -/
def nextWrite (n : Notes) (i : IntervalId) (pos : Int) : Option Tree :=
  (n.interval i).writes.find? fun t => pos ≤ n.index t

/-- Number trees one after the other, the first one `start`. -/
def number (n : Notes) : Nat → List Tree → Notes
  | _, [] => n
  | start, t :: ts =>
      (n.modifyTree t fun note => { note with index := start }).number (start + 1) ts

/-! ## Reading back -/

theorem tree_modifyTree (n : Notes) (t u : Tree) (f : TreeNote → TreeNote) :
    (n.modifyTree t f).tree u = if t.id = u.id then f (n.tree u) else n.tree u :=
  Table.get_modify n.trees t.id u.id f

theorem edge_modifyEdge (n : Notes) (e d : EdgeId) (f : EdgeNote → EdgeNote) :
    (n.modifyEdge e f).edge d = if e = d then f (n.edge d) else n.edge d :=
  Table.get_modify n.edges e d f

theorem block_modifyBlock (n : Notes) (b c : BlockId) (f : BlockNote → BlockNote) :
    (n.modifyBlock b f).block c = if b = c then f (n.block c) else n.block c :=
  Table.get_modify n.blocks b c f

theorem interval_modifyInterval (n : Notes) (i j : IntervalId) (f : Interval → Interval) :
    (n.modifyInterval i f).interval j = if i = j then f (n.interval j) else n.interval j :=
  Table.get_modify n.intervals i j f

theorem interval_addInterval (n : Notes) (new : Interval) (j : IntervalId) :
    (n.addInterval new).interval j = if n.intervalCount = j then new else n.interval j :=
  Table.get_set n.intervals n.intervalCount j new

theorem interval_addInterval_self (n : Notes) (new : Interval) :
    (n.addInterval new).interval n.intervalCount = new := by
  rw [interval_addInterval, if_pos rfl]

theorem interval_addInterval_of_lt (n : Notes) (new : Interval) {j : IntervalId}
    (hj : j < n.intervalCount) : (n.addInterval new).interval j = n.interval j := by
  rw [interval_addInterval, if_neg (Nat.ne_of_gt hj)]

theorem block_setExit (n : Notes) (b c : BlockId) (members : List Crossing) :
    (n.setExit b members).block c =
      if b = c then { n.block c with exit := some ⟨n.crossingsCount, members⟩ }
      else n.block c :=
  n.block_modifyBlock b c _

@[simp]
theorem interval_modifyTree (n : Notes) (t : Tree) (f : TreeNote → TreeNote) (i : IntervalId) :
    (n.modifyTree t f).interval i = n.interval i :=
  rfl

@[simp]
theorem tree_modifyInterval (n : Notes) (i : IntervalId) (f : Interval → Interval) (t : Tree) :
    (n.modifyInterval i f).tree t = n.tree t :=
  rfl

@[simp]
theorem tree_addInterval (n : Notes) (new : Interval) (t : Tree) :
    (n.addInterval new).tree t = n.tree t :=
  rfl

end Notes
end LinearScan
