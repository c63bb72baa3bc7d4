import LinearScan.Graph.Insert
import LinearScan.Ir

/-!
# Reading a stack program into a flow graph

The instructions are read in order.  Those that compute a value fold the topmost
trees of a stack into a new tree; those that end a statement append the tree to
the current block; those that leave a block also look up their targets and go on
with the block behind them.

The tree of a store shares its operands with the instruction it was read from, and so
with every tree that is read from an instruction with the same list of operands: from the
same instruction when a program is read again, and from other stores of the program that
hold the list as well.  `Imported.stores` says which trees were read from which store, and
`Program.refresh` brings a program up to date after a scan has lengthened them.
-/

namespace LinearScan

/-- How far a program has been read. -/
structure Importer where
  graph : Graph
  /-- The first block of the chain under construction. -/
  first : BlockId
  /-- The block to which statements are appended. -/
  block : BlockId
  /-- The trees whose values are on the stack, the topmost first. -/
  stack : List Tree := []
  /-- The offset at which the current statement starts. -/
  start : Nat := 0
  /-- The stores read so far, with the offsets of their instructions. -/
  stores : List (Nat × Tree) := []

namespace Importer

/-- Fold the `n` topmost trees into a new one. -/
def fold (n : Nat) (kind : TreeKind) (operands : List Operand) (s : Importer) :
    Except Fault Importer :=
  if s.stack.length < n then
    .error .stackUnderflow
  else
    let (t, graph) := s.graph.newTree kind operands s.block (s.stack.take n).reverse
    .ok { s with graph, stack := t :: s.stack.drop n }

/-- End the statement: its tree is taken off the stack and appended to the
current block.  The next statement starts behind offset `i`. -/
def finish (i : Nat) (s : Importer) : Importer :=
  match s.stack with
  | [] => { s with start := i + 1 }
  | t :: rest =>
      { s with graph := s.graph.append s.block s.start t, stack := rest, start := i + 1 }

/-- Require that the stack is empty. -/
def requireEmpty (s : Importer) : Except Fault Importer :=
  if s.stack.isEmpty then .ok s else .error .stackLeftover

/-- The block at `offset`. -/
def target (offset : Int) (s : Importer) : Except Fault (BlockId × Importer) :=
  match Graph.blockAt s.first offset s.graph with
  | .ok b graph => .ok (b, { s with graph })
  | .error fault _ => .error fault

/-- An edge to the block at the offset that operand `k` of an instruction
names. -/
def edgeTo (operands : List Literal) (k : Nat) (s : Importer) :
    Except Fault (BlockId × Importer) :=
  match operands[k]? with
  | none => .error .outOfRange
  | some (.text _) => .error .unorderedTarget
  | some (.num offset) => s.target offset

/-- Go on behind offset `i` after the current block was left, unless the program
ends there. -/
def leave (i : Nat) (isLast : Bool) (s : Importer) : Except Fault Importer :=
  if isLast then
    .ok s
  else do
    let (block, s) ← s.target (i + 1 : Nat)
    .ok { s with block }

/-- A new edge to a block that was looked up. -/
def newEdge (b : BlockId) (s : Importer) : Operand × Importer :=
  let (edge, graph) := s.graph.newEdge b
  (edge, { s with graph })

/-- Require that the instruction just read is not the last one. -/
def proceed (isLast : Bool) (s : Importer) : Except Fault Importer :=
  if isLast then .error .illegalTerminator else .ok s

/-- Note that the topmost tree is the store read at offset `i`. -/
def noteStore (i : Nat) (s : Importer) : Importer :=
  match s.stack with
  | [] => s
  | t :: _ => { s with stores := s.stores ++ [(i, t)] }

/-- Read the instruction at offset `i`. -/
def step (i : Nat) (isLast : Bool) (instr : Instr) (s : Importer) :
    Except Fault Importer :=
  let literals := instr.operands.map Operand.literal
  match instr.opcode with
  | .ldLocal => do
      let s ← s.fold 0 .ldLocal literals
      s.proceed isLast
  | .stLocal => do
      let s ← s.fold 1 .stLocal literals
      let s ← ((s.noteStore i).finish i).requireEmpty
      s.proceed isLast
  | .push => do
      let s ← s.fold 0 .const literals
      s.proceed isLast
  | .pop => do
      let s ← s.fold 1 .discard []
      let s ← (s.finish i).requireEmpty
      s.proceed isLast
  | .binary op => do
      let s ← s.fold 2 .binOp [.operator op]
      s.proceed isLast
  | .jmp => do
      let (b, s) ← s.edgeTo instr.operands 0
      let (edge, s) := s.newEdge b
      let s ← s.fold 0 .jmp [edge]
      let s ← (s.finish i).requireEmpty
      s.leave i isLast
  | .branch => do
      let (yes, s) ← s.edgeTo instr.operands 0
      let (no, s) ← s.edgeTo instr.operands 1
      let (yesEdge, s) := s.newEdge yes
      let (noEdge, s) := s.newEdge no
      let s ← s.fold 1 .branch [yesEdge, noEdge]
      let s ← (s.finish i).requireEmpty
      s.leave i isLast
  | .ret => do
      let s ← s.fold 1 .ret []
      (s.finish i).leave i isLast
  | .other _ => s.proceed isLast

/-- Read instructions, the first of which has offset `i`. -/
def run : Nat → List Instr → Importer → Except Fault Importer
  | _, [], s => .ok s
  | i, instr :: rest, s => do
      let s ← s.step i rest.isEmpty instr
      s.run (i + 1) rest

end Importer

/-- A program that was read. -/
structure Imported where
  graph : Graph
  notes : Notes
  ir : Ir
  /-- The stores of the program, with the offsets of their instructions. -/
  stores : List (Nat × Tree)

/-- Let each of the stores share its operands with those of the `earlier` ones that have the
same list of operands; the store at offset `i` has the list `lists i`. -/
def Graph.shareStores (g : Graph) (lists : Nat → Nat) (earlier : List (Nat × Tree)) :
    List (Nat × Tree) → Graph
  | [] => g
  | store :: rest =>
      let g := (earlier.filter fun old => lists old.1 == lists store.1).foldl
        (fun g old => g.share old.2 store.2) g
      g.shareStores lists (earlier ++ [store]) rest

namespace Program

/-- Read a program into new blocks of a graph, number the trees and note the
predecessors.  The stores in `earlier` were read from the program before; all stores
that were read so far come back.  The lists of operands that the stores hold are told apart
by their numbers in `lists`; usually each store has its own. -/
def importInto (p : Program) (g : Graph) (n : Notes) (earlier : List (Nat × Tree) := [])
    (lists : Nat → Nat := id) : Except Fault Imported := do
  let first := g.blockCount
  let s ← Importer.run 0 p.instrs { graph := g.newChain, first, block := first }
  let ir : Ir := { first, locals := p.locals }
  match ir.recomputePredecessors s.graph n with
  | .error fault _ => .error fault
  | .ok _ n =>
      let (ir, notes) := ir.reindex s.graph n
      .ok {
        graph := s.graph.shareStores lists earlier s.stores
        notes, ir, stores := earlier ++ s.stores }

/-- Read a program into a graph of its own, each store having its operands for itself. -/
def import? (p : Program) : Except Fault Imported :=
  p.importInto {} {}

/-- The operands of a store as they stand in the program. -/
def storeOperands (n : Notes) (t : Tree) : List Literal :=
  (n.operands t).filterMap fun
    | .literal l => some l
    | _ => none

/-- The program with the operands that its stores have now. -/
def refresh (p : Program) (n : Notes) (stores : List (Nat × Tree)) : Program :=
  { p with
    instrs := stores.foldl
      (fun instrs store =>
        instrs.modify store.1 fun instr => { instr with operands := storeOperands n store.2 })
      p.instrs }

end Program
end LinearScan
