import LinearScan.Ir

/-!
# Assembly code

The code of a unit, with the spills, restores and moves that the allocator decided
on, as a list of assembly lines.  Reads and stores of local variables need no line
of their own: the value is in the register already.

A tree that lacks an operand or a subtree its line needs stops the assembler; the
lines before it are kept.
-/

namespace LinearScan

/-- Which way out of a block an edge is. -/
inductive EdgeSort where
  /-- The only way out. -/
  | always
  /-- The way of a branch whose condition holds. -/
  | ifTrue
  /-- The way of a branch whose condition does not hold. -/
  | ifFalse
deriving DecidableEq, Repr

/-- A place that a jump can name. -/
inductive Label where
  /-- The start of the block at an offset. -/
  | block (offset : Int)
  /-- The code of an edge between the blocks at two offsets. -/
  | edge (sort : EdgeSort) (source target : Int)
deriving DecidableEq, Repr

/-- A line of assembly code. -/
inductive AsmLine where
  | label (l : Label)
  | spill (s : Spill)
  | restore (r : Restore)
  /-- The moves that follow are one simultaneous move. -/
  | movesFollow
  | move (m : Move)
  /-- Put a constant into a register. -/
  | const (reg : Int) (value : Operand)
  /-- Combine two registers into a third. -/
  | binOp (op : Operand) (reg left right : Int)
  | ret (reg : Int)
  /-- Jump if a register holds zero. -/
  | jumpZero (reg : Int) (target : Label)
  /-- Jump unless a register holds zero. -/
  | jumpNonzero (reg : Int) (target : Label)
  | jump (target : Label)
deriving DecidableEq, Repr

/-- A step of the assembler. -/
abbrev Assembler := EStateM Fault (Array AsmLine)

namespace Assembler

/-- Emit lines. -/
def emit (lines : List AsmLine) : Assembler Unit :=
  modify fun (code : Array AsmLine) => code ++ lines

/-- The element of a list in place `k`, which must be there. -/
def item {α : Type} (xs : List α) (k : Nat) : Assembler α :=
  match xs[k]? with
  | some x => pure x
  | none => throw .outOfRange

/-- The register of the subtree of `t` in place `k`. -/
def subtreeReg (n : Notes) (t : Tree) (k : Nat) : Assembler Int :=
  return n.reg (← item t.subtrees k)

/-- The edge that is the operand of `t` in place `k`. -/
def edgeOperand (n : Notes) (t : Tree) (k : Nat) : Assembler (EdgeId × BlockId) := do
  match ← item (n.operands t) k with
  | .edge e target => return (e, target)
  | o => throw (.targetExpected o.sort)

/-- The label of the block `b`. -/
def blockLabel (g : Graph) (b : BlockId) : Label :=
  .block (g.block b).offset

/-- The label of an edge between the blocks `b` and `target`. -/
def edgeLabel (g : Graph) (sort : EdgeSort) (b target : BlockId) : Label :=
  .edge sort (g.block b).offset (g.block target).offset

/-- The lines of moves. -/
def moveLines (moves : List Move) : List AsmLine :=
  if moves.isEmpty then [] else .movesFollow :: moves.map .move

/-- The lines of an edge, under its own label. -/
def edgeLines (n : Notes) (own target : Label) (e : EdgeId) : List AsmLine :=
  let note := n.edge e
  .label own :: note.spills.map .spill ++ moveLines note.moves ++
    note.restores.map .restore ++ [.jump target]

/-- Emit a constant. -/
def assembleConst (n : Notes) (t : Tree) : Assembler Unit := do
  emit [.const (n.reg t) (← item (n.operands t) 0)]

/-- Emit an operation on two values. -/
def assembleBinOp (n : Notes) (t : Tree) : Assembler Unit := do
  let op ← item (n.operands t) 0
  let left ← subtreeReg n t 0
  let right ← subtreeReg n t 1
  emit [.binOp op (n.reg t) left right]

/-- Emit a return. -/
def assembleRet (n : Notes) (t : Tree) : Assembler Unit := do
  emit [.ret (← subtreeReg n t 0)]

/-- Emit a branch of the block `b`, with the code of its two edges. -/
def assembleBranch (g : Graph) (n : Notes) (b : BlockId) (t : Tree) : Assembler Unit := do
  let (yes, yesTarget) ← edgeOperand n t 0
  let (no, noTarget) ← edgeOperand n t 1
  let yesLabel := edgeLabel g .ifTrue b yesTarget
  let noLabel := edgeLabel g .ifFalse b noTarget
  let reg ← subtreeReg n t 0
  emit ([.jumpZero reg noLabel, .jumpNonzero reg yesLabel] ++
    edgeLines n yesLabel (blockLabel g yesTarget) yes ++
    edgeLines n noLabel (blockLabel g noTarget) no)

/-- Emit a jump of the block `b`, with the code of its edge. -/
def assembleJmp (g : Graph) (n : Notes) (b : BlockId) (t : Tree) : Assembler Unit := do
  let (e, target) ← edgeOperand n t 0
  emit (edgeLines n (edgeLabel g .always b target) (blockLabel g target) e)

/-- Emit a tree of the block `b`. -/
def assembleTree (g : Graph) (n : Notes) (b : BlockId) (t : Tree) : Assembler Unit := do
  emit ((n.tree t).spills.map .spill ++ (n.tree t).restores.map .restore)
  match t.kind with
  | .ldLocal => pure ()
  | .stLocal => pure ()
  | .const => assembleConst n t
  | .discard => pure ()
  | .binOp => assembleBinOp n t
  | .ret => assembleRet n t
  | .branch => assembleBranch g n b t
  | .jmp => assembleJmp g n b t

/-- Emit trees of the block `b` in order. -/
def assembleTrees (g : Graph) (n : Notes) (b : BlockId) : List Tree → Assembler Unit
  | [] => pure ()
  | t :: rest => do
      assembleTree g n b t
      assembleTrees g n b rest

/-- Emit blocks in order. -/
def assembleBlocks (g : Graph) (n : Notes) : List BlockId → Assembler Unit
  | [] => pure ()
  | b :: rest => do
      emit [.label (blockLabel g b)]
      assembleTrees g n b (g.treesOf b)
      assembleBlocks g n rest

end Assembler

/-- Emit the code of a unit. -/
def Ir.assemble (ir : Ir) (g : Graph) (n : Notes) : Assembler Unit :=
  Assembler.assembleBlocks g n (ir.blocks g)

end LinearScan
