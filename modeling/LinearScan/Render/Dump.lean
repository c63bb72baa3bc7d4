import LinearScan.Ir
import LinearScan.Position
import LinearScan.Render.Names

/-!
# Listings of trees

A tree is listed below its subtrees, which are indented, and below its own spills
and restores.

A single tree can be listed from any indentation on.  Such a listing stops at the
first line whose indentation cannot be written, and the lines before it are kept.
-/

namespace LinearScan

/-- A line of a listing with its indentation. -/
structure Row where
  indent : Int
  text : String
deriving DecidableEq, Repr

namespace Row

/-- The number of spaces from which on a line is too long to be held. -/
def limit : Int := 0x80000000

/-- The line of a row; to a negative indentation it is not moved. -/
def render (r : Row) : String :=
  String.ofList (List.replicate r.indent.toNat ' ') ++ r.text

/-- Why a row cannot be written, if so. -/
def fault? (r : Row) : Option Fault :=
  if !Position.fitsWord r.indent then some .indentTooWide
  else if limit ≤ r.indent then some .lineTooLong
  else none

/-- The lines of the rows up to the first one that cannot be written, and why that
one cannot. -/
def write (rows : List Row) : List String × Option Fault :=
  ((rows.takeWhile (·.fault?.isNone)).map render, rows.findSome? fault?)

end Row

namespace Notes

/-- The line of a tree itself.  A register is shown only where a value is
produced for another tree. -/
def treeLine (n : Notes) (g : Graph) (t : Tree) : String :=
  let reg :=
    match g.parent t with
    | some _ => "(r" ++ toString (n.reg t) ++ ") "
    | none => ""
  "[" ++ toString (n.index t) ++ "] " ++ reg ++ t.kind.name ++ "(" ++
    ", ".intercalate ((n.operands t).map (n.operandText g)) ++ ")"

/-- The texts of a tree without those of its subtrees. -/
def ownTexts (n : Notes) (g : Graph) (t : Tree) : List String :=
  (n.tree t).spills.map n.spillText ++ (n.tree t).restores.map n.restoreText ++ [n.treeLine g t]

mutual

/-- The rows of a tree. -/
def treeRows (n : Notes) (g : Graph) (indent : Int) : Tree → List Row
  | .node i k o b subtrees =>
      n.treesRows g (indent + 4) subtrees ++
        (n.ownTexts g (.node i k o b subtrees)).map (Row.mk indent)

/-- The rows of several trees, one after the other. -/
def treesRows (n : Notes) (g : Graph) (indent : Int) : List Tree → List Row
  | [] => []
  | t :: ts => n.treeRows g indent t ++ n.treesRows g indent ts

end

/-- The listing of a tree from an indentation on, and what stopped it, if anything
did. -/
def listTree (n : Notes) (g : Graph) (indent : Int) (t : Tree) : List String × Option Fault :=
  Row.write (n.treeRows g indent t)

/-- The lines of a statement. -/
def stmtLines (n : Notes) (g : Graph) (s : StmtId) : List String :=
  ("stmt 0x" ++ offsetText (g.stmt s).offset) :: (n.treeRows g 0 (g.stmt s).tree).map Row.render

/-- The lines of a block. -/
def blockLines (n : Notes) (g : Graph) (b : BlockId) : List String :=
  ((g.block b).render ++ " - predecessors: [" ++
      ", ".intercalate ((n.block b).predecessors.map fun p => (g.block p).render) ++ "]") ::
    (g.stmtsOf b).flatMap (n.stmtLines g)

end Notes

/-- The listing of a unit of intermediate code. -/
def Ir.dump (ir : Ir) (g : Graph) (n : Notes) : List String :=
  (ir.blocks g).flatMap (n.blockLines g)

/-- The texts of the edges that leave a block. -/
def Notes.exitTexts (n : Notes) (g : Graph) (b : BlockId) : Except Fault (List String) :=
  let collect : EStateM Fault (List String) Unit :=
    Ir.eachExit g n b fun e target => modify (· ++ [n.edgeText g e target])
  match collect [] with
  | .ok _ texts => .ok texts
  | .error fault _ => .error fault

end LinearScan
