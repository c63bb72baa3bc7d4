import LinearScan.Graph.Basic
import LinearScan.Notes

/-!
# Names and short texts

The texts for intervals, registers, offsets, edges and operands.  The number in
the name of a temporary is the index its tree has at the moment.
-/

namespace LinearScan

/-- A text brought to at least `width` characters by zeros in front. -/
def padZeros (width : Nat) (text : String) : String :=
  String.ofList (List.replicate (width - text.length) '0') ++ text

/-- The digits of a number to base sixteen. -/
def hexDigits (n : Nat) : String :=
  String.ofList (Nat.toDigits 16 n)

/-- An offset to base sixteen in at least four characters.  A negative one is
marked by an `x` before its digits. -/
def offsetText (offset : Int) : String :=
  padZeros 4 (if offset < 0 then "x" ++ hexDigits offset.natAbs else hexDigits offset.natAbs)

/-- The text of a register number. -/
def regText : Option Int → String
  | some r => "r" ++ toString r
  | none => "rNone"

/-- The text of a block. -/
def Block.render (b : Block) : String :=
  "blk 0x" ++ offsetText b.offset

namespace Notes

/-- The name of the value that an owner stands for. -/
def ownerName (n : Notes) : Owner → String
  | .slot k => "local " ++ toString k
  | .temp t => "tree tmp " ++ toString (n.index t)

/-- The name of an interval. -/
def name (n : Notes) (i : IntervalId) : String :=
  n.ownerName (n.interval i).owner

/-- The text of a spill. -/
def spillText (n : Notes) (s : Spill) : String :=
  "spill " ++ n.name s.interval ++ " from " ++ regText s.reg

/-- The text of a restore. -/
def restoreText (n : Notes) (r : Restore) : String :=
  "restore " ++ n.name r.interval ++ " into " ++ regText r.reg

/-- The text of a move. -/
def moveText (n : Notes) (m : Move) : String :=
  "move " ++ n.name m.interval ++ " from " ++ regText m.source ++ " to " ++ regText m.target

/-- The text of an edge. -/
def edgeText (n : Notes) (g : Graph) (e : EdgeId) (target : BlockId) : String :=
  let note := n.edge e
  "trgt " ++ (g.block target).render ++ "[" ++
    ", ".intercalate (note.spills.map n.spillText ++ note.restores.map n.restoreText ++
      note.moves.map n.moveText) ++ "]"

/-- The text of an operand. -/
def operandText (n : Notes) (g : Graph) : Operand → String
  | .literal l => l.render
  | .operator op => "Operator." ++ op.name
  | .edge e target => n.edgeText g e target

end Notes
end LinearScan
