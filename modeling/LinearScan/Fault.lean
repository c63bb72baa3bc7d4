/-!
# Faults

Everything that can stop an operation.  A fault is a cause, with the data its
report needs; the wording is kept apart in `Fault.message`, and what is shown
before the operation stops in `Fault.notice`.
-/

namespace LinearScan

/-- The sort of a value found where another sort was wanted. -/
inductive ValueSort where
  | number
  | text
  | operator
  | edge
  | nothing
deriving DecidableEq, Repr

/-- The word a report uses for a sort of value. -/
def ValueSort.word : ValueSort → String
  | .number => "int"
  | .text => "str"
  | .operator => "Operator"
  | .edge => "BlockEdge"
  | .nothing => "NoneType"

/-- The causes that stop an operation. -/
inductive Fault where
  /-- An instruction takes more values than the stack holds. -/
  | stackUnderflow
  /-- A statement ends while values are left on the stack. -/
  | stackLeftover
  /-- The last instruction of a program does not leave its block. -/
  | illegalTerminator
  /-- A block was asked for at an offset inside a statement. -/
  | betweenStatements
  /-- A block was asked for in the range of a block without statements. -/
  | emptyBlock
  /-- A jump target is a text. -/
  | unorderedTarget
  /-- A block without statements has no terminator. -/
  | noTerminator
  /-- An operand of a terminator is not an edge. -/
  | edgeExpected
  /-- The operand of a jump that is printed is not an edge. -/
  | targetExpected (found : ValueSort)
  /-- A tree that reads a variable stands at the root of its statement. -/
  | noParent
  /-- A position lies outside its list. -/
  | outOfRange
  /-- A position does not fit into a machine word. -/
  | tooWide
  /-- A position is not a number. -/
  | notAPosition (found : ValueSort)
  /-- An interval that has to be used again has no later use. -/
  | noNextUse
  /-- An interval without a later use was to be made active. -/
  | uselessActivation
  /-- An interval that is in no register was to be spilled. -/
  | inactiveSpill
  /-- A recorded spill is of an interval that is in no register. -/
  | recordedSpillInactive
  /-- A recorded spill names another register than the interval's. -/
  | recordedSpillElsewhere
  /-- A recorded restore is of an interval that is in a register. -/
  | recordedRestoreActive
  /-- No active interval may be spilled at the tree with index `index`. -/
  | noVictim (index : Nat) (registers active : List String)
  /-- No predecessor of a block has an exit set. -/
  | noExitSet
  /-- The target of an edge has no entry set. -/
  | noEntrySet
  /-- A value to be taken off a list is not on it. -/
  | notListed
  /-- A comparison came back to a pair that it is still comparing. -/
  | circular
  /-- A remainder by zero. -/
  | zeroModulus
  /-- An indentation does not fit into a machine word. -/
  | indentTooWide
  /-- A line is too long to be held. -/
  | lineTooLong
deriving DecidableEq, Repr

namespace Fault

/-- The report of reading a field of nothing. -/
private def missingField (field : String) : String :=
  "'NoneType' object has no attribute '" ++ field ++ "'"

/-- The report that belongs to a fault.  The search for a block inside a statement
ends the whole run, and its report is the exit status. -/
def message : Fault → String
  | stackUnderflow => "Not enough stack operands"
  | stackLeftover => "Leftover stack operands"
  | illegalTerminator => "Illegal terminator"
  | betweenStatements => "1"
  | emptyBlock => missingField "il_idx"
  | unorderedTarget => "'<' not supported between instances of 'int' and 'str'"
  | noTerminator => missingField "tree"
  | edgeExpected => "operand isn't block edge"
  | targetExpected found => "'" ++ found.word ++ "' object has no attribute 'target'"
  | noParent => missingField "ir_idx"
  | outOfRange => "list index out of range"
  | tooWide => "cannot fit 'int' into an index-sized integer"
  | notAPosition found => "list indices must be integers or slices, not " ++ found.word
  | noNextUse => missingField "used_in"
  | uselessActivation => ""
  | inactiveSpill => "trying to spill an interval that's not active"
  | recordedSpillInactive => "spill of interval that's not active"
  | recordedSpillElsewhere =>
      "spill register and register of interval to spill don't match"
  | recordedRestoreActive =>
      "finding a restore reg for an interval that's already active"
  | noVictim index _ _ => "No intervals elligible for spilling at " ++ toString index
  | noExitSet => "no predecessor with active_out set"
  | noEntrySet => "'NoneType' object is not iterable"
  | notListed => "list.remove(x): x not in list"
  | circular => "comparison does not end"
  | zeroModulus => "integer modulo by zero"
  | indentTooWide => "cannot fit 'int' into an index-sized integer"
  | lineTooLong => ""

/-- The lines shown before an operation stops with a fault. -/
def notice : Fault → List String
  | betweenStatements => ["panic : il_idx lands between two statements"]
  | noVictim _ registers active =>
      "regs" :: registers.map ("    " ++ ·) ++ "active" :: active.map ("    " ++ ·)
  | _ => []

end Fault
end LinearScan
