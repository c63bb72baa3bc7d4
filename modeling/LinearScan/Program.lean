import LinearScan.Fault

/-!
# Stack programs

A program is a number of local variables and a list of instructions for a
stack machine.  The operands of an instruction are literals, and nothing is
asked of their number: an instruction that needs an operand it lacks is only
found out when that operand is read.
-/

namespace LinearScan

/-- The operators on two values. -/
inductive Operator where
  | add
  | sub
  | mul
  | div
  | eq
deriving DecidableEq, Repr

/-- The name of an operator. -/
def Operator.name : Operator → String
  | .add => "Add"
  | .sub => "Sub"
  | .mul => "Mul"
  | .div => "Div"
  | .eq => "Eq"

/-- An operand that stands in the program text. -/
inductive Literal where
  | num (n : Int)
  | text (s : String)
deriving DecidableEq, Repr

/-- The text of a literal. -/
def Literal.render : Literal → String
  | .num n => toString n
  | .text s => s

/-- What an instruction does. -/
inductive Opcode where
  /-- Put the value of a local variable on the stack. -/
  | ldLocal
  /-- Take a value off the stack into a local variable. -/
  | stLocal
  /-- Put a constant on the stack. -/
  | push
  /-- Take a value off the stack. -/
  | pop
  /-- Replace the two topmost values by the operator's result. -/
  | binary (op : Operator)
  /-- Go on at another instruction. -/
  | jmp
  /-- Go on at one of two instructions, as the topmost value says. -/
  | branch
  /-- Stop with the topmost value. -/
  | ret
  /-- An instruction of another name, which does nothing. -/
  | other (name : String)
deriving DecidableEq, Repr

/-- The name of an opcode. -/
def Opcode.name : Opcode → String
  | .ldLocal => "LdLocal"
  | .stLocal => "StLocal"
  | .push => "Push"
  | .pop => "Pop"
  | .binary op => op.name
  | .jmp => "Jmp"
  | .branch => "Branch"
  | .ret => "Ret"
  | .other name => name

/-- The opcode with a given name. -/
def Opcode.ofName (name : String) : Opcode :=
  ([.ldLocal, .stLocal, .push, .pop, .binary .add, .binary .sub, .binary .mul,
    .binary .div, .binary .eq, .jmp, .branch, .ret].find? (·.name == name)).getD (.other name)

/-- An instruction. -/
structure Instr where
  opcode : Opcode
  operands : List Literal := []
deriving DecidableEq, Repr

/-- A program for the stack machine. -/
structure Program where
  /-- How many local variables the program has. -/
  locals : Int
  instrs : List Instr
deriving DecidableEq, Repr

end LinearScan
