import LinearScan.Assembly
import LinearScan.Render.Names

/-!
# Assembly text

One text line for each line of assembly code.
-/

namespace LinearScan

/-- The instruction of an operator. -/
def Operator.mnemonic : Operator → String
  | .add => "add"
  | .sub => "sub"
  | .mul => "mul"
  | .div => "div"
  | .eq => "cmp"

/-- The instruction of an operand: none unless it is an operator. -/
def Operand.mnemonic : Operand → String
  | .operator op => op.mnemonic
  | _ => ""

/-- The word for a way out of a block. -/
def EdgeSort.word : EdgeSort → String
  | .always => "JMP"
  | .ifTrue => "IF"
  | .ifFalse => "ELSE"

/-- The text of a label. -/
def Label.render : Label → String
  | .block offset => "IL_" ++ toString offset
  | .edge sort source target =>
      sort.word ++ "_EDGE_IL_" ++ toString source ++ "_IL_" ++ toString target

/-- The text of a line of assembly code. -/
def AsmLine.render (g : Graph) (n : Notes) : AsmLine → String
  | .label l => l.render ++ ":"
  | .spill s => "    mov " ++ n.name s.interval ++ ", " ++ regText s.reg ++ " ; spill"
  | .restore r => "    mov " ++ regText r.reg ++ ", " ++ n.name r.interval ++ " ; restore"
  | .movesFollow => "    ; todo : don't have registers overwrite each other"
  | .move m => "        mov " ++ regText m.target ++ ", " ++ regText m.source ++ " ; move"
  | .const reg value => "    mov " ++ regText reg ++ ", " ++ n.operandText g value
  | .binOp op reg left right =>
      "    " ++ op.mnemonic ++ " " ++ regText reg ++ ", " ++ regText left ++ ", " ++ regText right
  | .ret reg => "    mov rret, " ++ regText reg
  | .jumpZero reg target => "    jz " ++ regText reg ++ " " ++ target.render
  | .jumpNonzero reg target => "    jnz " ++ regText reg ++ " " ++ target.render
  | .jump target => "    jmp " ++ target.render

end LinearScan
