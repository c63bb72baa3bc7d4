import LinearScan.Program

/-!
# Sample programs

Programs that exercise the allocator in different ways: a loop that counts down
while it adds, a long chain of arithmetic on local variables, expressions that
need several registers at once, and a loop with a long body.
-/

namespace LinearScan.Samples

/-- An instruction with numbers as operands. -/
def instr (opcode : Opcode) (operands : List Int := []) : Instr :=
  { opcode, operands := operands.map .num }

/-- The operators in turn. -/
def operatorAt (i : Nat) : Opcode :=
  .binary ([Operator.add, .sub, .mul, .div, .eq].getD (i % 5) .add)

/-- The remainder that has the sign of the divisor. -/
def remainder (i : Nat) (divisor : Int) : Except Fault Int :=
  if divisor = 0 then .error .zeroModulus else .ok ((i : Int).fmod divisor)

/-- The Fibonacci number that is reached after `n` steps. -/
def fibonacci (n : Int) : Program where
  locals := 5
  instrs :=
    [instr .push [0], instr .stLocal [0], instr .push [1], instr .stLocal [1],
      instr .push [n], instr .stLocal [3],
      instr .ldLocal [3], instr .push [0], instr (.binary .eq), instr .branch [23, 10],
      instr .ldLocal [0], instr .ldLocal [1], instr (.binary .add), instr .stLocal [2],
      instr .ldLocal [1], instr .stLocal [0], instr .ldLocal [2], instr .stLocal [1],
      instr .ldLocal [3], instr .push [1], instr (.binary .sub), instr .stLocal [3],
      instr .jmp [6],
      instr .ldLocal [0], instr .ret]

/-- An operation on the variables `i` and `i + 1`, with its result in `i + 2`,
all modulo `locals`. -/
def rotate (locals : Int) (i : Nat) : Except Fault (List Instr) := do
  return [instr .ldLocal [← remainder i locals], instr .ldLocal [← remainder (i + 1) locals],
    instr (operatorAt i), instr .stLocal [← remainder (i + 2) locals]]

/-- As `rotate`; every fifth time a variable is read for nothing. -/
def rotateAndDiscard (locals : Int) (i : Nat) : Except Fault (List Instr) := do
  let instrs ← rotate locals i
  if i % 5 = 4 then
    return instrs ++ [instr .ldLocal [← remainder i locals], instr .pop]
  else
    return instrs

/-- A chain of `n` operations on `locals` variables. -/
def arithChain (n : Int) (locals : Int := 8) : Except Fault Program := do
  let init := (List.range locals.toNat).flatMap fun (k : Nat) =>
    [instr .push [k + 1], instr .stLocal [k]]
  let chain ← (List.range n.toNat).mapM (rotateAndDiscard locals)
  return { locals, instrs := init ++ chain.flatten ++ [instr .ldLocal [0], instr .ret] }

/-- An expression on four constants, from `4 * i` on. -/
def nestedExpression (i : Nat) : List Instr :=
  [instr .push [4 * i], instr .push [4 * i + 1], instr .push [4 * i + 2], instr .push [4 * i + 3],
    instr (operatorAt (3 * i)), instr (operatorAt (3 * i + 1)), instr (operatorAt (3 * i + 2)),
    instr .pop]

/-- `n` expressions on four constants each. -/
def spillChain (n : Int) : Program where
  locals := 1
  instrs := (List.range n.toNat).flatMap nestedExpression ++ [instr .push [0], instr .ret]

/-- A loop whose body has `n` operations on `locals` variables. -/
def loopingBody (n : Int) (locals : Int := 6) : Except Fault Program := do
  let init := (List.range locals.toNat).flatMap fun (k : Nat) =>
    [instr .push [k], instr .stLocal [k]]
  let head : Int := init.length
  let entry := head + 4
  let exit := entry + 4 * n + 1
  let body ← (List.range n.toNat).mapM (rotate locals)
  return {
    locals
    instrs := init ++
      [instr .ldLocal [0], instr .push [0], instr (.binary .eq), instr .branch [exit, entry]] ++
      body.flatten ++
      [instr .jmp [head], instr .ldLocal [0], instr .ret, instr .ldLocal [1], instr .ret] }

end LinearScan.Samples
