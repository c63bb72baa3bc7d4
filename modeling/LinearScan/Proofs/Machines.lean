import LinearScan.Graph.Basic
import Mathlib.Logic.Function.Basic
import Mathlib.Logic.Function.Iterate

/-!
# What programs and flow graphs compute

A stack program is run by a stack machine, one instruction at a time.  A flow graph
is run by a machine that executes one statement of a block at a time and follows the
edges of a terminator.  Both machines keep the same record of what can be observed
from outside: the blocks to which control came, the values of the local variables
and how the run stands.  They are parameterized by what the constants and operators
mean, so that nothing said about them depends on arithmetic.
-/

namespace LinearScan

/-- What a program may compute with: values of the type `V`. -/
structure Meaning (V : Type) where
  /-- The value of a constant, by the operand that names it. -/
  constant : Option Literal → V
  apply : Operator → V → V → V
  /-- The test that a branch makes. -/
  isZero : V → Bool

/-- The values of the local variables.  A variable is named by the first operand of a
load or a store. -/
abbrev Locals (V : Type) := Option Literal → V

/-- How a run stands. -/
inductive Status (V : Type) where
  | running
  | returned (v : V)
  /-- The machine was asked for something that it cannot do. -/
  | stuck
deriving DecidableEq

/-- What can be observed of a run. -/
structure Observation (V : Type) where
  /-- The offsets of the blocks to which control came, with the values of the
  variables at that time. -/
  visits : List (Int × Locals V)
  locals : Locals V
  status : Status V

namespace Observation

variable {V : Type}

/-- Control comes to the block at `offset`. -/
def arrive (o : Observation V) (offset : Int) : Observation V :=
  { o with visits := o.visits ++ [(offset, o.locals)] }

/-- A variable gets a value. -/
def assign (o : Observation V) (x : Option Literal) (v : V) : Observation V :=
  { o with locals := Function.update o.locals x v }

end Observation

/-! ## The stack machine -/

/-- A state of the stack machine. -/
structure StackMachine (V : Type) where
  /-- The offset of the next instruction. -/
  pc : Nat
  /-- The operands, the topmost first. -/
  stack : List V
  shown : Observation V

namespace StackMachine

variable {V : Type}

/-- The machine at the start of a program. -/
def start (locals : Locals V) : StackMachine V where
  pc := 0
  stack := []
  shown := Observation.arrive ⟨[], locals, .running⟩ 0

/-- The machine cannot go on. -/
def fail (s : StackMachine V) : StackMachine V :=
  { s with shown.status := .stuck }

/-- Go on behind the instruction just executed. -/
def advance (s : StackMachine V) (stack : List V) : StackMachine V :=
  { s with pc := s.pc + 1, stack }

/-- Go on at the instruction that operand `k` names. -/
def jump (s : StackMachine V) (operands : List Literal) (k : Nat) (stack : List V) :
    StackMachine V :=
  match operands[k]? with
  | some (.num offset) =>
      if 0 ≤ offset then
        { pc := offset.toNat, stack, shown := s.shown.arrive offset }
      else
        s.fail
  | _ => s.fail

/-- Execute one instruction. -/
def exec (M : Meaning V) (instr : Instr) (s : StackMachine V) : StackMachine V :=
  match instr.opcode, s.stack with
  | .ldLocal, stack => s.advance (s.shown.locals instr.operands.head? :: stack)
  | .push, stack => s.advance (M.constant instr.operands.head? :: stack)
  | .stLocal, v :: stack =>
      { s.advance stack with shown := s.shown.assign instr.operands.head? v }
  | .pop, _ :: stack => s.advance stack
  | .binary op, b :: a :: stack => s.advance (M.apply op a b :: stack)
  | .jmp, stack => s.jump instr.operands 0 stack
  | .branch, v :: stack => s.jump instr.operands (if M.isZero v then 1 else 0) stack
  | .ret, v :: stack => { s with stack, shown.status := .returned v }
  | .other _, stack => s.advance stack
  | _, _ => s.fail

/-- One step of the stack machine. -/
def step (M : Meaning V) (code : List Instr) (s : StackMachine V) : StackMachine V :=
  match s.shown.status, code[s.pc]? with
  | .running, some instr => s.exec M instr
  | .running, none => s.fail
  | _, _ => s

theorem step_eq_exec
    {M : Meaning V} {code : List Instr} {s : StackMachine V} {instr : Instr}
    (hrunning : s.shown.status = .running) (hinstr : code[s.pc]? = some instr) :
    s.step M code = s.exec M instr := by
  rw [step, hrunning, hinstr]

/-- A machine that has returned stays as it is. -/
theorem step_of_returned
    {M : Meaning V} {code : List Instr} {s : StackMachine V} {v : V}
    (h : s.shown.status = .returned v) :
    s.step M code = s := by
  rw [step, h]

theorem iterate_of_returned
    {M : Meaning V} {code : List Instr} {s : StackMachine V} {v : V} {k n : Nat}
    (hk : ((step M code)^[k] s).shown.status = .returned v) (hle : k ≤ n) :
    (step M code)^[n] s = (step M code)^[k] s := by
  obtain ⟨j, rfl⟩ := Nat.exists_eq_add_of_le' hle
  rw [Function.iterate_add_apply, Function.iterate_fixed (step_of_returned hk)]

/-- A machine returns at most one value. -/
theorem eq_of_returned
    {M : Meaning V} {code : List Instr} {s : StackMachine V} {v w : V} {k n : Nat}
    (hk : ((step M code)^[k] s).shown.status = .returned v)
    (hn : ((step M code)^[n] s).shown.status = .returned w) :
    v = w := by
  rcases Nat.le_total k n with hle | hle
  · rw [iterate_of_returned hk hle, hk] at hn
    exact Status.returned.inj hn
  · rw [iterate_of_returned hn hle, hn] at hk
    exact (Status.returned.inj hk).symm

end StackMachine

/-! ## Values of trees -/

/-- The literal that an operand is. -/
def Operand.literal? : Operand → Option Literal
  | .literal l => some l
  | _ => none

/-- The first of the operands, if it is a literal. -/
def Tree.literal? (t : Tree) : Option Literal :=
  t.operands.head?.bind Operand.literal?

/-- The value of a tree of the given kind from the values of its subtrees. -/
def Meaning.combine {V : Type} (M : Meaning V) (locals : Locals V) (t : Tree) :
    List V → Option V
  | [] =>
      match t.kind with
      | .ldLocal => some (locals t.literal?)
      | .const => some (M.constant t.literal?)
      | _ => none
  | [a, b] =>
      match t.kind, t.operands with
      | .binOp, .operator op :: _ => some (M.apply op a b)
      | _, _ => none
  | _ => none

namespace Tree

mutual

/-- The value of a tree: its subtrees are evaluated from left to right, then the tree
itself. -/
def eval {V : Type} (M : Meaning V) (locals : Locals V) : Tree → Option V
  | .node i k o b subtrees =>
      (evals M locals subtrees).bind (M.combine locals (.node i k o b subtrees))

/-- The values of several trees. -/
def evals {V : Type} (M : Meaning V) (locals : Locals V) : List Tree → Option (List V)
  | [] => some []
  | t :: ts => (eval M locals t).bind fun v => (evals M locals ts).map (v :: ·)

end

end Tree

/-! ## The graph machine -/

/-- The trees that are the statements of a block. -/
def Graph.rootsOf (g : Graph) (b : BlockId) : List Tree :=
  (g.stmtsOf b).map fun s => (g.stmt s).tree

/-- A state of the machine that runs a flow graph. -/
structure GraphMachine (V : Type) where
  /-- The statements of the current block that are still to be executed. -/
  rest : List Tree
  shown : Observation V

namespace GraphMachine

variable {V : Type}

/-- Go on with the block `b`. -/
def enter (g : Graph) (b : BlockId) (shown : Observation V) : GraphMachine V where
  rest := g.rootsOf b
  shown := shown.arrive (g.block b).offset

/-- The machine at the start of a unit of intermediate code. -/
def start (g : Graph) (first : BlockId) (locals : Locals V) : GraphMachine V :=
  enter g first ⟨[], locals, .running⟩

/-- The machine cannot go on. -/
def fail (s : GraphMachine V) : GraphMachine V :=
  { s with shown.status := .stuck }

/-- Follow the edge that is operand `k` of a terminator. -/
def follow (s : GraphMachine V) (g : Graph) (operands : List Operand) (k : Nat) :
    GraphMachine V :=
  match operands[k]? with
  | some (.edge _ target) => enter g target s.shown
  | _ => s.fail

/-- Execute the statement `t`, before which its subtrees were evaluated. -/
def exec (M : Meaning V) (g : Graph) (t : Tree) (rest : List Tree) (s : GraphMachine V) :
    List V → GraphMachine V
  | [] =>
      match t.kind with
      | .jmp => s.follow g t.operands 0
      | _ => s.fail
  | [v] =>
      match t.kind with
      | .stLocal => { rest, shown := s.shown.assign t.literal? v }
      | .discard => { s with rest }
      | .branch => s.follow g t.operands (if M.isZero v then 1 else 0)
      | .ret => { s with shown.status := .returned v }
      | _ => s.fail
  | _ => s.fail

/-- One step of the graph machine: a whole statement. -/
def step (M : Meaning V) (g : Graph) (s : GraphMachine V) : GraphMachine V :=
  match s.shown.status, s.rest with
  | .running, t :: rest =>
      match Tree.evals M s.shown.locals t.subtrees with
      | some vs => s.exec M g t rest vs
      | none => s.fail
  | .running, [] => s.fail
  | _, _ => s

theorem step_eq_exec
    {M : Meaning V} {g : Graph} {s : GraphMachine V} {t : Tree} {rest : List Tree} {vs : List V}
    (hrunning : s.shown.status = .running) (hrest : s.rest = t :: rest)
    (hvalues : Tree.evals M s.shown.locals t.subtrees = some vs) :
    s.step M g = s.exec M g t rest vs := by
  rw [step, hrunning, hrest]
  simp only [hvalues]

/-- A machine that has returned stays as it is. -/
theorem step_of_returned
    {M : Meaning V} {g : Graph} {s : GraphMachine V} {v : V}
    (h : s.shown.status = .returned v) :
    s.step M g = s := by
  rw [step, h]

end GraphMachine
end LinearScan
