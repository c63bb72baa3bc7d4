import LinearScan.Program

/-!
# Expression trees

The shape of a tree never changes once it is built: its kind, its operands,
the block it was built for and its subtrees.  What later passes find out about
a tree is kept in tables under the tree's number, so that the same number
stands for the same tree everywhere.
-/

namespace LinearScan

/-- The number of a block. -/
abbrev BlockId := Nat

/-- The number of a statement. -/
abbrev StmtId := Nat

/-- The number of a tree. -/
abbrev TreeId := Nat

/-- The number of an edge between blocks. -/
abbrev EdgeId := Nat

/-- The number of an interval. -/
abbrev IntervalId := Nat

/-- What a tree does. -/
inductive TreeKind where
  | ldLocal
  | stLocal
  | const
  | discard
  | binOp
  | ret
  | branch
  | jmp
deriving DecidableEq, Repr

/-- The name of a kind of tree. -/
def TreeKind.name : TreeKind → String
  | .ldLocal => "LdLocal"
  | .stLocal => "StLocal"
  | .const => "Const"
  | .discard => "Discard"
  | .binOp => "BinOp"
  | .ret => "Ret"
  | .branch => "Branch"
  | .jmp => "Jmp"

/-- An operand of a tree. -/
inductive Operand where
  | literal (l : Literal)
  | operator (op : Operator)
  /-- The edge `id` to the block `target`. -/
  | edge (id : EdgeId) (target : BlockId)
deriving DecidableEq, Repr

/-- The sort of an operand. -/
def Operand.sort : Operand → ValueSort
  | .literal (.num _) => .number
  | .literal (.text _) => .text
  | .operator _ => .operator
  | .edge _ _ => .edge

/-- The position that an operand names. -/
def Operand.position : Operand → Except Fault Int
  | .literal (.num n) => .ok n
  | o => .error (.notAPosition o.sort)

/-- A tree with the number `id`, built for the block `block`. -/
inductive Tree where
  | node (id : TreeId) (kind : TreeKind) (operands : List Operand) (block : BlockId)
      (subtrees : List Tree)

namespace Tree

instance : Inhabited Tree := ⟨.node 0 .const [] 0 []⟩

/-- The number of a tree. -/
def id : Tree → TreeId
  | .node id _ _ _ _ => id

/-- What a tree does. -/
def kind : Tree → TreeKind
  | .node _ kind _ _ _ => kind

/-- The operands a tree was built with. -/
def operands : Tree → List Operand
  | .node _ _ operands _ _ => operands

/-- The block a tree was built for. -/
def block : Tree → BlockId
  | .node _ _ _ block _ => block

/-- The trees whose values a tree takes. -/
def subtrees : Tree → List Tree
  | .node _ _ _ _ subtrees => subtrees

mutual

/-- The trees of `t` in execution order: subtrees from left to right, then `t`
itself. -/
def postorder : Tree → List Tree
  | .node i k o b subtrees => postorders subtrees ++ [.node i k o b subtrees]

/-- The trees of several trees, one after the other. -/
def postorders : List Tree → List Tree
  | [] => []
  | t :: ts => t.postorder ++ postorders ts

end

/-- Induction over trees: what passes from subtrees to their tree holds of all
trees. -/
@[elab_as_elim]
theorem inductionOn {motive : Tree → Prop}
    (t : Tree)
    (node : ∀ i k o b ts, (∀ u ∈ ts, motive u) → motive (.node i k o b ts)) :
    motive t :=
  match t with
  | .node i k o b ts => node i k o b ts fun u _ => u.inductionOn node

theorem postorders_eq_flatMap (ts : List Tree) :
    postorders ts = ts.flatMap postorder := by
  induction ts with
  | nil => simp [postorders]
  | cons t ts ih => simp [postorders, ih]

/-- Execution order: the subtrees in turn, and then the tree itself. -/
theorem postorder_eq (t : Tree) :
    t.postorder = t.subtrees.flatMap postorder ++ [t] := by
  cases t
  simp [postorder, subtrees, postorders_eq_flatMap]

theorem mem_postorder_self (t : Tree) : t ∈ t.postorder := by
  simp [postorder_eq t]

end Tree
end LinearScan
