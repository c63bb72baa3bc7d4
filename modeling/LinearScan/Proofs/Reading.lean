import LinearScan.Proofs.Layout
import Mathlib.Algebra.BigOperators.Group.List.Basic
import Mathlib.Algebra.Ring.Int.Defs

/-!
# From which instructions a block was read

A statement is read from a stretch of instructions: those that put the trees of its
operands on an empty stack, and one that takes them off again.  `Stacks`, `Statement`
and `Reads` say so without mentioning the importer.  The main result is that after a
program was read, every block is made of the statements that stand at its offset, up to
an instruction that leaves the block.
-/

namespace LinearScan

/-- The instructions from `i` on and before `j` put the trees `ts` on an empty stack,
the topmost first. -/
inductive Stacks (code : List Instr) (i : Nat) : List Tree → Nat → Prop where
  | nil : Stacks code i [] i
  | skip {ts : List Tree} {j : Nat} {instr : Instr} {name : String}
      (h : Stacks code i ts j) (hinstr : code[j]? = some instr)
      (hop : instr.opcode = .other name) :
      Stacks code i ts (j + 1)
  | ldLocal {ts : List Tree} {j : Nat} {instr : Instr} {id : TreeId} {block : BlockId}
      (h : Stacks code i ts j) (hinstr : code[j]? = some instr) (hop : instr.opcode = .ldLocal) :
      Stacks code i (.node id .ldLocal (instr.operands.map .literal) block [] :: ts) (j + 1)
  | const {ts : List Tree} {j : Nat} {instr : Instr} {id : TreeId} {block : BlockId}
      (h : Stacks code i ts j) (hinstr : code[j]? = some instr) (hop : instr.opcode = .push) :
      Stacks code i (.node id .const (instr.operands.map .literal) block [] :: ts) (j + 1)
  | binOp {t u : Tree} {ts : List Tree} {j : Nat} {instr : Instr} {op : Operator} {id : TreeId}
      {block : BlockId}
      (h : Stacks code i (u :: t :: ts) j) (hinstr : code[j]? = some instr)
      (hop : instr.opcode = .binary op) :
      Stacks code i (.node id .binOp [.operator op] block [t, u] :: ts) (j + 1)

/-- Operand `k` of an instruction names the block `target`. -/
def Names (g : Graph) (instr : Instr) (k : Nat) (target : BlockId) : Prop :=
  target < g.blockCount ∧ instr.operands[k]? = some (.num (g.block target).offset)

/-- The tree is the statement that stands at the offset `i`; behind it stands `j`. -/
inductive Statement (code : List Instr) (g : Graph) (i : Nat) : Tree → Nat → Prop where
  | stLocal {v : Tree} {k : Nat} {instr : Instr} {id : TreeId} {block : BlockId}
      (h : Stacks code i [v] k) (hinstr : code[k]? = some instr) (hop : instr.opcode = .stLocal) :
      Statement code g i (.node id .stLocal (instr.operands.map .literal) block [v]) (k + 1)
  | discard {v : Tree} {k : Nat} {instr : Instr} {id : TreeId} {block : BlockId}
      (h : Stacks code i [v] k) (hinstr : code[k]? = some instr) (hop : instr.opcode = .pop) :
      Statement code g i (.node id .discard [] block [v]) (k + 1)
  | jmp {k : Nat} {instr : Instr} {id : TreeId} {block target : BlockId} {e : EdgeId}
      (h : Stacks code i [] k) (hinstr : code[k]? = some instr) (hop : instr.opcode = .jmp)
      (htarget : Names g instr 0 target) :
      Statement code g i (.node id .jmp [.edge e target] block []) (k + 1)
  | branch {v : Tree} {k : Nat} {instr : Instr} {id : TreeId} {block yes no : BlockId}
      {e f : EdgeId}
      (h : Stacks code i [v] k) (hinstr : code[k]? = some instr) (hop : instr.opcode = .branch)
      (hyes : Names g instr 0 yes) (hno : Names g instr 1 no) :
      Statement code g i (.node id .branch [.edge e yes, .edge f no] block [v]) (k + 1)
  | ret {v : Tree} {ts : List Tree} {k : Nat} {instr : Instr} {id : TreeId} {block : BlockId}
      (h : Stacks code i (v :: ts) k) (hinstr : code[k]? = some instr) (hop : instr.opcode = .ret) :
      Statement code g i (.node id .ret [] block [v]) (k + 1)

/-- The trees are the statements that stand one after the other from `i` on; behind them
stands `j`. -/
inductive Reads (code : List Instr) (g : Graph) : Nat → List Tree → Nat → Prop where
  | nil (i : Nat) : Reads code g i [] i
  | cons {i j k : Nat} {t : Tree} {ts : List Tree}
      (h : Statement code g i t j) (hrest : Reads code g j ts k) :
      Reads code g i (t :: ts) k

/-- Whether a tree leaves the block it stands in. -/
def TreeKind.leaves : TreeKind → Bool
  | .jmp | .branch | .ret => true
  | _ => false

/-- The last of the statements leaves the block, and no other. -/
def Leaving (ts : List Tree) : Prop :=
  ∃ t, ts.getLast? = some t ∧ t.kind.leaves = true ∧ ∀ u ∈ ts.dropLast, u.kind.leaves = false

/-- What is left of a block behind a statement that stays in it. -/
theorem Leaving.tail {t : Tree} {rest : List Tree} (h : Leaving (t :: rest))
    (hstay : t.kind.leaves = false) :
    Leaving rest := by
  obtain ⟨last, hlast, hleaves, hothers⟩ := h
  cases rest with
  | nil =>
      obtain rfl : t = last := by simpa using hlast
      rw [hstay] at hleaves
      cases hleaves
  | cons r rest =>
      exact ⟨last, by simpa using hlast, hleaves, fun u hu => hothers u (by simp [hu])⟩

/-- The block `b` holds the statements that stand at its offset, up to one that leaves
the block. -/
def Complete (code : List Instr) (g : Graph) (b : BlockId) : Prop :=
  ∃ i j : Nat, (g.block b).offset = i ∧ Reads code g i (g.rootsOf b) j ∧ Leaving (g.rootsOf b)

section Relations

variable {code : List Instr} {g g' : Graph} {i j k : Nat} {t : Tree} {ts : List Tree}

theorem Stacks.le (h : Stacks code i ts j) : i ≤ j := by
  induction h with
  | nil => exact Nat.le_refl i
  | skip _ _ _ ih => exact Nat.le_succ_of_le ih
  | ldLocal _ _ _ ih => exact Nat.le_succ_of_le ih
  | const _ _ _ ih => exact Nat.le_succ_of_le ih
  | binOp _ _ _ ih => exact Nat.le_succ_of_le ih

theorem OffsetsKept.of_sameBlocks (h : g.SameBlocks g') : OffsetsKept g g' := by
  intro b hb
  rw [h.blockCount_eq, h.block_eq]
  exact ⟨hb, rfl⟩

theorem OffsetsKept.append (g : Graph) (b : BlockId) (offset : Int) (t : Tree) :
    OffsetsKept g (g.append b offset t) := by
  intro c hc
  rw [Graph.append_blockCount, Graph.append_block]
  refine ⟨hc, ?_⟩
  split <;> rfl

theorem Names.mono {instr : Instr} {target : BlockId}
    (h : Names g instr k target) (hkept : OffsetsKept g g') :
    Names g' instr k target := by
  obtain ⟨hlt, hoperand⟩ := h
  obtain ⟨hlt', hoffset⟩ := hkept target hlt
  exact ⟨hlt', by rw [hoffset, hoperand]⟩

theorem Statement.mono (h : Statement code g i t j) (hkept : OffsetsKept g g') :
    Statement code g' i t j := by
  cases h with
  | stLocal h hinstr hop => exact .stLocal h hinstr hop
  | discard h hinstr hop => exact .discard h hinstr hop
  | jmp h hinstr hop htarget => exact .jmp h hinstr hop (htarget.mono hkept)
  | branch h hinstr hop hyes hno =>
      exact .branch h hinstr hop (hyes.mono hkept) (hno.mono hkept)
  | ret h hinstr hop => exact .ret h hinstr hop

theorem Reads.mono (h : Reads code g i ts j) (hkept : OffsetsKept g g') :
    Reads code g' i ts j := by
  induction h with
  | nil i => exact .nil i
  | cons h _ ih => exact .cons (h.mono hkept) ih

/-- One more statement at the end. -/
theorem Reads.snoc (h : Reads code g i ts j) (ht : Statement code g j t k) :
    Reads code g i (ts ++ [t]) k := by
  induction h with
  | nil i => exact .cons ht (.nil k)
  | cons hhead _ ih => exact .cons hhead (ih ht)

theorem Complete.mono {b : BlockId} (h : Complete code g b) (hb : b < g.blockCount)
    (hkept : OffsetsKept g g') (hroots : g'.rootsOf b = g.rootsOf b) :
    Complete code g' b := by
  obtain ⟨i, j, hoffset, hreads, hleaving⟩ := h
  refine ⟨i, j, ?_, ?_, ?_⟩
  · rw [(hkept b hb).2, hoffset]
  · rw [hroots]
    exact hreads.mono hkept
  · rwa [hroots]

end Relations

/-! ## How high the stack is -/

/-- How many values an instruction takes off the stack. -/
def Opcode.takes : Opcode → Nat
  | .binary _ => 2
  | .stLocal | .pop | .branch | .ret => 1
  | _ => 0

/-- Whether the importer makes sure that the stack is empty behind an instruction. -/
def Opcode.checksStack : Opcode → Bool
  | .stLocal | .pop | .jmp | .branch => true
  | _ => false

/-- By how much an instruction makes the stack higher. -/
def Opcode.balance : Opcode → Int
  | .ldLocal | .push => 1
  | .stLocal | .pop | .binary _ | .branch | .ret => -1
  | .jmp | .other _ => 0

/-- How high the stack is when instructions were read one after the other. -/
def depth (code : List Instr) : Int :=
  (code.map fun instr => instr.opcode.balance).sum

theorem depth_take_succ {code : List Instr} {i : Nat} {instr : Instr}
    (hinstr : code[i]? = some instr) :
    depth (code.take (i + 1)) = depth (code.take i) + instr.opcode.balance := by
  rw [depth, depth, List.take_add_one, hinstr]
  simp

namespace Importer

variable {s s' : Importer} {i n : Nat} {isLast : Bool} {kind : TreeKind} {operands : List Operand}
  {instr : Instr}

theorem finish_stack (i : Nat) (s : Importer) : (s.finish i).stack = s.stack.tail := by
  rw [finish]
  cases s.stack <;> rfl

theorem edgeTo_stack {ls : List Literal} {k : Nat} {b : BlockId}
    (h : s.edgeTo ls k = .ok (b, s')) : s'.stack = s.stack := by
  obtain ⟨g, rfl⟩ := edgeTo_eq h
  rfl

theorem leave_stack (h : s.leave i isLast = .ok s') : s'.stack = s.stack := by
  obtain ⟨g, b, rfl⟩ := leave_eq h
  rfl

theorem fold_height (h : s.fold n kind operands = .ok s') :
    n ≤ s.stack.length ∧ s'.stack.length + n = s.stack.length + 1 := by
  obtain ⟨hn, rfl⟩ := fold_cases h
  refine ⟨hn, ?_⟩
  simp only [List.length_cons, List.length_drop]
  omega

theorem finish_stack_eq_nil (h : s.fold n kind operands = .ok s')
    (hempty : (s.stack.length : Int) + -n = 0) : (s'.finish i).stack = [] := by
  obtain ⟨-, hlength⟩ := fold_height h
  refine List.eq_nil_of_length_eq_zero ?_
  rw [finish_stack, List.length_tail]
  omega

theorem finish_noteStore_stack (i : Nat) (s : Importer) :
    ((s.noteStore i).finish i).stack = (s.finish i).stack := by
  rw [noteStore]
  cases hstack : s.stack with
  | nil => rfl
  | cons t rest => simp only [finish, hstack]

/-- Where an instruction was read, its values were there, and nothing is left behind it that is
checked for. -/
theorem step_height (h : s.step i isLast instr = .ok s') :
    instr.opcode.takes ≤ s.stack.length ∧
      (s'.stack.length : Int) = s.stack.length + instr.opcode.balance ∧
      (instr.opcode.checksStack = true → s'.stack = []) ∧
      (isLast = true → instr.opcode.leaves = true) := by
  have hstatement : ∀ {s₀ s₁ : Importer} {n kind operands}, s₀.fold n kind operands = .ok s₁ →
      n ≤ s₀.stack.length ∧ ((s₁.finish i).stack.length : Int) = s₀.stack.length + -n := by
    intro s₀ s₁ n kind operands hfold
    obtain ⟨hn, hlength⟩ := fold_height hfold
    rw [finish_stack, List.length_tail]
    omega
  have hfalse : ∀ {P : Prop}, false = true → P := fun hf => absurd hf Bool.false_ne_true
  cases step_cases h with
  | other hop => simp [hop, Opcode.takes, Opcode.balance, Opcode.checksStack]
  | value hmade hfold =>
      obtain ⟨hn, hlength⟩ := fold_height hfold
      cases hmade with
      | ldLocal hop | push hop | binary hop =>
          simp only [hop, Opcode.takes, Opcode.balance, Opcode.checksStack]
          exact ⟨hn, by omega, hfalse, hfalse⟩
  | stLocal hop hfold hstack =>
      obtain ⟨htakes, hlength⟩ := hstatement hfold
      rw [← finish_noteStore_stack] at hlength
      rw [hop]
      exact ⟨htakes, hlength, fun _ => hstack, hfalse⟩
  | pop hop hfold hstack =>
      obtain ⟨htakes, hlength⟩ := hstatement hfold
      rw [hop]
      exact ⟨htakes, hlength, fun _ => hstack, hfalse⟩
  | jmp hop hedge hfold hstack hleave =>
      obtain ⟨g, rfl⟩ := edgeTo_eq hedge
      obtain ⟨-, hlength⟩ := hstatement hfold
      rw [← leave_stack hleave] at hlength hstack
      rw [hop]
      exact ⟨Nat.zero_le _, hlength, fun _ => hstack, fun _ => rfl⟩
  | branch hop hyes hno hfold hstack hleave =>
      obtain ⟨g, rfl⟩ := edgeTo_eq hyes
      obtain ⟨g, rfl⟩ := edgeTo_eq hno
      obtain ⟨htakes, hlength⟩ := hstatement hfold
      rw [← leave_stack hleave] at hlength hstack
      rw [hop]
      exact ⟨htakes, hlength, fun _ => hstack, fun _ => rfl⟩
  | ret hop hfold hleave =>
      obtain ⟨htakes, hlength⟩ := hstatement hfold
      rw [← leave_stack hleave] at hlength
      rw [hop]
      exact ⟨htakes, hlength, hfalse, fun _ => rfl⟩

/-- The stack is as high as the instructions that were read make it. -/
theorem step_depth {code : List Instr} (hinstr : code[i]? = some instr)
    (hheight : (s.stack.length : Int) = depth (code.take i)) (h : s.step i isLast instr = .ok s') :
    (s'.stack.length : Int) = depth (code.take (i + 1)) := by
  rw [depth_take_succ hinstr, (step_height h).2.1, hheight]

end Importer

/-- The offsets to which an instruction may jump. -/
def Instr.targets (instr : Instr) : List Int :=
  let named :=
    match instr.opcode with
    | .jmp => instr.operands.take 1
    | .branch => instr.operands.take 2
    | _ => []
  named.filterMap fun
    | .num offset => some offset
    | .text _ => none

/-- Every jump leads to the start of the program or behind an instruction that leaves its
block. -/
def JumpsBehindExits (code : List Instr) : Prop :=
  ∀ instr ∈ code, ∀ offset ∈ instr.targets, IsTarget code offset

instance (code : List Instr) : Decidable (JumpsBehindExits code) :=
  inferInstanceAs (Decidable (∀ instr ∈ code, ∀ offset ∈ instr.targets, IsTarget code offset))

theorem JumpsBehindExits.isTarget
    {code : List Instr} (h : JumpsBehindExits code) {instr : Instr} (hinstr : instr ∈ code)
    {k : Nat} {offset : Int} (hoperand : instr.operands[k]? = some (.num offset))
    (hop : instr.opcode = .jmp ∧ k < 1 ∨ instr.opcode = .branch ∧ k < 2) :
    IsTarget code offset := by
  refine h instr hinstr offset ?_
  rw [Instr.targets, List.mem_filterMap]
  refine ⟨.num offset, ?_, rfl⟩
  rcases hop with ⟨hop, hk⟩ | ⟨hop, hk⟩
  · rw [hop]
    exact List.mem_of_getElem? ((List.getElem?_take_of_lt hk).trans hoperand)
  · rw [hop]
    exact List.mem_of_getElem? ((List.getElem?_take_of_lt hk).trans hoperand)

/-! ## What the importer has read -/

/-- The instructions before `i` were read: the blocks `done` are complete, the current
block holds the statements that ended before `i`, and the stack holds what the statement
under way has put there. -/
structure ReadSoFar
    (code : List Instr) (i : Nat) (s : Importer) (done ahead : List BlockId) : Prop where
  layout : Layout code i s.graph done s.block ahead
  complete : ∀ b ∈ done, Complete code s.graph b
  reads : ∃ j : Nat, (s.graph.block s.block).offset = j ∧
    Reads code s.graph j (s.graph.rootsOf s.block) s.start
  staying : ∀ t ∈ s.graph.rootsOf s.block, t.kind.leaves = false
  underway : Stacks code s.start s.stack i

/-- As `ReadSoFar`, with the instruction at `i` being the one that left the current block. -/
structure Closed
    (code : List Instr) (i : Nat) (s : Importer) (done ahead : List BlockId) : Prop where
  layout : Layout code i s.graph done s.block ahead
  complete : ∀ b ∈ done ++ [s.block], Complete code s.graph b
  start_eq : s.start = i + 1

namespace ReadSoFar

variable {code : List Instr} {i : Nat} {s s' : Importer} {done ahead : List BlockId}
  {instr : Instr}

section

variable (hs : ReadSoFar code i s done ahead)
include hs

/-- A graph with other trees and edges but the same blocks. -/
theorem regraph {g : Graph} (hsame : s.graph.SameBlocks g) (hlinked : g.Linked) :
    ReadSoFar code i { s with graph := g } done ahead := by
  have hkept := OffsetsKept.of_sameBlocks hsame
  refine {
    layout := hs.layout.congr hsame hlinked
    complete := ?_
    reads := ?_
    staying := fun t ht => hs.staying t (hsame.rootsOf_eq s.block ▸ ht)
    underway := hs.underway }
  · intro b hb
    exact (hs.complete b hb).mono (hs.layout.mem_lt (by simp [hb])) hkept (hsame.rootsOf_eq b)
  · obtain ⟨j, hoffset, hreads⟩ := hs.reads
    refine ⟨j, ?_, ?_⟩
    · rw [hsame.block_eq]
      exact hoffset
    · rw [hsame.rootsOf_eq]
      exact hreads.mono hkept

theorem newEdge (b : BlockId) : ReadSoFar code i (s.newEdge b).2 done ahead :=
  hs.regraph (s.graph.sameBlocks_newEdge b) (hs.layout.linked.newEdge b)

/-- A block is looked up to which control may come. -/
theorem target (hfirst : s.first = 0) {offset : Int} (htarget : IsTarget code offset) {b : BlockId}
    (h : s.target offset = .ok (b, s')) :
    ∃ ahead', ReadSoFar code i s' done ahead' ∧ b < s'.graph.blockCount ∧
      (s'.graph.block b).offset = offset ∧ OffsetsKept s.graph s'.graph ∧
      s'.first = 0 ∧ s'.stack = s.stack := by
  obtain ⟨g, hlook, rfl⟩ := Importer.target_cases h
  rw [hfirst] at hlook
  obtain ⟨ahead', hlayout, hmem, hoffset, hkept, hroots⟩ := hs.layout.blockAt htarget hlook
  refine ⟨ahead', ?_, hlayout.mem_lt hmem, hoffset, hkept, hfirst, rfl⟩
  refine {
    layout := hlayout
    complete := ?_
    reads := ?_
    staying := fun t ht => hs.staying t (hroots s.block (by simp) ▸ ht)
    underway := hs.underway }
  · intro b hb
    exact (hs.complete b hb).mono (hs.layout.mem_lt (by simp [hb])) hkept (hroots b (by simp [hb]))
  · obtain ⟨j, hj, hreads⟩ := hs.reads
    refine ⟨j, ?_, ?_⟩
    · rw [(hkept s.block (hs.layout.mem_lt (by simp))).2]
      exact hj
    · rw [hroots s.block (by simp)]
      exact hreads.mono hkept

/-- An instruction that only puts a value on the stack. -/
theorem value (hinstr : code[i]? = some instr) (hstay : instr.opcode.leaves = false) {n : Nat}
    {kind : TreeKind} {operands : List Operand} (h : s.fold n kind operands = .ok s')
    (hstacks : ∀ id block, n ≤ s.stack.length → Stacks code s.start
      (.node id kind operands block (s.stack.take n).reverse :: s.stack.drop n) (i + 1)) :
    ReadSoFar code (i + 1) s' done ahead := by
  obtain ⟨hn, rfl⟩ := Importer.fold_cases h
  have hgraph := hs.regraph (s.graph.sameBlocks_newTree kind operands s.block _)
    (hs.layout.linked.newTree kind operands s.block (s.stack.take n).reverse)
  exact {
    layout := hgraph.layout.stay hinstr hstay
    complete := hgraph.complete
    reads := hgraph.reads
    staying := hgraph.staying
    underway := hstacks _ _ hn }

/-- The tree of a statement is put at the end of the current block. -/
theorem append {t : Tree} (ht : Statement code s.graph s.start t (i + 1)) :
    Layout code i (s.graph.append s.block s.start t) done s.block ahead ∧
      (∀ b ∈ done, Complete code (s.graph.append s.block s.start t) b) ∧
      (s.graph.append s.block s.start t).rootsOf s.block = s.graph.rootsOf s.block ++ [t] ∧
      ∃ j : Nat, ((s.graph.append s.block s.start t).block s.block).offset = j ∧
        Reads code (s.graph.append s.block s.start t) j
          ((s.graph.append s.block s.start t).rootsOf s.block) (i + 1) := by
  have hroots := fun b =>
    Graph.rootsOf_append hs.layout.ended hs.layout.linked s.block b s.start t
  have hkept := OffsetsKept.append s.graph s.block s.start t
  have hself := (hroots s.block).trans (if_pos rfl)
  refine ⟨hs.layout.append (Int.ofNat_le.mpr hs.underway.le) t, ?_, hself, ?_⟩
  · intro b hb
    have hne : b ≠ s.block := by
      rintro rfl
      have hnodup := hs.layout.chained.nodup
      rw [hs.layout.chain] at hnodup
      exact (List.nodup_append.mp hnodup).2.2 _ hb _ (by simp) rfl
    refine (hs.complete b hb).mono (hs.layout.mem_lt (by simp [hb])) hkept ?_
    exact (hroots b).trans (if_neg hne)
  · obtain ⟨j, hoffset, hreads⟩ := hs.reads
    refine ⟨j, ?_, ?_⟩
    · rw [(hkept s.block (hs.layout.mem_lt (by simp))).2]
      exact hoffset
    · rw [hself]
      exact (hreads.mono hkept).snoc (ht.mono hkept)

/-- An instruction that ends a statement and stays in its block. -/
theorem finish (hinstr : code[i]? = some instr) (hstay : instr.opcode.leaves = false) {n : Nat}
    {kind : TreeKind} {operands : List Operand} (h : s.fold n kind operands = .ok s')
    (hstatement : ∀ id block, n ≤ s.stack.length → Statement code s.graph s.start
      (.node id kind operands block (s.stack.take n).reverse) (i + 1))
    (hkind : kind.leaves = false) (hempty : (s'.finish i).stack = []) :
    ReadSoFar code (i + 1) (s'.finish i) done ahead := by
  obtain ⟨hn, rfl⟩ := Importer.fold_cases h
  have hgraph := hs.regraph (s.graph.sameBlocks_newTree kind operands s.block _)
    (hs.layout.linked.newTree kind operands s.block (s.stack.take n).reverse)
  obtain ⟨hlayout, hcomplete, hroots, hreads⟩ := hgraph.append
    ((hstatement s.graph.treeCount s.block hn).mono
      (OffsetsKept.of_sameBlocks (s.graph.sameBlocks_newTree kind operands s.block _)))
  refine {
    layout := hlayout.stay hinstr hstay
    complete := hcomplete
    reads := hreads
    staying := ?_
    underway := ?_ }
  · intro t ht
    rcases List.mem_append.mp (hroots ▸ ht) with ht | ht
    · exact hgraph.staying t ht
    · rw [List.mem_singleton.mp ht]
      exact hkind
  · rw [hempty]
    exact .nil

/-- An instruction that ends a statement and leaves its block. -/
theorem close {n : Nat} {kind : TreeKind} {operands : List Operand}
    (h : s.fold n kind operands = .ok s')
    (hstatement : ∀ id block, n ≤ s.stack.length → Statement code s.graph s.start
      (.node id kind operands block (s.stack.take n).reverse) (i + 1))
    (hleaves : kind.leaves = true) : Closed code i (s'.finish i) done ahead := by
  obtain ⟨hn, rfl⟩ := Importer.fold_cases h
  have hgraph := hs.regraph (s.graph.sameBlocks_newTree kind operands s.block _)
    (hs.layout.linked.newTree kind operands s.block (s.stack.take n).reverse)
  obtain ⟨hlayout, hcomplete, hroots, j, hoffset, hreads⟩ := hgraph.append
    ((hstatement s.graph.treeCount s.block hn).mono
      (OffsetsKept.of_sameBlocks (s.graph.sameBlocks_newTree kind operands s.block _)))
  refine ⟨hlayout, fun b hb => ?_, rfl⟩
  rcases List.mem_append.mp hb with hb | hb
  · exact hcomplete b hb
  · obtain rfl := List.mem_singleton.mp hb
    have hlast := (congrArg List.getLast? hroots).trans List.getLast?_concat
    have hothers := (congrArg List.dropLast hroots).trans List.dropLast_concat
    exact ⟨j, i + 1, hoffset, hreads, _, hlast, hleaves,
      fun u hu => hgraph.staying u (hothers ▸ hu)⟩

end

end ReadSoFar

/-- What was read up to and including the instruction at `i`: if the program ends there,
the last block is closed. -/
def ReadUpTo (code : List Instr) (i : Nat) (isLast : Bool) (s : Importer) : Prop :=
  ∃ done ahead,
    if isLast then Closed code i s done ahead else ReadSoFar code (i + 1) s done ahead

/-- Behind an instruction that left a block, reading goes on with the next block. -/
theorem Closed.leave
    {code : List Instr} {i : Nat} {s s' : Importer} {done ahead : List BlockId} {isLast : Bool}
    (hs : Closed code i s done ahead) (hfirst : s.first = 0) (htarget : IsTarget code (i + 1 : Nat))
    (h : s.leave i isLast = .ok s') (hstack : isLast = false → s.stack = []) :
    ReadUpTo code i isLast s' := by
  rcases Importer.leave_cases h with ⟨rfl, rfl⟩ | ⟨rfl, b, s₁, hfound, rfl⟩
  · exact ⟨done, ahead, hs⟩
  obtain ⟨g, hlook, rfl⟩ := Importer.target_cases hfound
  rw [hfirst] at hlook
  obtain ⟨ahead', hlayout, hmem, hoffset, hkept, hroots⟩ := hs.layout.blockAt htarget hlook
  obtain ⟨ahead'', rfl, hnext⟩ := hlayout.leave hmem hoffset
  refine ⟨done ++ [s.block], ahead'', ?_⟩
  have hnone : g.rootsOf b = [] := by
    rw [Graph.rootsOf, Graph.stmtsOf_eq_nil (hlayout.ahead_empty b (by simp)), List.map_nil]
  refine {
    layout := hnext
    complete := ?_
    reads := ?_
    staying := fun t ht => absurd (hnone ▸ ht) List.not_mem_nil
    underway := ?_ }
  · intro c hc
    exact (hs.complete c hc).mono (hs.layout.mem_lt (Layout.mem_chain_of_mem hc)) hkept
      (hroots c hc)
  · refine ⟨i + 1, hoffset, ?_⟩
    change Reads code g (i + 1) (g.rootsOf b) s.start
    rw [hnone, hs.start_eq]
    exact .nil (i + 1)
  · change Stacks code s.start s.stack (i + 1)
    rw [hstack rfl, hs.start_eq]
    exact .nil

namespace ReadSoFar

variable {code : List Instr} {i : Nat} {s s' : Importer} {done ahead : List BlockId}
  {instr : Instr} {isLast : Bool}

/-- The block that an operand of a jump names is looked up. -/
theorem edgeTo
    (hs : ReadSoFar code i s done ahead) (hfirst : s.first = 0) (hjumps : JumpsBehindExits code)
    (hinstr : code[i]? = some instr) {k : Nat} {b : BlockId}
    (hop : instr.opcode = .jmp ∧ k < 1 ∨ instr.opcode = .branch ∧ k < 2)
    (h : s.edgeTo instr.operands k = .ok (b, s')) :
    ∃ ahead', ReadSoFar code i s' done ahead' ∧ Names s'.graph instr k b ∧
      OffsetsKept s.graph s'.graph ∧ s'.first = 0 ∧ s'.stack = s.stack := by
  obtain ⟨offset, hoperand, htarget⟩ := Importer.edgeTo_cases h
  have hmem : instr ∈ code := List.mem_of_getElem? hinstr
  obtain ⟨ahead', hs', hlt, hoffset, hkept, hfirst', hstack⟩ :=
    hs.target hfirst (hjumps.isTarget hmem hoperand hop) htarget
  exact ⟨ahead', hs', ⟨hlt, by rw [hoffset, hoperand]⟩, hkept, hfirst', hstack⟩

/-- The trees that are left on the stack when a statement is finished. -/
theorem drop_stack
    {n : Nat} {kind : TreeKind} {operands : List Operand} {ts : List Tree}
    (h : s.fold n kind operands = .ok s') (hstack : (s'.finish i).stack = ts) :
    s.stack.drop n = ts := by
  obtain ⟨-, rfl⟩ := Importer.fold_cases h
  exact hstack

theorem exists_eq_singleton {ts : List Tree} (hlength : 1 ≤ ts.length) (hdrop : ts.drop 1 = []) :
    ∃ t, ts = [t] := by
  obtain ⟨t, rest, rfl⟩ := List.exists_cons_of_length_pos hlength
  exact ⟨t, congrArg (t :: ·) hdrop⟩

/-- Reading one instruction. -/
theorem step
    (hs : ReadSoFar code i s done ahead) (hfirst : s.first = 0) (hjumps : JumpsBehindExits code)
    (hinstr : code[i]? = some instr)
    (hret : isLast = false → instr.opcode = .ret → s'.stack = [])
    (h : s.step i isLast instr = .ok s') :
    ReadUpTo code i isLast s' := by
  have htarget : instr.opcode.leaves = true → IsTarget code (i + 1 : Nat) :=
    (IsTarget.succ_iff hinstr).mpr
  cases Importer.step_cases h with
  | value hmade hfold =>
      cases hmade with
      | ldLocal hop =>
          refine ⟨done, ahead, hs.value hinstr (by rw [hop]; rfl) hfold ?_⟩
          exact fun id block _ => .ldLocal hs.underway hinstr hop
      | push hop =>
          refine ⟨done, ahead, hs.value hinstr (by rw [hop]; rfl) hfold ?_⟩
          exact fun id block _ => .const hs.underway hinstr hop
      | binary hop =>
          refine ⟨done, ahead, hs.value hinstr (by rw [hop]; rfl) hfold ?_⟩
          intro id block hlength
          obtain ⟨u, t, ts, hstack⟩ : ∃ u t ts, s.stack = u :: t :: ts := by
            match hstack : s.stack, hlength with
            | u :: t :: ts, _ => exact ⟨u, t, ts, rfl⟩
          have hunderway := hs.underway
          rw [hstack] at hunderway ⊢
          exact .binOp hunderway hinstr hop
  | other hop =>
      exact ⟨done, ahead, hs.layout.stay hinstr (by rw [hop]; rfl), hs.complete, hs.reads,
        hs.staying, hs.underway.skip hinstr hop⟩
  | @stLocal s₁ hop hfold hempty =>
      have hstack : (s₁.finish i).stack = [] := by
        obtain ⟨-, rfl⟩ := Importer.fold_cases hfold
        exact hempty
      have hread := hs.finish hinstr (by rw [hop]; rfl) hfold ?_ rfl hstack
      · obtain ⟨-, rfl⟩ := Importer.fold_cases hfold
        exact ⟨done, ahead, hread.layout, hread.complete, hread.reads, hread.staying,
          hread.underway⟩
      · intro id block hlength
        obtain ⟨v, hv⟩ := exists_eq_singleton hlength (drop_stack hfold hstack)
        have hunderway := hs.underway
        rw [hv] at hunderway ⊢
        exact .stLocal hunderway hinstr hop
  | pop hop hfold hempty =>
      refine ⟨done, ahead, hs.finish hinstr (by rw [hop]; rfl) hfold ?_ rfl hempty⟩
      intro id block hlength
      obtain ⟨v, hv⟩ := exists_eq_singleton hlength (drop_stack hfold hempty)
      have hunderway := hs.underway
      rw [hv] at hunderway ⊢
      exact .discard hunderway hinstr hop
  | @jmp b s₁ _ _ _ hop hedge hfold hempty hleave =>
      obtain ⟨ahead₁, hs₁, hnames, -, hfirst₁, -⟩ :=
        hs.edgeTo hfirst hjumps hinstr (Or.inl ⟨hop, Nat.zero_lt_one⟩) hedge
      have hclosed := (hs₁.newEdge b).close hfold ?_ rfl
      · refine hclosed.leave ?_ (htarget (by rw [hop]; rfl)) hleave fun _ => hempty
        obtain ⟨-, rfl⟩ := Importer.fold_cases hfold
        exact hfirst₁
      · intro id block _
        have hstack : s₁.stack = [] := drop_stack hfold hempty
        have hunderway := hs₁.underway
        rw [hstack] at hunderway
        exact .jmp hunderway hinstr hop hnames
  | @branch yes no s₁ s₂ _ _ _ hop hyes hno hfold hempty hleave =>
      obtain ⟨ahead₁, hs₁, hnames₁, -, hfirst₁, -⟩ :=
        hs.edgeTo hfirst hjumps hinstr (Or.inr ⟨hop, Nat.zero_lt_two⟩) hyes
      obtain ⟨ahead₂, hs₂, hnames₂, hkept, hfirst₂, -⟩ :=
        hs₁.edgeTo hfirst₁ hjumps hinstr (Or.inr ⟨hop, Nat.one_lt_two⟩) hno
      have hclosed := ((hs₂.newEdge yes).newEdge no).close hfold ?_ rfl
      · refine hclosed.leave ?_ (htarget (by rw [hop]; rfl)) hleave fun _ => hempty
        obtain ⟨-, rfl⟩ := Importer.fold_cases hfold
        exact hfirst₂
      · intro id block hlength
        obtain ⟨v, hv⟩ := exists_eq_singleton hlength (drop_stack hfold hempty)
        have hunderway := ((hs₂.newEdge yes).newEdge no).underway
        rw [hv] at hunderway ⊢
        exact .branch hunderway hinstr hop (hnames₁.mono hkept) hnames₂
  | ret hop hfold hleave =>
      have hclosed := hs.close hfold ?_ rfl
      · refine hclosed.leave ?_ (htarget (by rw [hop]; rfl)) hleave fun hlast => ?_
        · obtain ⟨-, rfl⟩ := Importer.fold_cases hfold
          exact hfirst
        · exact (Importer.leave_stack hleave).symm.trans (hret hlast hop)
      · intro id block hlength
        obtain ⟨v, ts, hstack⟩ := List.exists_cons_of_length_pos hlength
        have hunderway := hs.underway
        rw [hstack] at hunderway ⊢
        exact .ret hunderway hinstr hop

/-- Reading the instructions of a program to the end. -/
theorem run
    {rest : List Instr} (hs : ReadSoFar code i s done ahead) (hwf : s.WellFormed)
    (hheight : (s.stack.length : Int) = depth (code.take i)) (hjumps : JumpsBehindExits code)
    (hret : ∀ k instr, k + 1 < code.length → code[k]? = some instr → instr.opcode = .ret →
      depth (code.take (k + 1)) = 0)
    (hrest : code.drop i = rest) (hne : rest ≠ []) (h : s.run i rest = .ok s') :
    ∃ k done' ahead', k + 1 = code.length ∧ Closed code k s' done' ahead' := by
  induction rest generalizing i s done ahead with
  | nil => exact absurd rfl hne
  | cons instr rest ih =>
      obtain ⟨s₁, hstep, hrun⟩ := exists_of_bind_eq_ok h
      obtain ⟨hinstr, hdrop⟩ := drop_cases hrest
      have hlast : rest.isEmpty = false → i + 1 < code.length := by
        intro hrest'
        by_contra hge
        rw [List.drop_eq_nil_of_le (Nat.not_lt.mp hge)] at hdrop
        rw [← hdrop] at hrest'
        cases hrest'
      have hheight₁ := Importer.step_depth hinstr hheight hstep
      have hstack : rest.isEmpty = false → instr.opcode = .ret → s₁.stack = [] := by
        intro hrest' hop
        rw [hret i instr (hlast hrest') hinstr hop] at hheight₁
        exact List.eq_nil_of_length_eq_zero (Int.ofNat.inj hheight₁)
      have hupTo := hs.step hwf.first_eq hjumps hinstr hstack hstep
      cases rest with
      | nil =>
          obtain ⟨done', ahead', hclosed⟩ := hupTo
          injection hrun with hrun
          subst hrun
          refine ⟨i, done', ahead', ?_, hclosed⟩
          have hlength := congrArg List.length hrest
          rw [List.length_drop, List.length_singleton] at hlength
          omega
      | cons next rest =>
          obtain ⟨done', ahead', hread⟩ := hupTo
          exact ih hread (hwf.step hstep) hheight₁ hdrop (List.cons_ne_nil _ _) hrun

/-- Nothing was read yet. -/
theorem start (code : List Instr) :
    ReadSoFar code 0 .fresh [] [] := by
  rw [Importer.fresh]
  have hwf := Importer.WellFormed.start
  have hstmts : ∀ b, (({} : Graph).newChain).stmtsOf b = [] :=
    fun b => Graph.stmtsOf_eq_nil (congrArg Block.first (Graph.block_newChain b))
  have hoffset : ∀ b, ((({} : Graph).newChain).block b).offset = 0 :=
    fun b => congrArg Block.offset (Graph.block_newChain b)
  have hlayout : Layout code 0 ({} : Graph).newChain [] 0 [] := by
    refine {
      linked := hwf.linked
      ended := ?_
      chained := hwf.chained
      chain := ?_
      rising := List.pairwise_singleton _ _
      zero_offset := hoffset 0
      current_le := Int.le_of_eq (hoffset 0)
      placed := ?_
      ahead_empty := by simp
      ahead_gt := by simp
      isTarget := ?_
      target_made := ?_ }
    · intro b
      rw [hstmts, Graph.block_newChain]
      rfl
    · refine Graph.Chained.blocksFrom_eq Graph.follows_newChain (by simp) ?_
      intro b
      change b ∈ [0] ↔ b < 1
      simp
    · intro r hr
      rw [hstmts] at hr
      cases hr
    · intro b _
      rw [hoffset]
      exact Or.inl rfl
    · intro offset hle htarget
      have hnonneg := htarget.nonneg
      refine ⟨0, by simp, (hoffset 0).trans ?_⟩
      omega
  refine ⟨hlayout, by simp, ⟨0, hoffset 0, ?_⟩, ?_, .nil⟩
  · rw [Graph.rootsOf, hstmts]
    exact .nil 0
  · rw [Graph.rootsOf, hstmts]
    simp

end ReadSoFar

/-- Predecessors can only be noted when every block ends with a statement. -/
theorem last_ne_none_of_notePredecessors
    {g : Graph} {bs : List BlockId} {n n' : Notes} (h : Ir.notePredecessors g bs n = .ok () n') :
    ∀ b ∈ bs, (g.block b).last ≠ none := by
  induction bs generalizing n with
  | nil => simp
  | cons b bs ih =>
      obtain ⟨⟨⟩, n₁, hfirst, hrest⟩ := exists_of_bind_apply_eq_ok h
      intro c hc
      rcases List.mem_cons.mp hc with rfl | hc
      · intro hnone
        obtain ⟨old, n₂, hget, hexit⟩ := exists_of_bind_apply_eq_ok hfirst
        simp only [Ir.eachExit, Graph.terminator, hnone] at hexit
        cases hexit
      · exact ih hrest c hc

section

variable {p : Program} {m : Imported} (h : p.import? = .ok m) (hjumps : JumpsBehindExits p.instrs)
  (hret : ∀ k instr, k + 1 < p.instrs.length → p.instrs[k]? = some instr →
    instr.opcode = .ret → depth (p.instrs.take (k + 1)) = 0)
include h hjumps hret

/-- When a program was read, the chain of blocks is as `Layout` says it is at the last
instruction, no block is left empty, and every block holds the statements that stand at its
offset. -/
theorem Program.import?_layout :
    m.ir.first = 0 ∧ ∃ k done current, k + 1 = p.instrs.length ∧
      Layout p.instrs k m.graph done current [] ∧
      ∀ b ∈ done ++ [current], Complete p.instrs m.graph b := by
  obtain ⟨s, n, hrun, hwf, hgraph, hir, hpred, -, -⟩ := Program.import?_cases h
  have hlast : ∀ b ∈ s.graph.blocksFrom 0, (s.graph.block b).last ≠ none :=
    last_ne_none_of_notePredecessors hpred
  have hne : p.instrs ≠ [] := by
    intro hnil
    rw [hnil] at hrun
    injection hrun with hrun
    subst hrun
    have hread := (ReadSoFar.start []).layout
    refine hlast 0 ?_ ?_
    · rw [hread.chain]
      exact List.mem_singleton.mpr rfl
    · rw [hread.ended 0, Graph.stmtsOf_eq_nil]
      · rfl
      · rfl
  obtain ⟨k, done, ahead, hk, hclosed⟩ :=
    (ReadSoFar.start p.instrs).run Importer.WellFormed.start rfl hjumps hret List.drop_zero hne hrun
  have hlayout := hclosed.layout
  have hahead : ahead = [] := by
    refine List.eq_nil_iff_forall_not_mem.mpr ?_
    intro b hb
    refine hlast b ?_ ?_
    · rw [hlayout.chain]
      simp [hb]
    · rw [hlayout.ended b, Graph.stmtsOf_eq_nil (hlayout.ahead_empty b hb)]
      rfl
  rw [hahead] at hlayout
  rw [hgraph, hir]
  exact ⟨rfl, k, done, s.block, hk, hlayout, hclosed.complete⟩

/-- When a program was read, every block holds the statements that stand at its offset,
and the offsets rise along the chain of blocks. -/
theorem Program.import?_complete :
    m.ir.first = 0 ∧ (m.graph.block 0).offset = 0 ∧ 0 < m.graph.blockCount ∧
      m.graph.Rising (m.ir.blocks m.graph) ∧
      (∀ b ∈ m.ir.blocks m.graph, IsTarget p.instrs (m.graph.block b).offset) ∧
      ∀ b : Nat, b < m.graph.blockCount → Complete p.instrs m.graph b := by
  obtain ⟨hfirst, k, done, current, -, hlayout, hcomplete⟩ := Program.import?_layout h hjumps hret
  have hblocks : m.ir.blocks m.graph = done ++ [current] := by
    rw [Ir.blocks, hfirst, hlayout.chain]
  rw [hblocks]
  refine ⟨hfirst, hlayout.zero_offset, ?_, hlayout.rising, hlayout.isTarget, ?_⟩
  · exact Nat.lt_of_le_of_lt (Nat.zero_le _) (hlayout.mem_lt (b := current) (by simp))
  · intro b hb
    refine hcomplete b ?_
    rw [← hlayout.chain, hlayout.chained.mem_iff]
    exact hb

end

end LinearScan
