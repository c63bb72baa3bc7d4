import LinearScan.Proofs.JumpFree
import LinearScan.Proofs.Targets

/-!
# Expressions and the stack they are read with

A program that only computes with constants is read into expressions.  While the right operand
of an operation is computed the left one waits, so an expression needs as many registers as
there are trees on the stack of the reader at the worst moment while it is read, no more
(`Program.Arithmetic.import?_fitted`).
-/

namespace LinearScan

/-! ## Expressions -/

/-- The tree computes a value from constants, and at most `n` values are there at a time: the
left operand of an operation waits while the right one is computed. -/
inductive Tree.Needs : Tree → Nat → Prop
  | const (id : TreeId) (operands : List Operand) (block : BlockId) :
      Needs (.node id .const operands block []) 1
  | binOp (id : TreeId) (op : Operator) (block : BlockId) {a b : Tree} {m n : Nat}
      (ha : Needs a m) (hb : Needs b n) :
      Needs (.node id .binOp [.operator op] block [a, b]) (max m (n + 1))

/-- A statement that takes the value of an expression which needs at most `d` registers. -/
def Tree.FitsStatement (d : Nat) (t : Tree) : Prop :=
  (t.kind = .discard ∨ t.kind = .ret) ∧ t.operands = [] ∧
    ∃ u n, t.subtrees = [u] ∧ u.Needs n ∧ n ≤ d

/-- Each tree on the stack, the topmost first, needs no more registers than are left of `d` when
the trees below it have one each. -/
def StackFits (d : Nat) : List Tree → Prop
  | [] => True
  | t :: rest => (∃ n, t.Needs n ∧ rest.length + n ≤ d) ∧ StackFits d rest

/-- The instruction computes with constants, or ends a statement. -/
def Opcode.isArithmetic : Opcode → Bool
  | .push | .binary _ | .pop | .ret => true
  | _ => false

/-- The program computes with constants only, and never jumps. -/
def Program.Arithmetic (p : Program) : Prop :=
  ∀ instr ∈ p.instrs, instr.opcode.isArithmetic = true

instance (p : Program) : Decidable p.Arithmetic :=
  inferInstanceAs (Decidable (∀ instr ∈ p.instrs, _))

/-- The largest number of trees that are on the stack while the program is read. -/
def Program.peak (p : Program) : Nat :=
  (p.readings.map fun x => x.2.stack.length).foldr max 0

theorem Tree.Needs.pos {t : Tree} {n : Nat} (h : t.Needs n) : 0 < n := by
  cases h with
  | const => exact Nat.zero_lt_one
  | binOp _ _ _ _ hb => omega

theorem Program.Arithmetic.jumpFree {p : Program} (hp : p.Arithmetic) : p.JumpFree := by
  intro instr hinstr
  have harith := hp instr hinstr
  constructor
  · intro hop
    rw [hop] at harith
    cases harith
  · intro hop
    rw [hop] at harith
    cases harith

theorem Program.stack_le_peak {p : Program} {x : Instr × Importer} (hx : x ∈ p.readings) :
    x.2.stack.length ≤ p.peak := by
  rw [peak]
  generalize p.readings = xs at hx
  induction xs with
  | nil => cases hx
  | cons y xs ih =>
      rw [List.map_cons, List.foldr_cons]
      rcases List.mem_cons.mp hx with rfl | hx
      · exact Nat.le_max_left _ _
      · exact Nat.le_trans (ih hx) (Nat.le_max_right _ _)

/-! ## Reading expressions -/

namespace Importer

variable {s s' : Importer} {i d : Nat} {isLast : Bool} {instr : Instr} {instrs : List Instr}

/-- All that was read are expressions that need at most `d` registers. -/
structure Fitted (d : Nat) (s : Importer) : Prop where
  stack : StackFits d s.stack
  statements : ∀ t ∈ s.graph.statementTrees, t.FitsStatement d

namespace Fitted

section

variable (hs : s.Fitted d)
include hs

theorem push {operands : List Operand} (h : s.fold 0 .const operands = .ok s')
    (hle : s'.stack.length ≤ d) : s'.Fitted d := by
  obtain ⟨-, rfl⟩ := fold_cases h
  exact ⟨⟨⟨1, .const _ operands s.block, hle⟩, hs.stack⟩, hs.statements⟩

theorem binary {op : Operator} (h : s.fold 2 .binOp [.operator op] = .ok s') : s'.Fitted d := by
  obtain ⟨hlength, rfl⟩ := fold_cases h
  refine ⟨?_, hs.statements⟩
  obtain ⟨graph, first, block, stack, start, stores⟩ := s
  match stack, hs.stack, hlength with
  | b :: a :: rest, ⟨⟨n, hb, hn⟩, ⟨m, ha, hm⟩, hrest⟩, _ =>
      refine ⟨⟨max m (n + 1), .binOp _ op block ha hb, ?_⟩, hrest⟩
      rw [List.length_cons] at hn
      change rest.length + max m (n + 1) ≤ d
      omega

/-- A statement takes the topmost tree. -/
theorem finish {kind : TreeKind} (hkind : kind = .discard ∨ kind = .ret) {s₁ : Importer}
    (h : s.fold 1 kind [] = .ok s₁) (i : Nat) : (s₁.finish i).Fitted d := by
  obtain ⟨hlength, rfl⟩ := fold_cases h
  obtain ⟨graph, first, block, stack, start, stores⟩ := s
  match stack, hs.stack, hlength with
  | t :: rest, ⟨⟨n, ht, hn⟩, hrest⟩, _ =>
      refine ⟨hrest, ?_⟩
      intro u hu
      rw [Importer.finish, Graph.statementTrees_append] at hu
      rcases List.mem_append.mp hu with hu | hu
      · exact hs.statements u hu
      · obtain rfl := List.mem_singleton.mp hu
        exact ⟨hkind, rfl, t, n, rfl, ht, by omega⟩

/-- Behind a return a new block starts, and nothing else changes. -/
theorem leave (hunbroken : s.Unbroken (i + 1)) (h : s.leave i isLast = .ok s') : s'.Fitted d := by
  rcases leave_cases h with ⟨-, rfl⟩ | ⟨-, b, s₁, htarget, rfl⟩
  · exact hs
  · obtain ⟨g, hlook, rfl⟩ := target_cases htarget
    refine ⟨hs.stack, ?_⟩
    rcases Graph.blockAt_cases hlook with ⟨-, rfl⟩ | ⟨c, -, -, rfl⟩ | ⟨c, r, hlocate, -, -⟩
    · exact hs.statements
    · intro t ht
      have hroots : (s.graph.insertBehind c ((i + 1 : Nat) : Int)).statementTrees =
          s.graph.statementTrees := by simp [Graph.statementTrees]
      exact hs.statements t (hroots ▸ ht)
    · exact absurd hlocate (hunbroken.not_within c r)

theorem step (hwf : s.WellFormed) (hunbroken : s.Unbroken i)
    (harith : instr.opcode.isArithmetic = true) (h : s.step i isLast instr = .ok s')
    (hle : isLast = false → s'.stack.length ≤ d) : s'.Fitted d := by
  cases step_cases h with
  | value hmade hfold =>
      cases hmade with
      | push => exact hs.push hfold (hle rfl)
      | binary => exact hs.binary hfold
      | ldLocal hop =>
          rw [hop] at harith
          cases harith
  | pop hop hfold _ => exact hs.finish (Or.inl rfl) hfold i
  | ret hop hfold hleave =>
      refine (hs.finish (Or.inr rfl) hfold i).leave ?_ hleave
      obtain ⟨-, hgraph⟩ := fold_cases hfold
      refine (hunbroken.fold hfold).finish ?_
      rw [hgraph]
      exact hwf.linked.newTree _ _ _ _
  | stLocal hop | jmp hop | branch hop | other hop =>
      rw [hop] at harith
      cases harith

theorem run (hwf : s.WellFormed) (hunbroken : s.Unbroken i)
    (harith : ∀ instr ∈ instrs, instr.opcode.isArithmetic = true)
    (hle : ∀ x ∈ readings i instrs s, x.2.stack.length ≤ d) (h : s.run i instrs = .ok s') :
    s'.Fitted d := by
  induction instrs generalizing s i with
  | nil =>
      injection h with h
      exact h ▸ hs
  | cons instr rest ih =>
      obtain ⟨s₁, hstep, hrest⟩ := exists_of_bind_eq_ok h
      have hinstr := harith instr List.mem_cons_self
      have hjump : instr.opcode ≠ .jmp ∧ instr.opcode ≠ .branch := by
        constructor <;>
          · intro hop
            rw [hop] at hinstr
            cases hinstr
      have hreadings : ∀ x ∈ readings (i + 1) rest s₁, x.2.stack.length ≤ d := by
        intro x hx
        refine hle x ?_
        rw [readings, hstep]
        exact List.mem_cons_of_mem _ hx
      refine ih (hs.step hwf hunbroken hinstr hstep ?_) (hwf.step hstep)
        (hunbroken.step hwf hjump hstep) (fun x hx => harith x (List.mem_cons_of_mem _ hx))
        hreadings hrest
      intro hlast
      cases rest with
      | nil => cases hlast
      | cons next rest => exact hreadings _ List.mem_cons_self

end

end Fitted
end Importer

/-- Every statement of a program that computes with constants fits into as many registers as
there are trees on the stack at the worst moment. -/
theorem Program.Arithmetic.import?_fitted {p : Program} (hp : p.Arithmetic) {m : Imported}
    (h : p.import? = .ok m) : ∀ t ∈ m.graph.statementTrees, t.FitsStatement p.peak := by
  obtain ⟨s, n, hrun, -, hgraph, -⟩ := Program.import?_cases h
  have hstart : Importer.fresh.Fitted p.peak := ⟨trivial, fun t ht => by cases ht⟩
  have hend := hstart.run Importer.WellFormed.start Importer.Unbroken.start hp
    (fun x hx => Program.stack_le_peak hx) hrun
  rw [hgraph]
  exact hend.statements

end LinearScan
