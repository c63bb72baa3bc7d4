import LinearScan.Proofs.Flattening
import LinearScan.Proofs.Soundness

/-!
# Programs without jumps

A program without jumps may return in several places, and each return but the last starts a new
block behind it.  No statement that has been read starts there, so no block is ever cut in two:
every tree of the program stands in one block only, whatever is left on the stack.

That the trees name variables that there are holds with or without jumps, since the jump that is
put in where a block is cut in two names none.
-/

namespace LinearScan

/-- No instruction of the program is a jump or a branch. -/
def Program.JumpFree (p : Program) : Prop :=
  ∀ instr ∈ p.instrs, instr.opcode ≠ .jmp ∧ instr.opcode ≠ .branch

instance (p : Program) : Decidable p.JumpFree :=
  inferInstanceAs (Decidable (∀ instr ∈ p.instrs, _ ∧ _))

namespace Importer

variable {s s' : Importer} {i n : Nat} {isLast : Bool} {kind : TreeKind} {operands : List Operand}
  {instr : Instr} {instrs : List Instr} {locals : Int}

theorem noteStore_graph (i : Nat) (s : Importer) : (s.noteStore i).graph = s.graph := by
  rw [noteStore]
  split <;> rfl

/-- The tree of a statement moves from the stack to the statements. -/
theorem allTrees_finish (i : Nat) (s : Importer) :
    (s.finish i).graph.allTrees (s.finish i).stack = s.graph.allTrees s.stack := by
  rw [finish]
  split
  · rfl
  · next t rest hstack =>
      rw [Graph.allTrees, Graph.allTrees, Graph.statementTrees_append, hstack]
      simp

/-! ## Blocks that are never cut -/

/-- Where the instruction at offset `i` is read, every block knows its last statement, and all
statements start in front of `i`. -/
structure Unbroken (i : Nat) (s : Importer) : Prop where
  ended : s.graph.Ended
  start_le : s.start ≤ i
  placed : ∀ b, ∀ x ∈ s.graph.entries b, x.1 < (i : Int)

namespace Unbroken

theorem start : Unbroken 0 .fresh := by
  rw [Importer.fresh]
  have hnil : ∀ b, (({} : Graph).newChain).stmtsOf b = [] := by
    intro b
    exact Graph.stmtsOf_eq_nil (by rw [Graph.block_newChain])
  refine ⟨?_, Nat.le_refl 0, ?_⟩
  · intro b
    rw [hnil, Graph.block_newChain]
    rfl
  · intro b x hx
    rw [Graph.entries, hnil] at hx
    cases hx

section

variable (hs : s.Unbroken i)
include hs

theorem fold (h : s.fold n kind operands = .ok s') : s'.Unbroken i := by
  obtain ⟨-, rfl⟩ := fold_cases h
  have hsame := s.graph.sameBlocks_newTree kind operands s.block (s.stack.take n).reverse
  refine ⟨hs.ended.congr hsame, hs.start_le, ?_⟩
  intro b x hx
  rw [hsame.entries_eq] at hx
  exact hs.placed b x hx

theorem succ : s.Unbroken (i + 1) := by
  refine ⟨hs.ended, Nat.le_succ_of_le hs.start_le, ?_⟩
  intro b x hx
  have hlt := hs.placed b x hx
  omega

theorem noteStore (k : Nat) : (s.noteStore k).Unbroken i := by
  rw [Importer.noteStore]
  split
  · exact hs
  · exact ⟨hs.ended, hs.start_le, hs.placed⟩

theorem finish (hlinked : s.graph.Linked) : (s.finish i).Unbroken (i + 1) := by
  rw [Importer.finish]
  split
  · exact ⟨hs.succ.ended, Nat.le_refl _, hs.succ.placed⟩
  · next t rest _ =>
      refine ⟨hs.ended.append hlinked s.block s.start t, Nat.le_refl _, ?_⟩
      intro b x hx
      rw [Graph.entries_append hs.ended hlinked] at hx
      have hstart := hs.start_le
      split at hx
      · rcases List.mem_append.mp hx with hx | hx
        · exact hs.succ.placed s.block x hx
        · obtain rfl := List.mem_singleton.mp hx
          push_cast
          omega
      · exact hs.succ.placed b x hx

/-- Behind the last instruction that was read no statement starts. -/
theorem not_within (c : BlockId) (r : StmtId) :
    s.graph.locate s.first (i : Nat) ≠ .ok (.within c r) := by
  intro hlocate
  obtain ⟨-, -, -, hmem, hoffset⟩ := Graph.locate_within hlocate
  have hlt := hs.placed c _ (List.mem_map_of_mem hmem)
  omega

end

/-- So the block that is left is not cut there. -/
theorem leave (hs : s.Unbroken (i + 1)) (h : s.leave i isLast = .ok s') : s'.Unbroken (i + 1) := by
  rcases leave_cases h with ⟨-, rfl⟩ | ⟨-, b, s₁, htarget, rfl⟩
  · exact hs
  · obtain ⟨g, hlook, rfl⟩ := target_cases htarget
    rcases Graph.blockAt_cases hlook with ⟨-, rfl⟩ | ⟨c, -, -, rfl⟩ | ⟨c, r, hlocate, -, -⟩
    · exact ⟨hs.ended, hs.start_le, hs.placed⟩
    · refine ⟨hs.ended.insertBehind c _, hs.start_le, ?_⟩
      intro d x hx
      rw [Graph.entries_insertBehind] at hx
      split at hx
      · cases hx
      · exact hs.placed d x hx
    · exact absurd hlocate (hs.not_within c r)

theorem step (hs : s.Unbroken i) (hwf : s.WellFormed)
    (hjump : instr.opcode ≠ .jmp ∧ instr.opcode ≠ .branch)
    (h : s.step i isLast instr = .ok s') : s'.Unbroken (i + 1) := by
  have hlinked : ∀ {n kind operands s₁}, s.fold n kind operands = .ok s₁ → s₁.graph.Linked := by
    intro n kind operands s₁ hfold
    obtain ⟨-, rfl⟩ := fold_cases hfold
    exact hwf.linked.newTree _ _ _ _
  cases step_cases h with
  | value hmade hfold => exact (hs.fold hfold).succ
  | stLocal hop hfold _ =>
      refine ((hs.fold hfold).noteStore i).finish ?_
      rw [noteStore_graph]
      exact hlinked hfold
  | pop hop hfold _ => exact (hs.fold hfold).finish (hlinked hfold)
  | jmp hop => exact absurd hop hjump.1
  | branch hop => exact absurd hop hjump.2
  | ret hop hfold hleave => exact ((hs.fold hfold).finish (hlinked hfold)).leave hleave
  | other hop => exact hs.succ

theorem run (hs : s.Unbroken i) (hwf : s.WellFormed)
    (hjump : ∀ instr ∈ instrs, instr.opcode ≠ .jmp ∧ instr.opcode ≠ .branch)
    (h : s.run i instrs = .ok s') : s'.Unbroken (i + instrs.length) := by
  induction instrs generalizing s i with
  | nil =>
      injection h with h
      subst h
      exact hs
  | cons instr instrs ih =>
      obtain ⟨s₁, hstep, hrest⟩ := exists_of_bind_eq_ok h
      have hlast := ih (hs.step hwf (hjump instr (by simp)) hstep) (hwf.step hstep)
        (fun instr' hmem => hjump instr' (List.mem_cons_of_mem _ hmem)) hrest
      rwa [Nat.add_right_comm, Nat.add_assoc] at hlast

end Unbroken

/-! ## The variables that the trees name -/

/-- Every tree that was made names one of `count` variables, if it is a load or a store. -/
def Named (count : Nat) (s : Importer) : Prop :=
  ∀ t ∈ s.graph.allTrees s.stack, t.NamesVariable count

namespace Named

variable {count : Nat} {b : BlockId} {offset : Int}

section

variable (hs : s.Named count)
include hs

theorem fold (h : s.fold n kind operands = .ok s')
    (hnew : kind = .ldLocal ∨ kind = .stLocal →
      ∃ k : Nat, k < count ∧ operands.head? = some (.literal (.num k))) : s'.Named count := by
  obtain ⟨-, rfl⟩ := fold_cases h
  intro t ht
  rw [(Graph.Planted.allTrees_newTree_perm s.graph kind operands s.block s.stack n).mem_iff,
    List.mem_cons] at ht
  rcases ht with rfl | ht
  · exact hnew
  · exact hs t ht

theorem finish (i : Nat) : (s.finish i).Named count := by
  intro t ht
  rw [allTrees_finish] at ht
  exact hs t ht

theorem noteStore (i : Nat) : (s.noteStore i).Named count := by
  rw [Importer.noteStore]
  split <;> exact hs

theorem target (h : s.target offset = .ok (b, s')) : s'.Named count := by
  obtain ⟨g, hlook, rfl⟩ := target_cases h
  rcases Graph.blockAt_cases hlook with ⟨-, rfl⟩ | ⟨c, -, -, rfl⟩ | ⟨c, r, -, -, rfl⟩
  · exact hs
  · have hroots : (s.graph.insertBehind c offset).statementTrees = s.graph.statementTrees := by
      simp [Graph.statementTrees]
    intro t ht
    refine hs t ?_
    rwa [Graph.allTrees, hroots] at ht
  · intro t ht
    rw [Graph.allTrees, Graph.statementTrees_split] at ht
    simp only [List.flatMap_append, List.mem_append, List.flatMap_cons, List.flatMap_nil,
      List.append_nil] at ht
    have hold : ∀ roots : List Tree, (∀ u ∈ roots, u ∈ s.graph.statementTrees ++ s.stack) →
        t ∈ roots.flatMap Tree.postorder → t.NamesVariable count := by
      intro roots hroots hmem
      obtain ⟨u, hu, htu⟩ := List.mem_flatMap.mp hmem
      exact hs t (List.mem_flatMap.mpr ⟨u, hroots u hu, htu⟩)
    rcases ht with (ht | ht) | ht
    · exact hold _ (fun u hu => List.mem_append_left _ hu) ht
    · obtain rfl : t = s.graph.splitJump c := by
        simpa [Tree.postorder_eq, Graph.splitJump, Tree.subtrees] using ht
      rintro (hkind | hkind) <;> cases hkind
    · exact hold _ (fun u hu => List.mem_append_right _ hu) ht

theorem leave (h : s.leave i isLast = .ok s') : s'.Named count := by
  rcases leave_cases h with ⟨-, rfl⟩ | ⟨-, b, s₁, htarget, rfl⟩
  · exact hs
  · have hs₁ := hs.target htarget
    exact hs₁

theorem edgeTo {operands : List Literal} {k : Nat} (h : s.edgeTo operands k = .ok (b, s')) :
    s'.Named count := by
  obtain ⟨offset, -, htarget⟩ := edgeTo_cases h
  exact hs.target htarget

end

theorem step (hs : s.Named locals.toNat) (hrange : instr.inRange locals = true)
    (h : s.step i isLast instr = .ok s') : s'.Named locals.toNat := by
  have hnone : ∀ {kind : TreeKind} {operands : List Operand}, kind ≠ .ldLocal ∧ kind ≠ .stLocal →
      kind = .ldLocal ∨ kind = .stLocal → ∃ k : Nat, k < locals.toNat ∧
        operands.head? = some (.literal (.num k)) := fun hne hkind =>
    absurd hkind (not_or.mpr hne)
  cases step_cases h with
  | value hmade hfold =>
      refine hs.fold hfold ?_
      cases hmade with
      | ldLocal hop => exact fun _ => Instr.head?_of_inRange hrange (Or.inl hop)
      | push | binary => exact hnone (by simp)
  | stLocal hop hfold _ =>
      have hfolded := hs.fold hfold fun _ => Instr.head?_of_inRange hrange (Or.inr hop)
      exact (hfolded.noteStore i).finish i
  | pop hop hfold _ => exact (hs.fold hfold (hnone (by simp))).finish i
  | @jmp b s₁ _ _ _ hop hedge hfold _ hleave =>
      have hs₁ := hs.edgeTo hedge
      have hmade : (s₁.newEdge b).2.Named locals.toNat := hs₁
      exact ((hmade.fold hfold (hnone (by simp))).finish i).leave hleave
  | @branch yes no s₁ s₂ _ _ _ hop hyes hno hfold _ hleave =>
      have hs₂ := (hs.edgeTo hyes).edgeTo hno
      have hmade : ((s₂.newEdge yes).2.newEdge no).2.Named locals.toNat := hs₂
      exact ((hmade.fold hfold (hnone (by simp))).finish i).leave hleave
  | ret hop hfold hleave => exact ((hs.fold hfold (hnone (by simp))).finish i).leave hleave
  | other hop => exact hs

theorem run (hs : s.Named locals.toNat) (hrange : ∀ instr ∈ instrs, instr.inRange locals = true)
    (h : s.run i instrs = .ok s') : s'.Named locals.toNat := by
  induction instrs generalizing s i with
  | nil =>
      injection h with h
      subst h
      exact hs
  | cons instr instrs ih =>
      obtain ⟨s₁, hstep, hrest⟩ := exists_of_bind_eq_ok h
      exact ih (hs.step (hrange instr (by simp)) hstep)
        (fun instr' hmem => hrange instr' (List.mem_cons_of_mem _ hmem)) hrest

end Named
end Importer

/-! ## What is read -/

/-- In a program without jumps every tree is reached once. -/
theorem Program.JumpFree.ids_nodup {p : Program} {m : Imported} (hp : p.JumpFree)
    (h : p.import? = .ok m) : ((m.ir.trees m.graph).map Tree.id).Nodup := by
  obtain ⟨s, n, hrun, hwf, hgraph, -⟩ := Program.import?_cases h
  obtain ⟨⟨pending, hg⟩, -, hfirst⟩ := Program.import?_formed h
  have hended := (Importer.Unbroken.start.run Importer.WellFormed.start hp hrun).ended
  rw [← hgraph] at hended
  rw [Ir.trees, hfirst]
  exact treesFrom_ids_nodup hg hended

/-- If all loads and stores of a program name variables it has, then so do its trees. -/
theorem Program.import?_namesVariables {p : Program} {m : Imported}
    (hrange : ∀ instr ∈ p.instrs, instr.inRange p.locals = true) (h : p.import? = .ok m) :
    m.graph.NamesVariables p.locals.toNat := by
  obtain ⟨s, n, hrun, hwf, hgraph, -⟩ := Program.import?_cases h
  have hstart : Importer.Named p.locals.toNat .fresh := by
    intro t ht
    cases ht
  rw [hgraph]
  intro t ht
  apply hstart.run hrange hrun
  obtain ⟨b, -, hb⟩ := List.mem_flatMap.mp ht
  exact hwf.formed.mem_allTrees hb

end LinearScan
