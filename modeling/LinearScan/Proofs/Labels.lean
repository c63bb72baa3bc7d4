import Mathlib
import LinearScan.Render.Assembly
import LinearScan.Proofs.EarlyRelease

/-!
# The labels that jumps name

The code of a unit has a label for each block and one for each edge.  A jump names the label of a
block, or the label of an edge of a branch of its own block.  Blocks start at different offsets, so
that their labels are all different.  The labels of edges are told apart by the block that they
leave, and a block has at most one branch: whatever else is cut and chained anew, nothing is ever
put behind a branch.  So a label that a jump names stands in exactly one place.
-/

namespace LinearScan

/-! ## Nothing follows a branch -/

namespace Graph

variable {g g' : Graph} {b c : BlockId} {s : StmtId} {offset : Int} {t : Tree}

/-- No statement comes behind a branch. -/
structure Capped (g : Graph) : Prop where
  next_eq : ∀ {r}, (g.stmt r).tree.kind = .branch → (g.stmt r).next = none
  prev_ne : ∀ {r q}, (g.stmt r).prev = some q → (g.stmt q).tree.kind ≠ .branch

/-- The block ends with another statement than a branch, if it has any. -/
def Uncapped (g : Graph) (b : BlockId) : Prop :=
  ∀ l, (g.block b).last = some l → (g.stmt l).tree.kind ≠ .branch

/-- All statements start before an offset, and so do the blocks that have statements. -/
structure Before (g : Graph) (i : Int) : Prop where
  stmt_lt : ∀ {r}, r < g.stmtCount → (g.stmt r).offset < i
  block_lt : ∀ {b l}, (g.block b).last = some l → (g.block b).offset < i

namespace Capped

theorem congr (hg : g.Capped) (h : g.SameBlocks g') : g'.Capped where
  next_eq := by
    intro r
    rw [h.stmt_eq]
    exact hg.next_eq
  prev_ne := by
    intro r q
    rw [h.stmt_eq, h.stmt_eq]
    exact hg.prev_ne

theorem append (hg : g.Capped) (hlinked : g.Linked) (hb : g.Uncapped b) :
    (g.append b offset t).Capped where
  next_eq := by
    intro r
    have hlast := hb r
    have hlt := @hlinked.last_lt b r
    have hold := @hg.next_eq r
    rw [append_stmt]
    grind
  prev_ne := by
    intro r q
    -- The new statement follows the last one of the block.
    have hlast := hb q
    have hlt := @hlinked.last_lt b q
    have hprev := @hlinked.prev_lt r q
    have hold := @hg.prev_ne r q
    rw [append_stmt, append_stmt]
    grind

theorem split (hg : g.Capped) (hlinked : g.Linked) : (g.split b s offset).Capped := by
  -- The jump is put behind the statement before the last one of the block.
  have hbefore : ∀ q, g.splitBefore b = some q →
      q < g.stmtCount ∧ (g.stmt q).tree.kind ≠ .branch := by
    intro q hq
    obtain ⟨l, -, hprev⟩ := Option.bind_eq_some_iff.mp hq
    exact ⟨hlinked.prev_lt hprev, hg.prev_ne hprev⟩
  have hjump : (g.splitJump b).kind = .jmp := rfl
  constructor
  · intro r
    have hr := hbefore r
    have hold := @hg.next_eq r
    rw [split_stmt]
    grind
  · intro r q
    have hq := hbefore q
    have hprev := @hlinked.prev_lt r q
    have hold := @hg.prev_ne r q
    rw [split_stmt, split_stmt]
    grind

theorem insertBehind (hg : g.Capped) : (g.insertBehind b offset).Capped where
  next_eq := by
    intro r
    rw [insertBehind_stmt]
    exact hg.next_eq
  prev_ne := by
    intro r q
    rw [insertBehind_stmt, insertBehind_stmt]
    exact hg.prev_ne

end Capped

namespace Before

variable {i j : Int}

theorem congr (hg : g.Before i) (h : g.SameBlocks g') : g'.Before i where
  stmt_lt := by
    intro r
    rw [h.stmt_eq, h.stmtCount_eq]
    exact hg.stmt_lt
  block_lt := by
    intro b l
    rw [h.block_eq]
    exact hg.block_lt

theorem mono (hg : g.Before i) (hij : i ≤ j) : g.Before j where
  stmt_lt hr := Int.lt_of_lt_of_le (hg.stmt_lt hr) hij
  block_lt hl := Int.lt_of_lt_of_le (hg.block_lt hl) hij

theorem append (hg : g.Before i) (hoffset : offset < i) (hb : (g.block b).offset < i) :
    (g.append b offset t).Before i where
  stmt_lt := by
    intro r hr
    have hold := @hg.stmt_lt r
    rw [append_stmtCount] at hr
    rw [append_stmt_offset]
    grind
  block_lt := by
    intro c l
    have hold := @hg.block_lt c l
    rw [append_block]
    grind

theorem insertBehind (hg : g.Before i) : (g.insertBehind b offset).Before i where
  stmt_lt := by
    intro r
    rw [insertBehind_stmt, insertBehind_stmtCount]
    exact hg.stmt_lt
  block_lt := by
    intro c l
    have hold := @hg.block_lt c l
    rw [insertBehind_last, insertBehind_offset]
    grind

theorem split (hg : g.Before i) (hlinked : g.Linked) (hoffset : offset < i)
    (hb : (g.block b).offset < i) : (g.split b s offset).Before i where
  stmt_lt := by
    intro r hr
    have hold := @hg.stmt_lt r
    have hjump : g.splitOffset b < i := by
      rw [splitOffset]
      cases hbefore : g.splitBefore b with
      | none => exact hb
      | some q =>
          obtain ⟨l, -, hprev⟩ := Option.bind_eq_some_iff.mp hbefore
          exact hg.stmt_lt (hlinked.prev_lt hprev)
    rw [split_stmtCount] at hr
    rw [split_stmt]
    grind
  block_lt := by
    intro c l
    have hold := @hg.block_lt c l
    rw [split_last, split_offset, insertBehind_offset]
    grind

end Before

/-- A look-up puts nothing behind a branch. -/
theorem Capped.lookup {i : Int} (hg : g.Capped) (hplaced : g.Placed) (hbefore : g.Before i)
    (h : blockAt 0 offset g = .ok b g') : g'.Capped ∧ g'.Before i := by
  have hthreaded := hplaced.grown.threaded
  rcases blockAt_cases h with ⟨-, rfl⟩ | ⟨c, -, -, rfl⟩ | ⟨c, s, hplace, -, rfl⟩
  · exact ⟨hg, hbefore⟩
  · exact ⟨hg.insertBehind, hbefore.insertBehind⟩
  · obtain ⟨-, -, -, hs, hoffset⟩ := locate_within hplace
    have hlt : offset < i := by
      rw [← hoffset]
      exact hbefore.stmt_lt (hthreaded.linked.lt_of_mem_stmtsOf hs)
    exact ⟨hg.split hthreaded.linked, hbefore.split hthreaded.linked hlt
      (Int.lt_trans (hplaced.offset_lt_of_within hplace) hlt)⟩

/-- A look-up does not end a block with a branch. -/
theorem Uncapped.lookup (hb : g.Uncapped b) (hplaced : g.Placed) (hlt : b < g.blockCount)
    (h : blockAt 0 offset g = .ok c g') : g'.Uncapped b := by
  have hlinked := hplaced.grown.threaded.linked
  intro l hl
  have hlast := @hlinked.last_lt b l
  have hold := hb l
  rcases blockAt_cases h with ⟨-, rfl⟩ | ⟨d, -, -, rfl⟩ | ⟨d, s, hplace, -, rfl⟩
  · exact hold hl
  · rw [insertBehind_last, if_neg (Nat.ne_of_lt hlt)] at hl
    rw [insertBehind_stmt]
    exact hold hl
  · have hjump : (g.splitJump d).kind = .jmp := rfl
    rw [split_last] at hl
    rw [split_stmt]
    grind

end Graph

/-! ## Reading -/

namespace Importer

variable {code : List Instr} {s s' : Importer} {i : Nat} {isLast : Bool} {b : BlockId}

/-- Before the instruction at offset `i` is read nothing follows a branch, and nothing starts at
`i` or behind. -/
structure CappedBefore (i : Nat) (s : Importer) : Prop where
  capped : s.graph.Capped
  before : s.graph.Before i
  block_le : (s.graph.block s.block).offset ≤ i
  start_le : s.start ≤ i

namespace CappedBefore

theorem fold {n : Nat} {kind : TreeKind} {operands : List Operand} (hs : s.CappedBefore i)
    (h : s.fold n kind operands = .ok s') : s'.CappedBefore i ∧
      (s.graph.Uncapped s.block → s'.graph.Uncapped s'.block) ∧
      ∃ t rest, s'.stack = t :: rest ∧ t.kind = kind := by
  obtain ⟨-, rfl⟩ := fold_cases h
  have hsame := s.graph.sameBlocks_newTree kind operands s.block (s.stack.take n).reverse
  refine ⟨⟨hs.capped.congr hsame, hs.before.congr hsame, ?_, hs.start_le⟩, ?_, _, _, rfl, rfl⟩
  · dsimp only
    rw [hsame.block_eq]
    exact hs.block_le
  · intro hblock l
    dsimp only
    rw [hsame.block_eq, hsame.stmt_eq]
    exact hblock l

theorem newEdge (hs : s.CappedBefore i) (b : BlockId) : (s.newEdge b).2.CappedBefore i := by
  have hsame := s.graph.sameBlocks_newEdge b
  exact ⟨hs.capped.congr hsame, hs.before.congr hsame, hs.block_le, hs.start_le⟩

theorem target {offset : Int} (hs : s.CappedBefore i) (hread : s.Read code)
    (h : s.target offset = .ok (b, s')) :
    s'.CappedBefore i ∧ (s.graph.Uncapped s.block → s'.graph.Uncapped s'.block) := by
  obtain ⟨g, hblock, rfl⟩ := target_cases h
  rw [hread.first_eq] at hblock
  obtain ⟨hcapped, hbefore⟩ := hs.capped.lookup hread.placed hs.before hblock
  refine ⟨⟨hcapped, hbefore, ?_, hs.start_le⟩,
    fun hcur => hcur.lookup hread.placed hread.block_lt hblock⟩
  have hoffset : (g.block s.block).offset = (s.graph.block s.block).offset := by
    have hne : s.block ≠ s.graph.blockCount := Nat.ne_of_lt hread.block_lt
    rcases Graph.blockAt_cases hblock with ⟨-, rfl⟩ | ⟨c, -, -, rfl⟩ | ⟨c, r, -, -, rfl⟩
    · rfl
    · rw [Graph.insertBehind_offset, if_neg hne]
    · rw [Graph.split_offset, Graph.insertBehind_offset, if_neg hne]
  dsimp only
  rw [hoffset]
  exact hs.block_le

theorem edgeTo {operands : List Literal} {k : Nat} (hs : s.CappedBefore i) (hread : s.Read code)
    (h : s.edgeTo operands k = .ok (b, s')) :
    s'.CappedBefore i ∧ (s.graph.Uncapped s.block → s'.graph.Uncapped s'.block) := by
  obtain ⟨offset, -, htarget⟩ := edgeTo_cases h
  exact hs.target hread htarget

/-- The topmost tree is put behind a statement that is no branch. -/
theorem finish {t : Tree} {rest : List Tree} (hs : s.CappedBefore i) (hread : s.Read code)
    (hstack : s.stack = t :: rest) (hcur : s.graph.Uncapped s.block) :
    (s.finish i).CappedBefore (i + 1) ∧
      (t.kind ≠ .branch → (s.finish i).graph.Uncapped (s.finish i).block) := by
  have hlinked := hread.placed.grown.threaded.linked
  have hblock := hs.block_le
  have hstart := hs.start_le
  simp only [Importer.finish, hstack]
  refine ⟨⟨hs.capped.append hlinked hcur, ?_, ?_, Nat.le_refl _⟩, ?_⟩
  · exact (hs.before.mono (by omega)).append (by omega) (by omega)
  · dsimp only
    rw [Graph.append_block, if_pos rfl]
    push_cast
    exact Int.le_trans hblock (by omega)
  · intro hkind l hl
    rw [Graph.append_block, if_pos rfl] at hl
    obtain rfl : s.graph.stmtCount = l := Option.some.inj hl
    rw [Graph.append_stmt_tree, if_pos rfl]
    exact hkind

/-- A block that starts behind all that was read is empty. -/
theorem leave (hs : s.CappedBefore (i + 1)) (hread : s.Read code) (h : s.leave i isLast = .ok s') :
    s'.CappedBefore (i + 1) ∧ (isLast = false → s'.graph.Uncapped s'.block) := by
  rcases leave_cases h with ⟨hlast, rfl⟩ | ⟨-, b, s₁, htarget, rfl⟩
  · exact ⟨hs, fun hnot => by simp [hlast] at hnot⟩
  · obtain ⟨hs₁, -⟩ := hs.target hread htarget
    obtain ⟨g, hblock, rfl⟩ := target_cases htarget
    rw [hread.first_eq] at hblock
    have hempty : (g.block b).offset = (i + 1 : Nat) ∧ (g.block b).last = none := by
      rcases Graph.blockAt_cases hblock with
        ⟨hplace, rfl⟩ | ⟨c, -, rfl, rfl⟩ | ⟨c, r, hplace, -, rfl⟩
      · have hoffset := (Graph.locate_spec hread.placed.grown.threaded.chained hplace).2
        refine ⟨hoffset, Option.eq_none_iff_forall_ne_some.mpr fun l hl => ?_⟩
        have hlt := hs.before.block_lt hl
        rw [hoffset] at hlt
        exact Int.lt_irrefl _ hlt
      · rw [Graph.insertBehind_offset, Graph.insertBehind_last, if_pos rfl, if_pos rfl]
        exact ⟨rfl, rfl⟩
      · obtain ⟨-, -, -, hr, hoffset⟩ := Graph.locate_within hplace
        have hlt := hs.before.stmt_lt
          (hread.placed.grown.threaded.linked.lt_of_mem_stmtsOf hr)
        rw [hoffset] at hlt
        exact absurd hlt (Int.lt_irrefl _)
    refine ⟨⟨hs₁.capped, hs₁.before, Int.le_of_eq hempty.1, hs₁.start_le⟩, fun _ l hl => ?_⟩
    rw [show (g.block b).last = some l from hl] at hempty
    cases hempty.2

/-- A statement that leaves the current block. -/
theorem depart {n : Nat} {kind : TreeKind} {operands : List Operand} {s₁ : Importer}
    (hs : s.CappedBefore i) (hread : s.Read code) (hcur : s.graph.Uncapped s.block)
    (hedges : kind = .jmp ∨ kind = .branch ∨ operands.filterMap Operand.edge? = [])
    (hfold : s.fold n kind operands = .ok s₁) (hleave : (s₁.finish i).leave i isLast = .ok s') :
    s'.CappedBefore (i + 1) ∧ (isLast = false → s'.graph.Uncapped s'.block) := by
  obtain ⟨hs₁, hcur₁, t, rest, hstack, -⟩ := hs.fold hfold
  have hread₁ := hread.fold hfold hedges
  exact (hs₁.finish hread₁ hstack (hcur₁ hcur)).1.leave (hread₁.finish i) hleave

/-- A statement that stays in the current block. -/
theorem stay {n : Nat} {kind : TreeKind} {operands : List Operand} {s₁ : Importer}
    (hs : s.CappedBefore i) (hread : s.Read code) (hcur : s.graph.Uncapped s.block)
    (hkind : kind ≠ .branch) (hedges : operands.filterMap Operand.edge? = [])
    (hfold : s.fold n kind operands = .ok s₁) :
    (s₁.finish i).CappedBefore (i + 1) ∧ (s₁.finish i).graph.Uncapped (s₁.finish i).block := by
  obtain ⟨hs₁, hcur₁, t, rest, hstack, rfl⟩ := hs.fold hfold
  have hfinish := hs₁.finish (hread.fold hfold (Or.inr (Or.inr hedges))) hstack (hcur₁ hcur)
  exact ⟨hfinish.1, hfinish.2 hkind⟩

theorem mono (hs : s.CappedBefore i) : s.CappedBefore (i + 1) where
  capped := hs.capped
  before := hs.before.mono (by omega)
  block_le := Int.le_trans hs.block_le (by omega)
  start_le := Nat.le_succ_of_le hs.start_le

theorem step {instr : Instr} (hs : s.CappedBefore i) (hread : s.Read code)
    (hcur : s.graph.Uncapped s.block) (h : s.step i isLast instr = .ok s') :
    s'.CappedBefore (i + 1) ∧ (isLast = false → s'.graph.Uncapped s'.block) := by
  have hliterals := Operand.edges_literals instr.operands
  cases step_cases h with
  | value hmade hfold =>
      obtain ⟨hs', hcur', -⟩ := hs.fold hfold
      exact ⟨hs'.mono, fun _ => hcur' hcur⟩
  | stLocal hop hfold _ =>
      obtain ⟨hfinish, hcur'⟩ := hs.stay hread hcur (by decide) hliterals hfold
      obtain ⟨-, rfl⟩ := fold_cases hfold
      exact ⟨⟨hfinish.capped, hfinish.before, hfinish.block_le, hfinish.start_le⟩, fun _ => hcur'⟩
  | pop hop hfold _ =>
      obtain ⟨hfinish, hcur'⟩ := hs.stay hread hcur (by decide) rfl hfold
      exact ⟨hfinish, fun _ => hcur'⟩
  | jmp hop hedge hfold _ hleave =>
      obtain ⟨hs₁, hcur₁⟩ := hs.edgeTo hread hedge
      exact (hs₁.newEdge _).depart ((hread.edgeTo hedge).newEdge _) (hcur₁ hcur) (Or.inl rfl)
        hfold hleave
  | branch hop hyes hno hfold _ hleave =>
      have hread₁ := hread.edgeTo hyes
      obtain ⟨hs₁, hcur₁⟩ := hs.edgeTo hread hyes
      obtain ⟨hs₂, hcur₂⟩ := hs₁.edgeTo hread₁ hno
      exact ((hs₂.newEdge _).newEdge _).depart (((hread₁.edgeTo hno).newEdge _).newEdge _)
        (hcur₂ (hcur₁ hcur)) (Or.inr (Or.inl rfl)) hfold hleave
  | ret hop hfold hleave => exact hs.depart hread hcur (Or.inr (Or.inr rfl)) hfold hleave
  | other hop => exact ⟨hs.mono, fun _ => hcur⟩

theorem run {instrs : List Instr} (hs : s.CappedBefore i) (hread : s.Read code)
    (hcur : instrs ≠ [] → s.graph.Uncapped s.block) (hcode : code.drop i = instrs)
    (h : s.run i instrs = .ok s') : s'.graph.Capped := by
  induction instrs generalizing i s with
  | nil =>
      injection h with h
      exact h ▸ hs.capped
  | cons instr rest ih =>
      obtain ⟨s₁, hstep, h⟩ := exists_of_bind_eq_ok h
      obtain ⟨hinstr, hdrop⟩ := drop_cases hcode
      obtain ⟨hs₁, hcur₁⟩ := hs.step hread (hcur (by simp)) hstep
      exact ih hs₁ (hread.step hinstr hstep) (fun hrest => hcur₁ (by simpa using hrest)) hdrop h

theorem start : Importer.fresh.CappedBefore 0 ∧ Importer.fresh.graph.Uncapped 0 := by
  rw [Importer.fresh]
  have hstmt : ∀ r, (({} : Graph).newChain).stmt r = {} := fun _ => rfl
  refine ⟨⟨⟨fun {r} _ => ?_, fun {r q} hprev => ?_⟩, ⟨fun {r} hr => ?_, fun {b l} hl => ?_⟩, ?_,
    Nat.le_refl 0⟩, fun l hl => ?_⟩
  · rw [hstmt]
  · rw [hstmt] at hprev
    cases hprev
  · cases hr
  · rw [Graph.block_newChain] at hl
    cases hl
  · exact Int.le_of_eq (congrArg Block.offset (Graph.block_newChain 0))
  · rw [Graph.block_newChain] at hl
    cases hl

end CappedBefore
end Importer

/-- In a program that was read nothing follows a branch. -/
theorem Program.import?_capped {p : Program} {m : Imported} (h : p.import? = .ok m) :
    m.graph.Capped := by
  obtain ⟨s, -, hrun, -, hgraph, -⟩ := Program.import?_cases h
  rw [hgraph]
  exact Importer.CappedBefore.start.1.run (Importer.Read.start p.instrs)
    (fun _ => Importer.CappedBefore.start.2) rfl hrun

/-! ## Branches end their blocks -/

namespace Graph

variable {g : Graph} {pending : List Tree} {b c : BlockId} {t u : Tree} {l : Label}

theorem Capped.pairwise_walkStmts (hg : g.Capped) (fuel : Nat) (start : Option StmtId) :
    (g.walkStmts fuel start).Pairwise fun r _ => (g.stmt r).tree.kind ≠ .branch := by
  induction fuel generalizing start with
  | zero => exact List.Pairwise.nil
  | succ fuel ih =>
      cases start with
      | none => exact List.Pairwise.nil
      | some r =>
          refine List.Pairwise.cons (fun q hq hkind => ?_) (ih _)
          rw [hg.next_eq hkind, walkStmts_none] at hq
          cases hq

/-- A part of a statement that is not the statement itself is no branch. -/
theorem Formed.part_ne_branch (hg : g.Formed pending) {root : Tree} (hroot : root ∈ g.treesOf b)
    (hsub : root.postorder ⊆ g.treesOf b) (ht : t ∈ root.subtrees.flatMap Tree.postorder) :
    t.kind ≠ .branch := by
  have hvalue : t.kind.isValue = true := by
    obtain ⟨u, hu, ht⟩ := List.mem_flatMap.mp ht
    rcases Tree.eq_or_mem_subtrees ht with rfl | ⟨p, hp, htp⟩
    · exact hg.subtree_isValue hroot hu
    · exact hg.subtree_isValue (hsub (Tree.mem_postorder_trans
        (Tree.mem_postorder_of_mem_subtrees hu) hp)) htp
  intro hkind
  rw [hkind] at hvalue
  cases hvalue

/-- A tree before another one of its block is no branch. -/
theorem Capped.pairwise_treesOf (hg : g.Capped) (hformed : g.Formed pending) (b : BlockId) :
    (g.treesOf b).Pairwise fun t _ => t.kind ≠ .branch := by
  have hsub : ∀ r ∈ g.stmtsOf b, (g.stmt r).tree.postorder ⊆ g.treesOf b :=
    fun r hr t ht => List.mem_flatMap.mpr ⟨r, hr, ht⟩
  have hpart : ∀ r ∈ g.stmtsOf b, ∀ t ∈ (g.stmt r).tree.subtrees.flatMap Tree.postorder,
      t.kind ≠ .branch := fun r hr t ht =>
    hformed.part_ne_branch (hsub r hr (Tree.mem_postorder_self _)) (hsub r hr) ht
  rw [treesOf, List.pairwise_flatMap]
  refine ⟨fun r hr => ?_, (hg.pairwise_walkStmts _ _).imp_of_mem ?_⟩
  · rw [Tree.postorder_eq, List.pairwise_append]
    refine ⟨List.pairwise_of_forall_mem_list fun t ht _ _ => hpart r hr t ht,
      List.pairwise_singleton _ _, fun t ht _ _ => hpart r hr t ht⟩
  · intro r q hr _ hkind t ht _ _
    rw [Tree.postorder_eq, List.mem_append, List.mem_singleton] at ht
    rcases ht with ht | rfl
    · exact hpart r hr t ht
    · exact hkind

/-- A branch is the last tree of its block, and the only branch. -/
theorem Capped.treesOf_eq_of_branch (hg : g.Capped) (hformed : g.Formed pending)
    (ht : t ∈ g.treesOf b) (hkind : t.kind = .branch) :
    ∃ ts, g.treesOf b = ts ++ [t] ∧ ∀ u ∈ ts, u.kind ≠ .branch := by
  obtain ⟨ts, rest, hsplit⟩ := List.append_of_mem ht
  have hpairwise := hg.pairwise_treesOf hformed b
  rw [hsplit, List.pairwise_append, List.pairwise_cons] at hpairwise
  obtain ⟨-, ⟨hrest, -⟩, hts⟩ := hpairwise
  obtain rfl : rest = [] :=
    List.eq_nil_iff_forall_not_mem.mpr fun u hu => hrest u hu hkind
  exact ⟨ts, hsplit, fun u hu => hts u hu t (by simp)⟩

end Graph

/-! ## The lines of a unit -/

/-- The label that a line puts. -/
def AsmLine.label? : AsmLine → Option Label
  | .label l => some l
  | _ => none

/-- The label that a line names as the target of a jump. -/
def AsmLine.target? : AsmLine → Option Label
  | .jump l | .jumpZero _ l | .jumpNonzero _ l => some l
  | _ => none

namespace Assembler

variable {g : Graph} {n : Notes} {b c : BlockId} {t : Tree} {l : Label}
  {labels labels' targets targets' : List Label} {code code' : Array AsmLine}

/-- The labels that the code of the tree `t` puts, where `t` stands in the block `b`. -/
def labelsOf (g : Graph) (b : BlockId) (t : Tree) : List Label :=
  match t.kind, t.operands with
  | .jmp, .edge _ c :: _ => [edgeLabel g .always b c]
  | .branch, .edge _ c :: .edge _ d :: _ => [edgeLabel g .ifTrue b c, edgeLabel g .ifFalse b d]
  | _, _ => []

/-- The labels to which the code of the tree `t` jumps, where `t` stands in the block `b`. -/
def targetsOf (g : Graph) (b : BlockId) (t : Tree) : List Label :=
  match t.kind, t.operands with
  | .jmp, .edge _ c :: _ => [blockLabel g c]
  | .branch, .edge _ c :: .edge _ d :: _ =>
      [edgeLabel g .ifFalse b d, edgeLabel g .ifTrue b c, blockLabel g c, blockLabel g d]
  | _, _ => []

/-- If the step returns, it has put the labels and named the targets, in this order. -/
def Emits (labels targets : List Label) (x : Assembler Unit) : Prop :=
  ∀ code code', x code = .ok () code' → ∃ lines : List AsmLine,
    code'.toList = code.toList ++ lines ∧ lines.filterMap AsmLine.label? = labels ∧
      lines.filterMap AsmLine.target? = targets

theorem emits_pure : Emits [] [] (pure ()) := by
  intro code code' h
  cases h
  exact ⟨[], by simp⟩

theorem emits_emit (lines : List AsmLine) :
    Emits (lines.filterMap AsmLine.label?) (lines.filterMap AsmLine.target?) (emit lines) := by
  intro code code' h
  cases h
  exact ⟨lines, by simp, rfl, rfl⟩

theorem Emits.seq {x y : Assembler Unit} (hx : Emits labels targets x)
    (hy : Emits labels' targets' y) :
    Emits (labels ++ labels') (targets ++ targets') (do x; y) := by
  intro code code' h
  obtain ⟨⟨⟩, code₁, hfirst, hlast⟩ := exists_of_bind_apply_eq_ok h
  obtain ⟨lines, hlines, rfl, rfl⟩ := hx code code₁ hfirst
  obtain ⟨lines', hlines', rfl, rfl⟩ := hy code₁ code' hlast
  exact ⟨lines ++ lines', by rw [hlines', hlines, List.append_assoc], by simp, by simp⟩

/-- A value that is looked up puts no lines. -/
theorem Emits.of_bind {α : Type} {x : Assembler α} {f : α → Assembler Unit}
    (hx : ∀ code a code', x code = .ok a code' → code' = code ∧ Emits labels targets (f a)) :
    Emits labels targets (x >>= f) := by
  intro code code' h
  obtain ⟨a, code₁, hfirst, hlast⟩ := exists_of_bind_apply_eq_ok h
  obtain ⟨rfl, hf⟩ := hx code a code₁ hfirst
  exact hf code₁ code' hlast

theorem item_cases {α : Type} {xs : List α} {k : Nat} {x : α} (h : item xs k code = .ok x code') :
    xs[k]? = some x ∧ code' = code := by
  rw [item] at h
  cases hx : xs[k]? with
  | none =>
      simp only [hx] at h
      cases h
  | some y =>
      simp only [hx] at h
      cases h
      exact ⟨rfl, rfl⟩

theorem subtreeReg_cases {k : Nat} {reg : Int} (h : subtreeReg n t k code = .ok reg code') :
    code' = code := by
  obtain ⟨u, code₁, hitem, hlast⟩ := exists_of_bind_apply_eq_ok h
  cases hlast
  exact (item_cases hitem).2

/-- What is noted behind the operands of a tree is no edge. -/
theorem edgeOperand_cases {k : Nat} {e : EdgeId} (h : edgeOperand n t k code = .ok (e, c) code') :
    t.operands[k]? = some (.edge e c) ∧ code' = code := by
  obtain ⟨o, code₁, hitem, hlast⟩ := exists_of_bind_apply_eq_ok h
  obtain ⟨ho, rfl⟩ := item_cases hitem
  split at hlast
  · cases hlast
    refine ⟨?_, rfl⟩
    rw [Notes.operands, List.getElem?_append] at ho
    split at ho
    · exact ho
    · rw [List.getElem?_map] at ho
      obtain ⟨r, -, hr⟩ := Option.map_eq_some_iff.mp ho
      cases hr
  · cases hlast

theorem labels_edgeLines (own target : Label) (e : EdgeId) :
    (edgeLines n own target e).filterMap AsmLine.label? = [own] ∧
      (edgeLines n own target e).filterMap AsmLine.target? = [target] := by
  have hmoves : ∀ moves : List Move, (moveLines moves).filterMap AsmLine.label? = [] ∧
      (moveLines moves).filterMap AsmLine.target? = [] := by
    intro moves
    rw [moveLines]
    split <;> simp [AsmLine.label?, AsmLine.target?, List.filterMap_cons]
  constructor
  · simp [edgeLines, AsmLine.label?, (hmoves _).1]
  · simp [edgeLines, AsmLine.target?, List.filterMap_cons, Function.comp_def, (hmoves _).2]

theorem emits_jmp (hkind : t.kind = .jmp) :
    Emits (labelsOf g b t) (targetsOf g b t) (assembleJmp g n b t) := by
  refine Emits.of_bind fun code edge code' hedge => ?_
  obtain ⟨hoperand, rfl⟩ := edgeOperand_cases hedge
  obtain ⟨rest, hoperands⟩ : ∃ rest, t.operands = .edge edge.1 edge.2 :: rest := by
    cases hos : t.operands with
    | nil => simp [hos] at hoperand
    | cons o rest => exact ⟨rest, by simpa [hos] using hoperand⟩
  obtain ⟨hlabels, htargets⟩ := labels_edgeLines (n := n) (edgeLabel g .always b edge.2)
    (blockLabel g edge.2) edge.1
  have hemit := emits_emit (edgeLines n (edgeLabel g .always b edge.2) (blockLabel g edge.2) edge.1)
  rw [hlabels, htargets] at hemit
  simpa only [labelsOf, targetsOf, hkind, hoperands] using ⟨trivial, hemit⟩

theorem emits_branch (hkind : t.kind = .branch) :
    Emits (labelsOf g b t) (targetsOf g b t) (assembleBranch g n b t) := by
  refine Emits.of_bind fun code yes code₁ hyes => ?_
  obtain ⟨hfirst, rfl⟩ := edgeOperand_cases hyes
  refine ⟨rfl, Emits.of_bind fun code no code₁ hno => ?_⟩
  obtain ⟨hsecond, rfl⟩ := edgeOperand_cases hno
  refine ⟨rfl, Emits.of_bind fun code reg code₁ hreg => ⟨subtreeReg_cases hreg, ?_⟩⟩
  obtain ⟨rest, hoperands⟩ :
      ∃ rest, t.operands = .edge yes.1 yes.2 :: .edge no.1 no.2 :: rest := by
    match hos : t.operands with
    | [] => simp [hos] at hfirst
    | [_] => simp [hos] at hsecond
    | _ :: _ :: rest => exact ⟨rest, by simpa [hos] using And.intro hfirst hsecond⟩
  simp only [labelsOf, targetsOf, hkind, hoperands]
  have hemit := emits_emit ([.jumpZero reg (edgeLabel g .ifFalse b no.2),
      .jumpNonzero reg (edgeLabel g .ifTrue b yes.2)] ++
    edgeLines n (edgeLabel g .ifTrue b yes.2) (blockLabel g yes.2) yes.1 ++
    edgeLines n (edgeLabel g .ifFalse b no.2) (blockLabel g no.2) no.1)
  simp only [List.filterMap_append, labels_edgeLines] at hemit
  exact hemit

/-- The code of a tree. -/
theorem emits_tree : Emits (labelsOf g b t) (targetsOf g b t) (assembleTree g n b t) := by
  have htraffic : Emits [] [] (emit ((n.tree t).spills.map .spill ++
      (n.tree t).restores.map .restore)) := by
    have hemit := emits_emit ((n.tree t).spills.map .spill ++ (n.tree t).restores.map .restore)
    simpa [AsmLine.label?, AsmLine.target?, Function.comp_def] using hemit
  rw [assembleTree, ← List.nil_append (labelsOf g b t), ← List.nil_append (targetsOf g b t)]
  refine htraffic.seq ?_
  have hplain : t.kind ≠ .jmp → t.kind ≠ .branch → labelsOf g b t = [] ∧ targetsOf g b t = [] := by
    intro hjmp hbranch
    rw [labelsOf, targetsOf]
    cases hkind : t.kind <;> simp_all
  cases hkind : t.kind with
  | jmp => exact emits_jmp hkind
  | branch => exact emits_branch hkind
  | ldLocal | stLocal | discard =>
      obtain ⟨hlabels, htargets⟩ := hplain (by simp [hkind]) (by simp [hkind])
      rw [hlabels, htargets]
      exact emits_pure
  | const =>
      obtain ⟨hlabels, htargets⟩ := hplain (by simp [hkind]) (by simp [hkind])
      rw [hlabels, htargets]
      exact Emits.of_bind fun code o code₁ ho => ⟨(item_cases ho).2, emits_emit _⟩
  | binOp =>
      obtain ⟨hlabels, htargets⟩ := hplain (by simp [hkind]) (by simp [hkind])
      rw [hlabels, htargets]
      refine Emits.of_bind fun code o code₁ ho => ⟨(item_cases ho).2, ?_⟩
      refine Emits.of_bind fun code left code₁ hleft => ⟨subtreeReg_cases hleft, ?_⟩
      exact Emits.of_bind fun code right code₁ hright => ⟨subtreeReg_cases hright, emits_emit _⟩
  | ret =>
      obtain ⟨hlabels, htargets⟩ := hplain (by simp [hkind]) (by simp [hkind])
      rw [hlabels, htargets]
      exact Emits.of_bind fun code reg code₁ hreg => ⟨subtreeReg_cases hreg, emits_emit _⟩

theorem emits_trees (ts : List Tree) :
    Emits (ts.flatMap (labelsOf g b)) (ts.flatMap (targetsOf g b)) (assembleTrees g n b ts) := by
  induction ts with
  | nil => exact emits_pure
  | cons t ts ih =>
      rw [List.flatMap_cons, List.flatMap_cons]
      exact emits_tree.seq ih

/-- The code of blocks. -/
theorem emits_blocks (bs : List BlockId) :
    Emits (bs.flatMap fun b => blockLabel g b :: (g.treesOf b).flatMap (labelsOf g b))
      (bs.flatMap fun b => (g.treesOf b).flatMap (targetsOf g b)) (assembleBlocks g n bs) := by
  induction bs with
  | nil => exact emits_pure
  | cons b bs ih =>
      exact (emits_emit [.label (blockLabel g b)]).seq ((emits_trees (g.treesOf b)).seq ih)

/-! ## Labels in one place -/

variable {pending : List Tree}

/-- The labels of a unit. -/
def unitLabels (g : Graph) (bs : List BlockId) : List Label :=
  bs.flatMap fun b => blockLabel g b :: (g.treesOf b).flatMap (labelsOf g b)

theorem mem_labelsOf (hl : l ∈ labelsOf g b t) : ∃ sort c, l = edgeLabel g sort b c := by
  rw [labelsOf] at hl
  split at hl
  · exact ⟨.always, _, List.mem_singleton.mp hl⟩
  · rcases List.mem_cons.mp hl with rfl | hl
    · exact ⟨.ifTrue, _, rfl⟩
    · exact ⟨.ifFalse, _, List.mem_singleton.mp hl⟩
  · cases hl

/-- A label is put as often as in the only block that can put it. -/
theorem count_unitLabels {bs : List BlockId} (hnodup : bs.Nodup) (hb : b ∈ bs)
    (hothers : ∀ c ∈ bs, c ≠ b → l ∉ blockLabel g c :: (g.treesOf c).flatMap (labelsOf g c)) :
    (unitLabels g bs).count l =
      (blockLabel g b :: (g.treesOf b).flatMap (labelsOf g b)).count l := by
  obtain ⟨xs, ys, rfl⟩ := List.append_of_mem hb
  have hzero : ∀ zs : List BlockId, zs ⊆ xs ++ b :: ys → b ∉ zs →
      (unitLabels g zs).count l = 0 := by
    intro zs hsub hnot
    refine List.count_eq_zero.mpr fun hmem => ?_
    obtain ⟨c, hc, hl⟩ := List.mem_flatMap.mp hmem
    exact hothers c (hsub hc) (fun hcb => hnot (hcb ▸ hc)) hl
  obtain ⟨-, hys, hdisjoint⟩ := List.nodup_append.mp hnodup
  have hsplit : unitLabels g (xs ++ b :: ys) = unitLabels g xs ++
      (blockLabel g b :: (g.treesOf b).flatMap (labelsOf g b)) ++ unitLabels g ys := by
    simp [unitLabels]
  rw [hsplit, List.count_append, List.count_append,
    hzero xs (fun c hc => by simp [hc]) fun hmem => hdisjoint b hmem b (by simp) rfl,
    hzero ys (fun c hc => by simp [hc]) (List.nodup_cons.mp hys).1]
  omega

theorem count_blockLabel (hg : g.Placed) (hb : b < g.blockCount) :
    (unitLabels g (g.blocksFrom 0)).count (blockLabel g b) = 1 := by
  have hchained := hg.grown.threaded.chained
  rw [count_unitLabels hchained.nodup ((hchained.mem_iff b).mpr hb)]
  · rw [List.count_cons_self, List.count_eq_zero.mpr]
    intro hmem
    obtain ⟨t, -, hl⟩ := List.mem_flatMap.mp hmem
    obtain ⟨sort, c, hl⟩ := mem_labelsOf hl
    cases hl
  · intro c hc hcb hmem
    rcases List.mem_cons.mp hmem with hl | hmem
    · injection hl with hoffset
      exact hcb (hg.offset_inj ((hchained.mem_iff c).mp hc) hb hoffset.symm)
    · obtain ⟨t, -, hl⟩ := List.mem_flatMap.mp hmem
      obtain ⟨sort, d, hl⟩ := mem_labelsOf hl
      cases hl

/-- The labels of the edges of a branch are put by the branch alone. -/
theorem count_edgeLabel (hg : g.Placed) (hcapped : g.Capped) (hformed : g.Formed pending)
    (hb : b < g.blockCount) (ht : t ∈ g.treesOf b) (hkind : t.kind = .branch) {sort : EdgeSort}
    (hsort : sort ≠ .always) (hl : (labelsOf g b t).count (edgeLabel g sort b c) = 1) :
    (unitLabels g (g.blocksFrom 0)).count (edgeLabel g sort b c) = 1 := by
  have hchained := hg.grown.threaded.chained
  rw [count_unitLabels hchained.nodup ((hchained.mem_iff b).mpr hb)]
  · obtain ⟨ts, hts, hothers⟩ := hcapped.treesOf_eq_of_branch hformed ht hkind
    have hzero : (ts.flatMap (labelsOf g b)).count (edgeLabel g sort b c) = 0 := by
      refine List.count_eq_zero.mpr fun hmem => ?_
      obtain ⟨u, hu, hmem⟩ := List.mem_flatMap.mp hmem
      rw [labelsOf] at hmem
      split at hmem
      · injection List.mem_singleton.mp hmem with hmem
        exact hsort hmem
      · next hbranch _ => exact hothers u hu hbranch
      · cases hmem
    rw [hts, List.count_cons_of_ne (by simp [blockLabel, edgeLabel]), List.flatMap_append,
      List.count_append, hzero, List.flatMap_singleton, hl]
  · intro d hd hdb hmem
    rcases List.mem_cons.mp hmem with hl | hmem
    · cases hl
    · obtain ⟨u, -, hmem⟩ := List.mem_flatMap.mp hmem
      obtain ⟨sort', e, hmem⟩ := mem_labelsOf hmem
      injection hmem with _ hoffset
      exact hdb (hg.offset_inj ((hchained.mem_iff d).mp hd) hb hoffset.symm)

/-- The edges of a jump or a branch lead to blocks. -/
theorem target_lt (hformed : g.Formed pending) (ht : t ∈ g.treesOf b)
    (hkind : t.kind.isValue = false) {e : EdgeId} (ho : .edge e c ∈ t.operands) :
    c < g.blockCount := by
  obtain ⟨x, hx, htx⟩ := Graph.exists_entry ht
  obtain rfl := hformed.eq_root hx htx hkind
  have hroot := Graph.tree_mem_of_mem_entries hformed.linked hx
  exact (hformed.planted.edge_lt x.2 (List.mem_append_left _ hroot) (e, c)
    (List.mem_filterMap.mpr ⟨_, ho, rfl⟩)).2

/-- What a tree jumps to is put once. -/
theorem count_of_mem_targetsOf (hg : g.Placed) (hcapped : g.Capped) (hformed : g.Formed pending)
    (hb : b < g.blockCount) (ht : t ∈ g.treesOf b) (hl : l ∈ targetsOf g b t) :
    (unitLabels g (g.blocksFrom 0)).count l = 1 := by
  rw [targetsOf] at hl
  split at hl
  · next e c rest hkind hoperands =>
      rw [List.mem_singleton.mp hl]
      exact count_blockLabel hg (target_lt hformed ht (by rw [hkind]; rfl) (e := e)
        (by simp [hoperands]))
  · next e c e' d rest hkind hoperands =>
      have hlabels : labelsOf g b t = [edgeLabel g .ifTrue b c, edgeLabel g .ifFalse b d] := by
        simp only [labelsOf, hkind, hoperands]
      have htarget : ∀ {e c}, Operand.edge e c ∈ t.operands → c < g.blockCount :=
        target_lt hformed ht (by rw [hkind]; rfl)
      simp only [List.mem_cons, List.not_mem_nil, or_false] at hl
      rcases hl with rfl | rfl | rfl | rfl
      · refine count_edgeLabel hg hcapped hformed hb ht hkind (by decide) ?_
        simp [hlabels, edgeLabel]
      · refine count_edgeLabel hg hcapped hformed hb ht hkind (by decide) ?_
        simp [hlabels, edgeLabel]
      · exact count_blockLabel hg (htarget (e := e) (by simp [hoperands]))
      · exact count_blockLabel hg (htarget (e := e') (by simp [hoperands]))
  · cases hl

end Assembler

/-! ## The text of labels -/

theorem notMem_repr {c : Char} (hdigit : c.isDigit = false) (hsign : c ≠ '-') (k : Int) :
    c ∉ k.repr.toList := by
  have hnat : ∀ m : Nat, c ∉ m.repr.toList := by
    intro m hm
    rw [Nat.repr, String.toList_ofList] at hm
    rw [Nat.isDigit_of_mem_toDigits (by decide) (by decide) hm] at hdigit
    cases hdigit
  rw [Int.repr_eq_if]
  split
  · exact hnat _
  · rw [String.toList_append, List.mem_append]
    rintro (h | h)
    · exact hsign (by simpa using h)
    · exact hnat _ h

/-- Different labels have different texts. -/
theorem Label.render_injective : Function.Injective Label.render := by
  intro l l' h
  have hchars := congrArg String.toList h
  cases l with
  | block o =>
      cases l' with
      | block o' =>
          simp only [render, String.toList_append, Int.toString_eq_repr,
            List.append_cancel_left_eq, String.toList_inj] at hchars
          rw [Int.repr_inj.mp hchars]
      | edge sort source target => cases sort <;> simp [render, EdgeSort.word] at hchars
  | edge sort source target =>
      cases l' with
      | block o' => cases sort <;> simp [render, EdgeSort.word] at hchars
      | edge sort' source' target' =>
          have hsort : sort = sort' := by
            cases sort <;> cases sort' <;> first | rfl | simp [render, EdgeSort.word] at hchars
          subst hsort
          -- There is one letter `L` behind the word, and none in a number.
          have hl : ∀ k : Int, 'L' ∉ k.repr.toList := notMem_repr (by decide) (by decide)
          have hword : "_IL_".toList = ['_', 'I'] ++ ['L', '_'] := by decide
          simp only [render, String.toList_append, Int.toString_eq_repr, List.append_assoc,
            List.append_cancel_left_eq, hword] at hchars
          rw [← List.append_assoc, ← List.append_assoc source'.repr.toList] at hchars
          obtain ⟨hsource, -, htarget⟩ := (List.append_cons_inj_of_notMem
            (by simp [hl]) (by simp [hl])).mp hchars
          rw [List.append_cancel_right_eq, String.toList_inj] at hsource
          have htarget := String.toList_inj.mp (List.cons.inj htarget).2
          rw [Int.repr_inj.mp hsource, Int.repr_inj.mp htarget]

/-! ## Programs -/

namespace Program

open Assembler

/-- The labels of the code of a program, and the targets of its jumps. -/
theorem count_label_of_target {p : Program} {m : Imported} {n : Notes} {code : Array AsmLine}
    (h : p.import? = .ok m) (hcode : m.ir.assemble m.graph n #[] = .ok () code) {line : AsmLine}
    (hline : line ∈ code.toList) {l : Label} (hl : line.target? = some l) :
    code.toList.count (.label l) = 1 := by
  obtain ⟨⟨pending, hformed⟩, -, hfirst⟩ := import?_formed h
  obtain ⟨s, hread, -, hgraph, -⟩ := import?_read h
  have hplaced : m.graph.Placed := hgraph ▸ hread.placed
  rw [Ir.assemble, Ir.blocks, hfirst] at hcode
  obtain ⟨lines, hlines, hlabels, htargets⟩ := emits_blocks (m.graph.blocksFrom 0) _ _ hcode
  obtain rfl : code.toList = lines := by simpa using hlines
  have hmem : l ∈ code.toList.filterMap AsmLine.target? := List.mem_filterMap.mpr ⟨line, hline, hl⟩
  rw [htargets] at hmem
  obtain ⟨b, hb, hmem⟩ := List.mem_flatMap.mp hmem
  obtain ⟨t, ht, hmem⟩ := List.mem_flatMap.mp hmem
  have hcount := count_of_mem_targetsOf hplaced (import?_capped h) hformed
    ((hformed.chained.mem_iff b).mp hb) ht hmem
  rw [unitLabels, ← hlabels, List.count_filterMap] at hcount
  rw [← hcount, List.count]
  refine List.countP_congr fun other _ => ?_
  cases other <;> simp [AsmLine.label?]

/-- Jumps name labels that are there once: in the code of a program, before or after any scan,
every label that a jump names is the text of exactly one label line, which puts that label. -/
theorem jump_names_one_label (p : Program) (m : Imported) (n : Notes) (code : Array AsmLine)
    (h : p.import? = .ok m) (hcode : m.ir.assemble m.graph n #[] = .ok () code) :
    ∀ line ∈ code.toList, ∀ l, line.target? = some l →
      code.toList.filter (fun other => other.label?.map Label.render = some l.render) =
        [.label l] := by
  intro line hline l hl
  have htext : ∀ other : AsmLine,
      decide (other.label?.map Label.render = some l.render) = (other == .label l) := by
    intro other
    rw [beq_eq_decide, decide_eq_decide]
    cases other <;> simp [AsmLine.label?, Label.render_injective.eq_iff]
  simp only [htext]
  rw [List.filter_beq, count_label_of_target h hcode hline hl]
  rfl

/-- The code of a loop after a scan with four registers.  It has a branch, which names the labels
of its edges. -/
theorem jump_names_one_label_fibonacci :
    ∃ (m : Imported) (c : Compiled) (code : Array AsmLine),
      (Samples.fibonacci 3).import? = .ok m ∧
      (Samples.fibonacci 3).compile {} = .ok c ∧ c.fault = none ∧
      m.ir.assemble m.graph c.alloc.notes #[] = .ok () code ∧
      (∃ line ∈ code.toList, ∃ source target,
        line.target? = some (.edge .ifFalse source target)) ∧
      ∀ line ∈ code.toList, ∀ l, line.target? = some l →
        code.toList.filter (fun other => other.label?.map Label.render = some l.render) =
          [.label l] := by
  obtain ⟨m, hm, c, hc, hfault, code, hcode, line, hline, hbranch⟩ :
      ∃ m, (Samples.fibonacci 3).import? = .ok m ∧
        ∃ c, (Samples.fibonacci 3).compile {} = .ok c ∧ c.fault = none ∧
          ∃ code, m.ir.assemble m.graph c.alloc.notes #[] = .ok () code ∧
            ∃ line ∈ code.toList, line.target? = some (.edge .ifFalse 6 10) := by
    decide +kernel
  exact ⟨m, c, code, hm, hc, hfault, hcode, ⟨line, hline, 6, 10, hbranch⟩,
    jump_names_one_label _ m _ code hm hcode⟩

end Program
end LinearScan
