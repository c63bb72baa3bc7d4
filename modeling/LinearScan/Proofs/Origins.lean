import LinearScan.Proofs.Splitting

/-!
# What a program that was read consists of

Whatever the program, its blocks start at different offsets, only jumps and branches among its
trees have edges, and the stores that are listed are the statements that were read from the
store instructions, with the operands that stand there.
-/

namespace LinearScan

namespace Graph

variable {g g' : Graph} {b c : BlockId} {offset : Int}

/-! ## Offsets -/

/-- If only the first block starts at zero, the offsets rise along the chain of blocks. -/
theorem Threaded.rising (hg : g.Threaded)
    (hpos : ∀ b : Nat, b < g.blockCount → b ≠ 0 → 0 < (g.block b).offset) :
    g.Rising (g.blocksFrom 0) := by
  have hnodup := hg.chained.nodup
  have hasc := hg.ascending
  rw [← hg.cons_tail, List.nodup_cons] at hnodup
  rw [Ascending, ← hg.cons_tail, List.pairwise_cons] at hasc
  rw [Rising, ← hg.cons_tail, List.pairwise_cons]
  -- The first block is in front of all others, whose offsets are positive.
  have htail : ∀ d ∈ (g.blocksFrom 0).tail, 0 < (g.block d).offset := by
    intro d hd
    refine hpos d ((hg.chained.mem_iff d).mp (List.mem_of_mem_tail hd)) ?_
    rintro rfl
    exact hnodup.1 hd
  refine ⟨fun d hd => hasc.1 d hd (htail d hd), ?_⟩
  exact hasc.2.imp_of_mem fun _ he hde => hde (htail _ he)

/-- The graph was built at offsets from zero on: only the first block starts at zero. -/
structure Placed (g : Graph) : Prop where
  grown : g.Grown
  block_pos : ∀ b : Nat, b < g.blockCount → b ≠ 0 → 0 < (g.block b).offset
  stmt_nonneg : ∀ s, 0 ≤ (g.stmt s).offset

namespace Placed

theorem congr (hg : g.Placed) (hsame : g.SameBlocks g') (hgrown : g'.Grown) : g'.Placed where
  grown := hgrown
  block_pos b hb hne := by
    rw [hsame.blockCount_eq] at hb
    rw [hsame.block_eq]
    exact hg.block_pos b hb hne
  stmt_nonneg s := hsame.stmt_eq s ▸ hg.stmt_nonneg s

theorem fresh : (({} : Graph).newChain).Placed where
  grown := .fresh
  block_pos b hb hne := absurd (Nat.lt_one_iff.mp hb) hne
  stmt_nonneg s := by
    rw [show (({} : Graph).newChain).stmt s = default from Table.get_empty s]
    exact Int.le_refl 0

section

variable (hg : g.Placed)
include hg

theorem append (b : BlockId) (hoffset : 0 ≤ offset) (t : Tree) :
    (g.append b offset t).Placed where
  grown := hg.grown.append b offset t
  block_pos c hc hne := by
    rw [append_blockCount] at hc
    rw [append_block]
    split <;> exact hg.block_pos c hc hne
  stmt_nonneg s := by
    have hs := hg.stmt_nonneg s
    rw [append_stmt]
    grind

/-- Only at a positive offset can a search end without finding a block. -/
theorem offset_pos {place : Landing} (h : g.locate 0 offset = .ok place)
    (hplace : ∀ b, place ≠ .existing b) : 0 < offset := by
  by_contra hneg
  have hzero := hg.grown.threaded.zero_offset
  -- The search does not get beyond the first block.
  have hlanding : ∀ rest, g.landing offset 0 rest = 0 := by
    intro rest
    cases rest with
    | nil => rfl
    | cons c rest =>
        rw [landing, if_neg]
        omega
  have hdrop : ∀ ss : List StmtId, ss.dropWhile (fun s => (g.stmt s).offset < offset) = ss := by
    intro ss
    cases ss with
    | nil => rfl
    | cons s ss =>
        have hs := hg.stmt_nonneg s
        rw [List.dropWhile_cons_of_neg]
        simp only [decide_eq_true_eq]
        omega
  simp only [locate, hlanding, hzero, hdrop] at h
  split at h
  · injection h with h
    exact hplace 0 h.symm
  · next hne =>
      split at h
      · cases h
      · next hfirst =>
          split at h
          · next hstmts =>
              obtain ⟨s, hs⟩ := Option.ne_none_iff_exists'.mp hfirst
              obtain ⟨fuel, hfuel⟩ := Nat.exists_eq_succ_of_ne_zero
                (Nat.ne_of_gt (Nat.zero_lt_of_lt (hg.grown.threaded.linked.first_lt hs)))
              rw [stmtsOf, hs, hfuel, walkStmts] at hstmts
              cases hstmts
          · next s rest hstmts =>
              have hs := hg.stmt_nonneg s
              rw [if_pos (by omega)] at h
              cases h

theorem insertBehind (hoffset : 0 < offset) (hgrown : (g.insertBehind b offset).Grown) :
    (g.insertBehind b offset).Placed where
  grown := hgrown
  block_pos c hc hne := by
    rw [insertBehind_blockCount] at hc
    rw [insertBehind_offset]
    split
    · exact hoffset
    · next hold => exact hg.block_pos c (Nat.lt_of_le_of_ne (Nat.le_of_lt_succ hc) hold) hne
  stmt_nonneg s := by
    rw [insertBehind_stmt]
    exact hg.stmt_nonneg s

theorem split {s : StmtId} (hb : b < g.blockCount) (hoffset : 0 < offset)
    (hgrown : (g.split b s offset).Grown) : (g.split b s offset).Placed where
  grown := hgrown
  block_pos c hc hne := by
    rw [split_blockCount] at hc
    rw [split_offset, insertBehind_offset]
    split
    · exact hoffset
    · next hold => exact hg.block_pos c (Nat.lt_of_le_of_ne (Nat.le_of_lt_succ hc) hold) hne
  stmt_nonneg r := by
    have hr := hg.stmt_nonneg r
    have hjump : 0 ≤ g.splitOffset b := by
      rw [splitOffset]
      split
      · exact hg.stmt_nonneg _
      · by_cases hb0 : b = 0
        · exact Int.le_of_eq (hb0 ▸ hg.grown.threaded.zero_offset.symm)
        · exact Int.le_of_lt (hg.block_pos b hb hb0)
    rw [split_stmt]
    grind

theorem lookup (h : blockAt 0 offset g = .ok b g') : g'.Placed := by
  have hgrown := hg.grown.lookup h
  rcases blockAt_cases h with ⟨-, rfl⟩ | ⟨c, hplace, -, rfl⟩ | ⟨c, s, hplace, -, rfl⟩
  · exact hg
  · exact hg.insertBehind (hg.offset_pos hplace (by simp)) hgrown
  · have hc : c < g.blockCount := (locate_spec hg.grown.threaded.chained hplace).1
    exact hg.split hc (hg.offset_pos hplace (by simp)) hgrown

/-- The offsets rise along the chain of blocks. -/
theorem rising : g.Rising (g.blocksFrom 0) :=
  hg.grown.threaded.rising hg.block_pos

/-- Different blocks start at different offsets. -/
theorem offset_inj (hb : b < g.blockCount) (hc : c < g.blockCount)
    (h : (g.block b).offset = (g.block c).offset) : b = c := by
  have hchained := hg.grown.threaded.chained
  exact hg.rising.eq_of_offset_eq ((hchained.mem_iff b).mpr hb) ((hchained.mem_iff c).mpr hc) h

end

end Placed

/-- A block that was looked up is there, and so are those that were there before. -/
theorem Placed.lookup_lt (hg : g.Placed) (h : blockAt 0 offset g = .ok b g') :
    b < g'.blockCount ∧ g.blockCount ≤ g'.blockCount := by
  rcases blockAt_cases h with ⟨hplace, rfl⟩ | ⟨c, -, rfl, rfl⟩ | ⟨c, s, -, rfl, rfl⟩
  · exact ⟨(locate_spec hg.grown.threaded.chained hplace).1, Nat.le_refl _⟩
  · simp
  · simp

/-! ## Edges -/

/-- The trees of the graph and those that wait belong to blocks of the graph, and only jumps and
branches among them have edges. -/
def Directed (g : Graph) (pending : List Tree) : Prop :=
  ∀ t ∈ g.allTrees pending,
    t.block < g.blockCount ∧ (t.kind = .jmp ∨ t.kind = .branch ∨ t.edges = [])

namespace Directed

variable {pending : List Tree}

theorem of_subset {pending' : List Tree} (hg : g.Directed pending)
    (hsub : ∀ t ∈ g'.statementTrees ++ pending', t ∈ g.statementTrees ++ pending)
    (hcount : g.blockCount ≤ g'.blockCount) : g'.Directed pending' := by
  intro t ht
  obtain ⟨root, hroot, ht⟩ := List.mem_flatMap.mp ht
  have hold := hg t (List.mem_flatMap.mpr ⟨root, hsub root hroot, ht⟩)
  exact ⟨Nat.lt_of_lt_of_le hold.1 hcount, hold.2⟩

theorem newTree {stack : List Tree} (hg : g.Directed stack) (n : Nat) {kind : TreeKind}
    {operands : List Operand} (hb : b < g.blockCount)
    (hedges : kind = .jmp ∨ kind = .branch ∨ operands.filterMap Operand.edge? = []) :
    (g.newTree kind operands b (stack.take n).reverse).2.Directed
      ((g.newTree kind operands b (stack.take n).reverse).1 :: stack.drop n) := by
  intro t ht
  rw [(Planted.allTrees_newTree_perm g kind operands b stack n).mem_iff, List.mem_cons] at ht
  rcases ht with rfl | ht
  · exact ⟨hb, hedges⟩
  · exact hg t ht

theorem split (hg : g.Directed pending) (hb : b < g.blockCount) (s : StmtId) (offset : Int) :
    (g.split b s offset).Directed pending := by
  have hcount : g.blockCount ≤ (g.split b s offset).blockCount := by simp
  intro t ht
  obtain ⟨root, hroot, ht⟩ := List.mem_flatMap.mp ht
  rw [statementTrees_split, List.append_assoc, List.mem_append, List.mem_append,
    List.mem_singleton] at hroot
  have hold : ∀ root ∈ g.statementTrees ++ pending, t ∈ root.postorder →
      t.block < (g.split b s offset).blockCount ∧
        (t.kind = .jmp ∨ t.kind = .branch ∨ t.edges = []) := by
    intro root hroot ht
    have hold := hg t (List.mem_flatMap.mpr ⟨root, hroot, ht⟩)
    exact ⟨Nat.lt_of_lt_of_le hold.1 hcount, hold.2⟩
  rcases hroot with hroot | rfl | hroot
  · exact hold root (List.mem_append_left _ hroot) ht
  · obtain rfl : t = g.splitJump b := by simpa [splitJump, Tree.postorder, Tree.postorders] using ht
    exact ⟨Nat.lt_of_lt_of_le hb hcount, Or.inl rfl⟩
  · exact hold root (List.mem_append_right _ hroot) ht

theorem lookup (hg : g.Directed pending) (hplaced : g.Placed)
    (h : blockAt 0 offset g = .ok b g') : g'.Directed pending := by
  rcases blockAt_cases h with ⟨-, rfl⟩ | ⟨c, -, -, rfl⟩ | ⟨c, s, hplace, -, rfl⟩
  · exact hg
  · refine hg.of_subset (fun t ht => ?_) (hplaced.lookup_lt h).2
    rwa [statementTrees, insertBehind_stmtCount, funext (g.insertBehind_stmt c offset)] at ht
  · exact hg.split (locate_spec hplaced.grown.threaded.chained hplace).1 s offset

end Directed

/-! ## Stores -/

/-- The store `x.2` is a statement that was read from the instruction at offset `x.1`. -/
def StoreOf (g : Graph) (code : List Instr) (x : Nat × Tree) : Prop :=
  x.2 ∈ g.statementTrees ∧ x.2.kind = .stLocal ∧
    ∃ instr, code[x.1]? = some instr ∧ instr.opcode = .stLocal ∧
      x.2.operands = instr.operands.map .literal

theorem StoreOf.mono {code : List Instr} {x : Nat × Tree} (h : g.StoreOf code x)
    (hsub : g.statementTrees ⊆ g'.statementTrees) : g'.StoreOf code x :=
  ⟨hsub h.1, h.2⟩

theorem statementTrees_lookup {first : BlockId} (h : blockAt first offset g = .ok b g') :
    g.statementTrees ⊆ g'.statementTrees := by
  rcases blockAt_cases h with ⟨-, rfl⟩ | ⟨c, -, -, rfl⟩ | ⟨c, s, -, -, rfl⟩
  · exact List.Subset.refl _
  · rw [statementTrees, statementTrees, insertBehind_stmtCount,
      funext (g.insertBehind_stmt c offset)]
    exact List.Subset.refl _
  · rw [statementTrees_split]
    exact List.subset_append_left _ _

end Graph

/-! ## Reading -/

namespace Importer

/-- What the reader of `code` has built so far. -/
structure Read (code : List Instr) (s : Importer) : Prop where
  placed : s.graph.Placed
  directed : s.graph.Directed s.stack
  block_lt : s.block < s.graph.blockCount
  stores : ∀ x ∈ s.stores, s.graph.StoreOf code x
  first_eq : s.first = 0

namespace Read

variable {code : List Instr} {s s' : Importer} {i : Nat}

theorem fold (hs : s.Read code) {n : Nat} {kind : TreeKind} {operands : List Operand}
    (h : s.fold n kind operands = .ok s')
    (hedges : kind = .jmp ∨ kind = .branch ∨ operands.filterMap Operand.edge? = []) :
    s'.Read code := by
  obtain ⟨-, rfl⟩ := fold_cases h
  exact {
    placed := hs.placed.congr (s.graph.sameBlocks_newTree kind operands s.block _)
      (hs.placed.grown.tree kind operands s.block _)
    directed := hs.directed.newTree n hs.block_lt hedges
    block_lt := hs.block_lt
    stores := fun x hx => (hs.stores x hx).mono (List.Subset.refl _)
    first_eq := hs.first_eq }

theorem finish (hs : s.Read code) (i : Nat) : (s.finish i).Read code := by
  obtain ⟨graph, first, block, stack, start, stores⟩ := s
  cases stack with
  | nil => exact ⟨hs.placed, hs.directed, hs.block_lt, hs.stores, hs.first_eq⟩
  | cons t rest =>
      have hcount : (graph.append block start t).blockCount = graph.blockCount := by simp
      refine ⟨hs.placed.append block (Int.natCast_nonneg start) t, ?_,
        hcount.symm ▸ hs.block_lt, ?_, hs.first_eq⟩
      · refine hs.directed.of_subset (fun u hu => ?_) (Nat.le_of_eq hcount.symm)
        rwa [Importer.finish, Graph.statementTrees_append, List.append_assoc] at hu
      · intro x hx
        refine (hs.stores x hx).mono ?_
        rw [Importer.finish, Graph.statementTrees_append]
        exact List.subset_append_left _ _

section

variable (hs : s.Read code)
include hs

/-- A store becomes a statement and is listed. -/
theorem finish_noteStore {t : Tree} {rest : List Tree} (hstack : s.stack = t :: rest)
    (hkind : t.kind = .stLocal) {instr : Instr} (hinstr : code[i]? = some instr)
    (hop : instr.opcode = .stLocal) (hoperands : t.operands = instr.operands.map .literal) :
    ((s.noteStore i).finish i).Read code := by
  have hfinish := hs.finish i
  obtain ⟨graph, first, block, stack, start, stores⟩ := s
  subst hstack
  refine ⟨hfinish.placed, hfinish.directed, hfinish.block_lt, ?_, hfinish.first_eq⟩
  intro x hx
  rcases List.mem_append.mp hx with hx | hx
  · exact hfinish.stores x hx
  · obtain rfl : x = (i, t) := by simpa using hx
    refine ⟨?_, hkind, instr, hinstr, hop, hoperands⟩
    rw [Importer.noteStore, Importer.finish, Graph.statementTrees_append]
    exact List.mem_append_right _ (List.mem_singleton_self t)

theorem target {offset : Int} {b : BlockId} (h : s.target offset = .ok (b, s')) :
    s'.Read code ∧ b < s'.graph.blockCount := by
  obtain ⟨g, hblock, rfl⟩ := target_cases h
  rw [hs.first_eq] at hblock
  obtain ⟨hb, hcount⟩ := hs.placed.lookup_lt hblock
  refine ⟨?_, hb⟩
  exact {
    placed := hs.placed.lookup hblock
    directed := hs.directed.lookup hs.placed hblock
    block_lt := Nat.lt_of_lt_of_le hs.block_lt hcount
    stores := fun x hx => (hs.stores x hx).mono (Graph.statementTrees_lookup hblock)
    first_eq := hs.first_eq }

theorem edgeTo {operands : List Literal} {k : Nat} {b : BlockId}
    (h : s.edgeTo operands k = .ok (b, s')) : s'.Read code := by
  obtain ⟨offset, -, htarget⟩ := edgeTo_cases h
  exact (hs.target htarget).1

theorem newEdge (b : BlockId) : (s.newEdge b).2.Read code where
  placed := hs.placed.congr ⟨fun _ => rfl, rfl, fun _ => rfl, rfl⟩ (hs.placed.grown.edge b)
  directed := hs.directed
  block_lt := hs.block_lt
  stores := hs.stores
  first_eq := hs.first_eq

theorem leave {isLast : Bool} (h : s.leave i isLast = .ok s') : s'.Read code := by
  rcases leave_cases h with ⟨-, rfl⟩ | ⟨-, b, s₁, htarget, rfl⟩
  · exact hs
  · obtain ⟨hs₁, hb⟩ := hs.target htarget
    exact ⟨hs₁.placed, hs₁.directed, hb, hs₁.stores, hs₁.first_eq⟩

theorem step {isLast : Bool} {instr : Instr} (hinstr : code[i]? = some instr)
    (h : s.step i isLast instr = .ok s') : s'.Read code := by
  have hliterals := Operand.edges_literals instr.operands
  cases step_cases h with
  | value hmade hfold => exact hs.fold hfold (Or.inr (Or.inr hmade.spec.2.2))
  | stLocal hop hfold _ =>
      have hs₁ := hs.fold hfold (Or.inr (Or.inr hliterals))
      obtain ⟨-, rfl⟩ := fold_cases hfold
      exact hs₁.finish_noteStore rfl rfl hinstr hop rfl
  | pop hop hfold _ => exact (hs.fold hfold (Or.inr (Or.inr rfl))).finish i
  | jmp hop hedge hfold _ hleave =>
      exact ((((hs.edgeTo hedge).newEdge _).fold hfold (Or.inl rfl)).finish i).leave hleave
  | @branch yes no _ _ _ _ _ hop hyes hno hfold _ hleave =>
      have hs₂ := (((hs.edgeTo hyes).edgeTo hno).newEdge yes).newEdge no
      exact ((hs₂.fold hfold (Or.inr (Or.inl rfl))).finish i).leave hleave
  | ret hop hfold hleave => exact ((hs.fold hfold (Or.inr (Or.inr rfl))).finish i).leave hleave
  | other hop => exact hs

theorem run {instrs : List Instr} (hcode : code.drop i = instrs) (h : s.run i instrs = .ok s') :
    s'.Read code := by
  induction instrs generalizing i s with
  | nil =>
      injection h with h
      exact h ▸ hs
  | cons instr rest ih =>
      obtain ⟨s₁, hstep, h⟩ := exists_of_bind_eq_ok h
      obtain ⟨hinstr, hdrop⟩ := drop_cases hcode
      exact ih (hs.step hinstr hstep) hdrop h

end

theorem start (code : List Instr) : Importer.fresh.Read code := by
  refine ⟨Graph.Placed.fresh, ?_, Nat.zero_lt_one, ?_, rfl⟩
  · intro t ht
    cases ht
  · intro x hx
    cases hx

end Read
end Importer

theorem Program.import?_stores {p : Program} {m : Imported} (h : p.import? = .ok m) {s : Importer}
    (hrun : Importer.run 0 p.instrs .fresh = .ok s) : m.stores = s.stores := by
  obtain ⟨s', hrun', h⟩ := exists_of_bind_eq_ok h
  obtain rfl : s = s' := Except.ok.inj (hrun.symm.trans hrun')
  dsimp only at h
  split at h
  · cases h
  · injection h with h
    rw [← h]
    rfl

/-- What a program that was read consists of. -/
theorem Program.import?_read {p : Program} {m : Imported} (h : p.import? = .ok m) :
    ∃ s : Importer, s.Read p.instrs ∧ s.WellFormed ∧ m.graph = s.graph ∧ m.stores = s.stores := by
  obtain ⟨s, -, hrun, hs, hgraph, -⟩ := Program.import?_cases h
  exact ⟨s, (Importer.Read.start p.instrs).run rfl hrun, hs, hgraph, import?_stores h hrun⟩

end LinearScan
