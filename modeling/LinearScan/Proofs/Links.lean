import LinearScan.Graph.Insert
import Mathlib.Data.List.Nodup
import Mathlib.Data.List.Perm.Subperm

/-!
# Chains of blocks and statements

The links between statements always lead to statements that were made later, so
that a chain of statements ends.  The chain of blocks holds every block once.
Both facts survive all the ways in which a graph grows: a new tree, a statement
at the end of a block, an empty block behind another one, and a cut.
-/

namespace LinearScan

/-- `is` are the numbers that are met from `start` on along `next`, up to the
end of the chain. -/
def Follows (next : Nat → Option Nat) : Option Nat → List Nat → Prop
  | start, [] => start = none
  | start, i :: is => start = some i ∧ Follows next (next i) is

namespace Follows

variable {next next' : Nat → Option Nat} {start : Option Nat} {is js : List Nat}

theorem unique
    (his : Follows next start is) (hjs : Follows next start js) :
    is = js := by
  induction is generalizing start js with
  | nil =>
      cases js with
      | nil => rfl
      | cons j js => exact absurd (his.symm.trans hjs.1) (by simp)
  | cons i is ih =>
      cases js with
      | nil => exact absurd (hjs.symm.trans his.1) (by simp)
      | cons j js =>
          have hij : i = j := by
            have h := his.1.symm.trans hjs.1
            simpa using h
          subst hij
          rw [ih his.2 hjs.2]

/-- The rest of a chain behind one of its members. -/
theorem of_append {i : Nat} {before after : List Nat}
    (h : Follows next start (before ++ i :: after)) : Follows next (next i) after := by
  induction before generalizing start with
  | nil => exact h.2
  | cons j before ih => exact ih h.2

/-- A chain only depends on the links of its members. -/
theorem congr
    (h : Follows next start is) (heq : ∀ i ∈ is, next' i = next i) :
    Follows next' start is := by
  induction is generalizing start with
  | nil => exact h
  | cons i is ih =>
      refine ⟨h.1, ?_⟩
      rw [heq i (by simp)]
      exact ih h.2 fun j hj => heq j (by simp [hj])

/-- A chain with `k` put in behind its member `i`. -/
theorem insert
    {i k : Nat} {before after : List Nat}
    (h : Follows next start (before ++ i :: after))
    (hi : next' i = some k) (hk : next' k = next i)
    (heq : ∀ j ∈ before ++ after, next' j = next j) :
    Follows next' start (before ++ i :: k :: after) := by
  induction before generalizing start with
  | nil =>
      refine ⟨h.1, hi, ?_⟩
      rw [hk]
      exact h.2.congr fun j hj => heq j (by simp [hj])
  | cons j before ih =>
      refine ⟨h.1, ?_⟩
      rw [heq j (by simp)]
      exact ih h.2 fun m hm => heq m (by
        simp only [List.cons_append, List.mem_cons]
        exact Or.inr hm)

end Follows

namespace Graph

theorem walkBlocks_of_follows
    {g : Graph} {start : Option BlockId} {bs : List BlockId}
    (h : Follows (fun b => (g.block b).next) start bs)
    {fuel : Nat} (hfuel : bs.length ≤ fuel) :
    g.walkBlocks fuel start = bs := by
  induction bs generalizing start fuel with
  | nil =>
      obtain rfl : start = none := h
      exact g.walkBlocks_none fuel
  | cons b bs ih =>
      obtain ⟨rfl, hrest⟩ := h
      cases fuel with
      | zero => exact absurd hfuel (by simp)
      | succ fuel =>
          rw [walkBlocks, ih hrest (by simpa using hfuel)]

theorem walkStmts_of_follows
    {g : Graph} {start : Option StmtId} {ss : List StmtId}
    (h : Follows (fun s => (g.stmt s).next) start ss)
    {fuel : Nat} (hfuel : ss.length ≤ fuel) :
    g.walkStmts fuel start = ss := by
  induction ss generalizing start fuel with
  | nil =>
      obtain rfl : start = none := h
      exact g.walkStmts_none fuel
  | cons s ss ih =>
      obtain ⟨rfl, hrest⟩ := h
      cases fuel with
      | zero => exact absurd hfuel (by simp)
      | succ fuel =>
          rw [walkStmts, ih hrest (by simpa using hfuel)]

/-! ## Reading back the larger changes -/

section InsertBehind

variable (g : Graph) (b c : BlockId) (offset : Int)

theorem block_modifyBlock? (o : Option BlockId) (f : Block → Block) :
    (g.modifyBlock? o f).block c = if o = some c then f (g.block c) else g.block c := by
  cases o with
  | none => simp [modifyBlock?]
  | some d => simp [modifyBlock?, block_modifyBlock]

theorem stmt_modifyStmt? (o : Option StmtId) (f : Stmt → Stmt) (s : StmtId) :
    (g.modifyStmt? o f).stmt s = if o = some s then f (g.stmt s) else g.stmt s := by
  cases o with
  | none => simp [modifyStmt?]
  | some d => simp [modifyStmt?, stmt_modifyStmt]

@[simp]
theorem stmt_modifyBlock? (o : Option BlockId) (f : Block → Block) (s : StmtId) :
    (g.modifyBlock? o f).stmt s = g.stmt s := by
  cases o <;> rfl

@[simp]
theorem block_modifyStmt? (o : Option StmtId) (f : Stmt → Stmt) :
    (g.modifyStmt? o f).block c = g.block c := by
  cases o <;> rfl

theorem insertBehind_next :
    ((g.insertBehind b offset).block c).next =
      if c = b then some g.blockCount
      else if c = g.blockCount then (g.block b).next
      else (g.block c).next := by
  simp only [insertBehind, block_modifyBlock?, block_modifyBlock, block_addBlock]
  grind

theorem insertBehind_first :
    ((g.insertBehind b offset).block c).first =
      if c = g.blockCount then none else (g.block c).first := by
  simp only [insertBehind, block_modifyBlock?, block_modifyBlock, block_addBlock]
  grind

theorem insertBehind_last :
    ((g.insertBehind b offset).block c).last =
      if c = g.blockCount then none else (g.block c).last := by
  simp only [insertBehind, block_modifyBlock?, block_modifyBlock, block_addBlock]
  grind

theorem insertBehind_offset :
    ((g.insertBehind b offset).block c).offset =
      if c = g.blockCount then offset else (g.block c).offset := by
  simp only [insertBehind, block_modifyBlock?, block_modifyBlock, block_addBlock]
  grind

@[simp]
theorem insertBehind_stmt (s : StmtId) :
    (g.insertBehind b offset).stmt s = g.stmt s := by
  simp [insertBehind]

end InsertBehind

section Counters

variable (g : Graph) (b target : BlockId) (offset : Int)

@[simp]
theorem newEdge_block (c : BlockId) : (g.newEdge target).2.block c = g.block c :=
  rfl

@[simp]
theorem newEdge_stmt (s : StmtId) : (g.newEdge target).2.stmt s = g.stmt s :=
  rfl

@[simp]
theorem newTree_block
    (kind : TreeKind) (operands : List Operand) (ts : List Tree) (c : BlockId) :
    (g.newTree kind operands b ts).2.block c = g.block c :=
  rfl

@[simp]
theorem newTree_stmt
    (kind : TreeKind) (operands : List Operand) (ts : List Tree) (s : StmtId) :
    (g.newTree kind operands b ts).2.stmt s = g.stmt s :=
  rfl

section NewTree

variable (kind : TreeKind) (operands : List Operand) (ts : List Tree)

@[simp]
theorem newTree_stmtCount : (g.newTree kind operands b ts).2.stmtCount = g.stmtCount := by
  simp only [newTree]

@[simp]
theorem newTree_blockCount : (g.newTree kind operands b ts).2.blockCount = g.blockCount := by
  simp only [newTree]

@[simp]
theorem newTree_edgeCount : (g.newTree kind operands b ts).2.edgeCount = g.edgeCount := by
  simp only [newTree]

@[simp]
theorem newTree_treeCount : (g.newTree kind operands b ts).2.treeCount = g.treeCount + 1 := by
  simp only [newTree]

@[simp]
theorem newTree_twins : (g.newTree kind operands b ts).2.twins = g.twins := by
  simp only [newTree]

theorem newTree_fst :
    (g.newTree kind operands b ts).1 = .node g.treeCount kind operands b ts := by
  simp only [newTree]

theorem newTree_parents :
    (g.newTree kind operands b ts).2.parents =
      ts.foldl (fun ps u => ps.set u.id (some (.node g.treeCount kind operands b ts)))
        g.parents := by
  simp only [newTree]

end NewTree

@[simp]
theorem newEdge_stmtCount : (g.newEdge target).2.stmtCount = g.stmtCount := by
  simp only [newEdge]

@[simp]
theorem newEdge_blockCount : (g.newEdge target).2.blockCount = g.blockCount := by
  simp only [newEdge]

@[simp]
theorem newEdge_edgeCount : (g.newEdge target).2.edgeCount = g.edgeCount + 1 := by
  simp only [newEdge]

@[simp]
theorem newEdge_treeCount : (g.newEdge target).2.treeCount = g.treeCount := by
  simp only [newEdge]

@[simp]
theorem newEdge_parents : (g.newEdge target).2.parents = g.parents := by
  simp only [newEdge]

@[simp]
theorem insertBehind_blockCount :
    (g.insertBehind b offset).blockCount = g.blockCount + 1 := by
  simp only [insertBehind, modifyBlock?]
  split <;> simp only [modifyBlock, addBlock]

@[simp]
theorem insertBehind_stmtCount :
    (g.insertBehind b offset).stmtCount = g.stmtCount := by
  simp only [insertBehind, modifyBlock?]
  split <;> simp only [modifyBlock, addBlock]

@[simp]
theorem insertBehind_treeCount :
    (g.insertBehind b offset).treeCount = g.treeCount := by
  simp only [insertBehind, modifyBlock?]
  split <;> simp only [modifyBlock, addBlock]

@[simp]
theorem insertBehind_edgeCount :
    (g.insertBehind b offset).edgeCount = g.edgeCount := by
  simp only [insertBehind, modifyBlock?]
  split <;> simp only [modifyBlock, addBlock]

@[simp]
theorem insertBehind_twins :
    (g.insertBehind b offset).twins = g.twins := by
  simp only [insertBehind, modifyBlock?]
  split <;> simp only [modifyBlock, addBlock]

@[simp]
theorem insertBehind_parents :
    (g.insertBehind b offset).parents = g.parents := by
  simp only [insertBehind, modifyBlock?]
  split <;> simp only [modifyBlock, addBlock]

end Counters

section Split

variable (g : Graph) (b c : BlockId) (s r : StmtId) (offset : Int)

/-- The jump with which the front part of a block ends after a cut. -/
def splitJump : Tree :=
  .node g.treeCount .jmp [.edge g.edgeCount g.blockCount] b []

/-- The statement behind which the jump is put when `b` is cut. -/
def splitBefore : Option StmtId :=
  (g.block b).last.bind fun l => (g.stmt l).prev

/-- The offset of the jump that is put in when `b` is cut. -/
def splitOffset : Int :=
  match g.splitBefore b with
  | some p => (g.stmt p).offset
  | none => (g.block b).offset

/-- A cut, change by change. -/
theorem split_eq :
    g.split b s offset =
      (((((((g.insertBehind b offset).modifyBlock g.blockCount fun rear =>
          { rear with first := some s, last := (g.block b).last }).newEdge
        g.blockCount).2.newTree .jmp [.edge g.edgeCount g.blockCount] b []).2.addStmt
          { offset := g.splitOffset b, prev := g.splitBefore b, tree := g.splitJump b }).modifyStmt?
        (g.splitBefore b) fun st => { st with next := some g.stmtCount }).modifyBlock b fun front =>
          { front with
            first := if front.last = front.first then some g.stmtCount else front.first
            last := some g.stmtCount }).modifyStmt s fun st => { st with prev := none } := by
  rw [splitJump, ← g.insertBehind_edgeCount b offset, ← g.insertBehind_treeCount b offset]
  rfl

theorem split_next :
    ((g.split b s offset).block c).next = ((g.insertBehind b offset).block c).next := by
  simp only [split_eq, block_modifyStmt, block_modifyBlock, block_modifyStmt?, block_addStmt,
    newTree_block, newEdge_block]
  grind

theorem split_offset :
    ((g.split b s offset).block c).offset = ((g.insertBehind b offset).block c).offset := by
  simp only [split_eq, block_modifyStmt, block_modifyBlock, block_modifyStmt?, block_addStmt,
    newTree_block, newEdge_block]
  grind

theorem split_first (hb : b ≠ g.blockCount) :
    ((g.split b s offset).block c).first =
      if c = b then
        if (g.block b).last = (g.block b).first then some g.stmtCount else (g.block b).first
      else if c = g.blockCount then some s
      else (g.block c).first := by
  have hfirst := g.insertBehind_first b c offset
  have hlast := g.insertBehind_last b c offset
  simp only [split_eq, block_modifyStmt, block_modifyBlock, block_modifyStmt?, block_addStmt,
    newTree_block, newEdge_block]
  grind

theorem split_last :
    ((g.split b s offset).block c).last =
      if c = b then some g.stmtCount
      else if c = g.blockCount then (g.block b).last
      else (g.block c).last := by
  have hlast := g.insertBehind_last b c offset
  simp only [split_eq, block_modifyStmt, block_modifyBlock, block_modifyStmt?, block_addStmt,
    newTree_block, newEdge_block]
  grind

/-- The statements after a cut: the jump is new, the statement before it leads to
it, and the statement at the cut has lost its link to what was before it. -/
theorem split_stmt :
    (g.split b s offset).stmt r =
      let old : Stmt :=
        if r = g.stmtCount then
          { offset := g.splitOffset b, prev := g.splitBefore b, tree := g.splitJump b }
        else g.stmt r
      let linked : Stmt :=
        if g.splitBefore b = some r then { old with next := some g.stmtCount } else old
      if r = s then { linked with prev := none } else linked := by
  simp only [split_eq, stmt_modifyStmt, stmt_modifyBlock, stmt_modifyStmt?, stmt_addStmt,
    newTree_stmt, newEdge_stmt, insertBehind_stmt]
  have hcount :
      ((((g.insertBehind b offset).modifyBlock g.blockCount fun rear =>
          { rear with first := some s, last := (g.block b).last }).newEdge
        g.blockCount).2.newTree .jmp [.edge g.edgeCount g.blockCount] b []).2.stmtCount =
        g.stmtCount := by
    simp only [newTree, newEdge, modifyBlock, insertBehind_stmtCount]
  rw [hcount]
  grind

@[simp]
theorem split_blockCount : (g.split b s offset).blockCount = g.blockCount + 1 := by
  simp only [split_eq, modifyStmt?]
  split <;>
    simp only [modifyStmt, modifyBlock, addStmt, newTree, newEdge, insertBehind_blockCount]

@[simp]
theorem split_stmtCount : (g.split b s offset).stmtCount = g.stmtCount + 1 := by
  simp only [split_eq, modifyStmt?]
  split <;>
    simp only [modifyStmt, modifyBlock, addStmt, newTree, newEdge, insertBehind_stmtCount]

@[simp]
theorem split_treeCount : (g.split b s offset).treeCount = g.treeCount + 1 := by
  simp only [split_eq, modifyStmt?]
  split <;>
    simp only [modifyStmt, modifyBlock, addStmt, newTree, newEdge, insertBehind_treeCount]

@[simp]
theorem split_edgeCount : (g.split b s offset).edgeCount = g.edgeCount + 1 := by
  simp only [split_eq, modifyStmt?]
  split <;>
    simp only [modifyStmt, modifyBlock, addStmt, newTree, newEdge, insertBehind_edgeCount]

@[simp]
theorem split_twins : (g.split b s offset).twins = g.twins := by
  simp only [split_eq, modifyStmt?]
  split <;>
    simp only [modifyStmt, modifyBlock, addStmt, newTree, newEdge, insertBehind_twins]

@[simp]
theorem split_parents : (g.split b s offset).parents = g.parents := by
  simp only [split_eq, modifyStmt?]
  split <;>
    simp only [modifyStmt, modifyBlock, addStmt, newTree, newEdge, insertBehind_parents,
      List.foldl_nil]

end Split
section Append

variable (g : Graph) (b c : BlockId) (offset : Int) (t : Tree) (r : StmtId)

theorem append_block :
    (g.append b offset t).block c =
      if c = b then
        { g.block c with
          first := if (g.block b).last = none then some g.stmtCount else (g.block b).first
          last := some g.stmtCount }
      else g.block c := by
  cases hlast : (g.block b).last with
  | none =>
      simp only [append, hlast, block_modifyBlock, block_addStmt]
      grind
  | some l =>
      simp only [append, hlast, block_modifyBlock, block_modifyStmt, block_addStmt]
      grind

theorem append_stmt :
    (g.append b offset t).stmt r =
      let old : Stmt :=
        if r = g.stmtCount then { offset, prev := (g.block b).last, tree := t } else g.stmt r
      if (g.block b).last = some r then { old with next := some g.stmtCount } else old := by
  cases hlast : (g.block b).last with
  | none =>
      simp only [append, hlast, stmt_modifyBlock, stmt_addStmt]
      grind
  | some l =>
      simp only [append, hlast, stmt_modifyBlock, stmt_modifyStmt, stmt_addStmt]
      grind

@[simp]
theorem append_stmtCount : (g.append b offset t).stmtCount = g.stmtCount + 1 := by
  simp only [append]
  split <;> simp only [modifyBlock, modifyStmt, addStmt]

@[simp]
theorem append_blockCount : (g.append b offset t).blockCount = g.blockCount := by
  simp only [append]
  split <;> simp only [modifyBlock, modifyStmt, addStmt]

@[simp]
theorem append_treeCount : (g.append b offset t).treeCount = g.treeCount := by
  simp only [append]
  split <;> simp only [modifyBlock, modifyStmt, addStmt]

@[simp]
theorem append_edgeCount : (g.append b offset t).edgeCount = g.edgeCount := by
  simp only [append]
  split <;> simp only [modifyBlock, modifyStmt, addStmt]

@[simp]
theorem append_twins : (g.append b offset t).twins = g.twins := by
  simp only [append]
  split <;> simp only [modifyBlock, modifyStmt, addStmt]

@[simp]
theorem append_parents : (g.append b offset t).parents = g.parents := by
  simp only [append]
  split <;> simp only [modifyBlock, modifyStmt, addStmt]

end Append

/-! ## Statements -/

/-- The links between statements lead forward, and no two blocks end with the
same statement. -/
structure Linked (g : Graph) : Prop where
  /-- A statement leads to one that was made later. -/
  next_gt : ∀ {s r : Nat}, (g.stmt s).next = some r → s < r ∧ r < g.stmtCount
  prev_lt : ∀ {s r : Nat}, (g.stmt s).prev = some r → r < g.stmtCount
  first_lt : ∀ {b s : Nat}, (g.block b).first = some s → s < g.stmtCount
  last_lt : ∀ {b s : Nat}, (g.block b).last = some s → s < g.stmtCount
  last_inj : ∀ {b c s : Nat},
    (g.block b).last = some s → (g.block c).last = some s → b = c

namespace Linked

variable {g : Graph}

/-- From any statement on, the chain ends, and its numbers rise. -/
theorem exists_follows (hg : g.Linked) {s : Nat} (hs : s < g.stmtCount) :
    ∃ ss, Follows (fun s => (g.stmt s).next) (some s) ss ∧
      ss.Pairwise (· < ·) ∧ ∀ r ∈ ss, s ≤ r ∧ r < g.stmtCount := by
  induction hn : g.stmtCount - s using Nat.strongRecOn generalizing s with
  | ind n ih =>
      subst hn
      cases hnext : (g.stmt s).next with
      | none =>
          refine ⟨[s], ⟨rfl, hnext⟩, by simp, ?_⟩
          intro r hr
          obtain rfl : r = s := by simpa using hr
          exact ⟨Nat.le_refl _, hs⟩
      | some r =>
          obtain ⟨hsr, hr⟩ := hg.next_gt hnext
          obtain ⟨ss, hss, hsorted, hbounds⟩ :=
            ih (g.stmtCount - r) (by omega) hr rfl
          refine ⟨s :: ss, ⟨rfl, ?_⟩, ?_, ?_⟩
          · simpa only [hnext] using hss
          · refine List.pairwise_cons.mpr ⟨?_, hsorted⟩
            intro q hq
            exact Nat.lt_of_lt_of_le hsr (hbounds q hq).1
          · intro q hq
            rcases List.mem_cons.mp hq with rfl | hq
            · exact ⟨Nat.le_refl _, hs⟩
            · exact ⟨Nat.le_trans (Nat.le_of_lt hsr) (hbounds q hq).1, (hbounds q hq).2⟩

section

variable (hg : g.Linked)
include hg

/-- The statements of a block are its whole chain, and their numbers rise. -/
theorem stmtsOf_spec (b : BlockId) :
    Follows (fun s => (g.stmt s).next) (g.block b).first (g.stmtsOf b) ∧
      (g.stmtsOf b).Pairwise (· < ·) ∧ ∀ r ∈ g.stmtsOf b, r < g.stmtCount := by
  cases hfirst : (g.block b).first with
  | none =>
      have hnil : g.stmtsOf b = [] := by
        rw [stmtsOf, hfirst, walkStmts_none]
      rw [hnil]
      exact ⟨rfl, List.Pairwise.nil, by simp⟩
  | some s =>
      obtain ⟨ss, hss, hsorted, hbounds⟩ := hg.exists_follows (hg.first_lt hfirst)
      have hnodup : ss.Nodup := hsorted.imp fun h => Nat.ne_of_lt h
      have hlength : ss.length ≤ g.stmtCount := by
        have hsub : ss ⊆ List.range g.stmtCount := by
          intro r hr
          exact List.mem_range.mpr (hbounds r hr).2
        simpa using (List.subperm_of_subset hnodup hsub).length_le
      have heq : g.stmtsOf b = ss := by
        rw [stmtsOf, hfirst]
        exact walkStmts_of_follows hss hlength
      rw [heq]
      exact ⟨hss, hsorted, fun r hr => (hbounds r hr).2⟩

theorem lt_of_mem_stmtsOf {b : BlockId} {s : StmtId} (hs : s ∈ g.stmtsOf b) : s < g.stmtCount :=
  (hg.stmtsOf_spec b).2.2 s hs

theorem insertBehind (b : BlockId) (offset : Int) :
    (g.insertBehind b offset).Linked where
  next_gt h := by
    rw [insertBehind_stmt] at h
    simpa using hg.next_gt h
  prev_lt h := by
    rw [insertBehind_stmt] at h
    simpa using hg.prev_lt h
  first_lt {c s} h := by
    rw [insertBehind_first] at h
    split at h
    · cases h
    · simpa using hg.first_lt h
  last_lt {c s} h := by
    rw [insertBehind_last] at h
    split at h
    · cases h
    · simpa using hg.last_lt h
  last_inj {c d s} hc hd := by
    rw [insertBehind_last] at hc hd
    split at hc
    · cases hc
    · split at hd
      · cases hd
      · exact hg.last_inj hc hd

theorem split {b s : Nat} (offset : Int) (hb : b < g.blockCount) (hs : s < g.stmtCount) :
    (g.split b s offset).Linked where
  next_gt {r q} h := by
    have hbefore : ∀ p, g.splitBefore b = some p → p < g.stmtCount := by
      intro p hp
      obtain ⟨l, -, hl⟩ := Option.bind_eq_some_iff.mp hp
      exact hg.prev_lt hl
    rw [split_stmt] at h
    rw [split_stmtCount]
    have hold := @hg.next_gt r q
    grind
  prev_lt {r q} h := by
    rw [split_stmt] at h
    rw [split_stmtCount]
    have hold := @hg.prev_lt r q
    have hbefore : ∀ p, g.splitBefore b = some p → p < g.stmtCount := by
      intro p hp
      obtain ⟨l, -, hl⟩ := Option.bind_eq_some_iff.mp hp
      exact hg.prev_lt hl
    grind
  first_lt {c q} h := by
    rw [split_first _ _ _ _ _ (Nat.ne_of_lt hb)] at h
    rw [split_stmtCount]
    have hold := @hg.first_lt c q
    have hfirst := @hg.first_lt b q
    grind
  last_lt {c q} h := by
    rw [split_last] at h
    rw [split_stmtCount]
    have hold := @hg.last_lt c q
    have hlast := @hg.last_lt b q
    grind
  last_inj {c d q} hc hd := by
    rw [split_last] at hc hd
    have hcd := @hg.last_inj c d q
    have hbd := @hg.last_inj b d q
    have hcb := @hg.last_inj c b q
    have hltc := @hg.last_lt c q
    have hltd := @hg.last_lt d q
    have hltb := @hg.last_lt b q
    grind

theorem append (b : BlockId) (offset : Int) (t : Tree) :
    (g.append b offset t).Linked where
  next_gt {r q} h := by
    rw [append_stmt] at h
    rw [append_stmtCount]
    have hold := @hg.next_gt r q
    have hlast := @hg.last_lt b r
    grind
  prev_lt {r q} h := by
    rw [append_stmt] at h
    rw [append_stmtCount]
    have hold := @hg.prev_lt r q
    have hlast := @hg.last_lt b q
    grind
  first_lt {c q} h := by
    rw [append_block] at h
    rw [append_stmtCount]
    have hold := @hg.first_lt c q
    grind
  last_lt {c q} h := by
    rw [append_block] at h
    rw [append_stmtCount]
    have hold := @hg.last_lt c q
    grind
  last_inj {c d q} hc hd := by
    rw [append_block] at hc hd
    have hcd := @hg.last_inj c d q
    have hltc := @hg.last_lt c q
    have hltd := @hg.last_lt d q
    grind

theorem newTree (kind : TreeKind) (operands : List Operand) (b : BlockId) (ts : List Tree) :
    (g.newTree kind operands b ts).2.Linked :=
  ⟨hg.next_gt, hg.prev_lt, hg.first_lt, hg.last_lt, hg.last_inj⟩

theorem newEdge (target : BlockId) : (g.newEdge target).2.Linked :=
  ⟨hg.next_gt, hg.prev_lt, hg.first_lt, hg.last_lt, hg.last_inj⟩

end

end Linked

/-! ## Blocks -/

/-- The blocks of a graph form one chain, which starts with `first` and holds every
block once. -/
structure Chained (g : Graph) (first : BlockId) : Prop where
  follows : Follows (fun b => (g.block b).next) (some first) (g.blocksFrom first)
  nodup : (g.blocksFrom first).Nodup
  mem_iff : ∀ b : Nat, b ∈ g.blocksFrom first ↔ b < g.blockCount

namespace Chained

variable {g g' : Graph} {first : BlockId}

section

variable {bs : List BlockId} (hbs : Follows (fun b => (g.block b).next) (some first) bs)
  (hnodup : bs.Nodup) (hmem : ∀ b : Nat, b ∈ bs ↔ b < g.blockCount)
include hbs hnodup hmem

/-- Any chain that holds every block once is the one that a walk finds. -/
theorem blocksFrom_eq : g.blocksFrom first = bs := by
  have hsub : bs ⊆ List.range g.blockCount := by
    intro b hb
    exact List.mem_range.mpr ((hmem b).mp hb)
  have hlength : bs.length ≤ g.blockCount := by
    simpa using (List.subperm_of_subset hnodup hsub).length_le
  exact walkBlocks_of_follows hbs hlength

theorem of_follows : g.Chained first := by
  have heq := blocksFrom_eq hbs hnodup hmem
  exact ⟨by rwa [heq], by rwa [heq], by rwa [heq]⟩

end

/-- A change that leaves the links between blocks alone leaves the chain. -/
theorem congr
    (hg : g.Chained first) (g' : Graph) (hcount : g'.blockCount = g.blockCount)
    (hnext : ∀ b, (g'.block b).next = (g.block b).next) :
    g'.Chained first ∧ g'.blocksFrom first = g.blocksFrom first := by
  have hfollows : Follows (fun b => (g'.block b).next) (some first) (g.blocksFrom first) :=
    hg.follows.congr fun b _ => hnext b
  have hmem : ∀ b : Nat, b ∈ g.blocksFrom first ↔ b < g'.blockCount := by
    intro b
    rw [hcount]
    exact hg.mem_iff b
  exact ⟨of_follows hfollows hg.nodup hmem, blocksFrom_eq hfollows hg.nodup hmem⟩

section

variable (hg : g.Chained first)
include hg

/-- A change that puts one new block in behind `b` puts it into the chain there. -/
theorem insert {b : Nat} {before after : List BlockId}
    (hsplit : g.blocksFrom first = before ++ b :: after) (hcount : g'.blockCount = g.blockCount + 1)
    (hnext : ∀ c, (g'.block c).next = if c = b then some g.blockCount
      else if c = g.blockCount then (g.block b).next else (g.block c).next) :
    g'.Chained first ∧
      g'.blocksFrom first = before ++ b :: g.blockCount :: after := by
  have hnodup : (before ++ b :: after).Nodup := hsplit ▸ hg.nodup
  have hlt : ∀ c ∈ before ++ b :: after, c < g.blockCount := by
    intro c hc
    rw [← hsplit] at hc
    exact (hg.mem_iff c).mp hc
  have hb : b < g.blockCount := hlt b (by simp)
  have hfollows : Follows (fun c => (g'.block c).next) (some first)
      (before ++ b :: g.blockCount :: after) := by
    have hold := hg.follows
    rw [hsplit] at hold
    refine hold.insert ?_ ?_ ?_
    · simp [hnext]
    · simp [hnext, Nat.ne_of_gt hb]
    · intro c hc
      have hcb : c ≠ b := by
        rintro rfl
        have hperm := List.nodup_middle.mp hnodup
        exact (List.nodup_cons.mp hperm).1 hc
      have hcnew : c ≠ g.blockCount := by
        refine Nat.ne_of_lt (hlt c ?_)
        rcases List.mem_append.mp hc with hc | hc
        · simp [hc]
        · simp [hc]
      simp [hnext, hcb, hcnew]
  have hperm : (before ++ b :: g.blockCount :: after).Perm
      (g.blockCount :: (before ++ b :: after)) := by
    simpa using (List.perm_middle : (before ++ [b] ++ g.blockCount :: after).Perm _)
  have hnew : g.blockCount ∉ before ++ b :: after := fun h => Nat.lt_irrefl _ (hlt _ h)
  have hnodup' : (before ++ b :: g.blockCount :: after).Nodup :=
    hperm.nodup_iff.mpr (List.nodup_cons.mpr ⟨hnew, hnodup⟩)
  have hmem : ∀ c : Nat, c ∈ before ++ b :: g.blockCount :: after ↔ c < g'.blockCount := by
    intro c
    rw [hperm.mem_iff, List.mem_cons, ← hsplit, hg.mem_iff c, hcount]
    exact or_comm.trans Nat.lt_succ_iff_lt_or_eq.symm
  exact ⟨of_follows hfollows hnodup' hmem, blocksFrom_eq hfollows hnodup' hmem⟩

theorem insertBehind {b : Nat} (hb : b < g.blockCount) (offset : Int) :
    (g.insertBehind b offset).Chained first := by
  obtain ⟨before, after, hsplit⟩ := List.append_of_mem ((hg.mem_iff b).mpr hb)
  exact (hg.insert hsplit (g.insertBehind_blockCount b offset)
    fun c => g.insertBehind_next b c offset).1

theorem split {b : Nat} (hb : b < g.blockCount) (s : StmtId) (offset : Int) :
    (g.split b s offset).Chained first := by
  obtain ⟨before, after, hsplit⟩ := List.append_of_mem ((hg.mem_iff b).mpr hb)
  refine (hg.insert hsplit (g.split_blockCount b s offset) fun c => ?_).1
  rw [split_next, insertBehind_next]

theorem append (b : BlockId) (offset : Int) (t : Tree) : (g.append b offset t).Chained first := by
  refine (hg.congr _ (g.append_blockCount b offset t) fun c => ?_).1
  rw [append_block]
  split <;> rfl

theorem newTree (kind : TreeKind) (operands : List Operand) (b : BlockId) (ts : List Tree) :
    (g.newTree kind operands b ts).2.Chained first :=
  (hg.congr (g.newTree kind operands b ts).2 rfl fun _ => rfl).1

theorem newEdge (target : BlockId) : (g.newEdge target).2.Chained first :=
  (hg.congr (g.newEdge target).2 rfl fun _ => rfl).1

end

end Chained
end Graph
end LinearScan
