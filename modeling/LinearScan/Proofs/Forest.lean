import LinearScan.Proofs.Links
import Mathlib.Data.List.Flatten

/-!
# The trees of a graph

The trees of all statements, together with the trees that still wait on a stack,
form a forest: no tree number occurs twice, the parent of a subtree is the tree it
stands in, and roots have no parent.  Every tree has as many subtrees as its kind
asks for, and all subtrees produce values.  Edges are numbered without repetition
as well.
-/

namespace LinearScan

namespace TreeKind

/-- Whether trees of this kind produce a value. -/
def isValue : TreeKind → Bool
  | .ldLocal => true
  | .const => true
  | .binOp => true
  | _ => false

/-- How many values trees of this kind take. -/
def arity : TreeKind → Nat
  | .ldLocal => 0
  | .const => 0
  | .jmp => 0
  | .binOp => 2
  | _ => 1

end TreeKind

/-- The edge that an operand is. -/
def Operand.edge? : Operand → Option (EdgeId × BlockId)
  | .edge e target => some (e, target)
  | _ => none

theorem Operand.edges_literals (ls : List Literal) :
    (ls.map Operand.literal).filterMap Operand.edge? = [] := by
  simp [List.filterMap_map, Operand.edge?]

/-- The edges among the operands of a tree. -/
def Tree.edges (t : Tree) : List (EdgeId × BlockId) :=
  t.operands.filterMap Operand.edge?

namespace Graph

/-- The trees of all statements, whether or not a block leads to them. -/
def statementTrees (g : Graph) : List Tree :=
  (List.range g.stmtCount).map fun s => (g.stmt s).tree

/-- The trees of all statements and of those that wait, with all their subtrees. -/
def allTrees (g : Graph) (pending : List Tree) : List Tree :=
  (g.statementTrees ++ pending).flatMap Tree.postorder

/-- The numbers of the edges of all statements and of the trees that wait. -/
def edgeIds (g : Graph) (pending : List Tree) : List EdgeId :=
  (g.statementTrees ++ pending).flatMap fun t => t.edges.map Prod.fst

/-- The trees of a graph and the trees that wait form a forest. -/
structure Planted (g : Graph) (pending : List Tree) : Prop where
  ids_nodup : ((g.allTrees pending).map Tree.id).Nodup
  id_lt : ∀ t ∈ g.allTrees pending, t.id < g.treeCount
  parent_subtree : ∀ t ∈ g.allTrees pending, ∀ u ∈ t.subtrees, g.parent u = some t
  parent_root : ∀ t ∈ g.statementTrees ++ pending, g.parent t = none
  parent_fresh : ∀ k, g.treeCount ≤ k → g.parents.get k = none
  arity_eq : ∀ t ∈ g.allTrees pending, t.subtrees.length = t.kind.arity
  subtree_isValue : ∀ t ∈ g.allTrees pending, ∀ u ∈ t.subtrees, u.kind.isValue = true
  root_not_isValue : ∀ t ∈ g.statementTrees, t.kind.isValue = false
  edgeIds_nodup : (g.edgeIds pending).Nodup
  edge_lt : ∀ t ∈ g.statementTrees ++ pending, ∀ e ∈ t.edges,
    e.1 < g.edgeCount ∧ e.2 < g.blockCount

/-! ## Trees and their parts -/

theorem mem_allTrees_of_root
    {g : Graph} {pending : List Tree} {t : Tree} (ht : t ∈ g.statementTrees ++ pending) :
    t ∈ g.allTrees pending :=
  List.mem_flatMap.mpr ⟨t, ht, t.mem_postorder_self⟩

theorem mem_statementTrees {g : Graph} {s : Nat} (hs : s < g.stmtCount) :
    (g.stmt s).tree ∈ g.statementTrees :=
  List.mem_map.mpr ⟨s, List.mem_range.mpr hs, rfl⟩

end Graph

namespace Tree

/-- The parts of a part of a tree are parts of the tree. -/
theorem mem_postorder_trans {t u v : Tree} (hu : u ∈ t.postorder) (hv : v ∈ u.postorder) :
    v ∈ t.postorder := by
  induction t using Tree.inductionOn with
  | node i k o b ts ih =>
      rw [postorder_eq] at hu
      rcases List.mem_append.mp hu with hu | hu
      · obtain ⟨w, hw, huw⟩ := List.mem_flatMap.mp hu
        rw [postorder_eq]
        exact List.mem_append.mpr (Or.inl (List.mem_flatMap.mpr ⟨w, hw, ih w hw huw⟩))
      · obtain rfl : u = .node i k o b ts := by simpa using hu
        exact hv

theorem mem_postorder_of_mem_subtrees {t u : Tree} (hu : u ∈ t.subtrees) : u ∈ t.postorder := by
  rw [postorder_eq]
  exact List.mem_append.mpr (Or.inl (List.mem_flatMap.mpr ⟨u, hu, u.mem_postorder_self⟩))

end Tree

namespace Graph

/-- Roots are among all trees, in the same order. -/
theorem roots_sublist (roots : List Tree) : roots.Sublist (roots.flatMap Tree.postorder) := by
  induction roots with
  | nil => simp
  | cons t roots ih =>
      have ht : [t].Sublist t.postorder := by
        rw [Tree.postorder_eq]
        exact List.sublist_append_right _ _
      simpa using ht.append ih

@[simp]
theorem statementTrees_newTree
    (g : Graph) (kind : TreeKind) (operands : List Operand) (b : BlockId) (ts : List Tree) :
    (g.newTree kind operands b ts).2.statementTrees = g.statementTrees := by
  simp [statementTrees]

theorem statementTrees_append (g : Graph) (b : BlockId) (offset : Int) (t : Tree) :
    (g.append b offset t).statementTrees = g.statementTrees ++ [t] := by
  simp only [statementTrees, append_stmtCount, List.range_succ, List.map_append, List.map_cons,
    List.map_nil]
  refine congrArg₂ (· ++ ·) (List.map_congr_left ?_) ?_
  · intro s hs
    have hne : s ≠ g.stmtCount := Nat.ne_of_lt (List.mem_range.mp hs)
    rw [append_stmt]
    grind
  · rw [append_stmt]
    grind

theorem statementTrees_split (g : Graph) (b : BlockId) (s : StmtId) (offset : Int) :
    (g.split b s offset).statementTrees = g.statementTrees ++ [g.splitJump b] := by
  simp only [statementTrees, split_stmtCount, List.range_succ, List.map_append, List.map_cons,
    List.map_nil]
  refine congrArg₂ (· ++ ·) (List.map_congr_left ?_) ?_
  · intro r hr
    have hne : r ≠ g.stmtCount := Nat.ne_of_lt (List.mem_range.mp hr)
    rw [split_stmt]
    grind
  · rw [split_stmt]
    grind

namespace Planted

variable {g : Graph} {pending : List Tree}

/-- Two trees of a forest with the same number are the same tree. -/
theorem eq_of_id_eq
    (hg : g.Planted pending) {t u : Tree}
    (ht : t ∈ g.allTrees pending) (hu : u ∈ g.allTrees pending) (hid : t.id = u.id) :
    t = u :=
  List.inj_on_of_nodup_map hg.ids_nodup ht hu hid

theorem roots_nodup (hg : g.Planted pending) :
    ((g.statementTrees ++ pending).map Tree.id).Nodup :=
  hg.ids_nodup.sublist ((roots_sublist (g.statementTrees ++ pending)).map Tree.id)

/-! ## A new tree -/

/-- A chain of writes of one row at several numbers. -/
theorem get_foldl_set {α : Type} [Inhabited α]
    (table : Table α) (ids : List Nat) (a : α) (k : Nat) :
    (ids.foldl (fun table i => table.set i a) table).get k =
      if k ∈ ids then a else table.get k := by
  induction ids generalizing table with
  | nil => simp
  | cons i ids ih =>
      rw [List.foldl_cons, ih, Table.get_set]
      grind

section

variable (g : Graph) (kind : TreeKind) (operands : List Operand) (b : BlockId)

theorem parent_newTree (ts : List Tree) (u : Tree) :
    (g.newTree kind operands b ts).2.parent u =
      if u.id ∈ ts.map Tree.id then some (g.newTree kind operands b ts).1 else g.parent u := by
  have h := get_foldl_set g.parents (ts.map Tree.id)
    (some (g.newTree kind operands b ts).1) u.id
  rw [List.foldl_map] at h
  exact h

/-- The trees of a stack, after the `n` topmost ones were put under a new tree. -/
theorem postorder_newTree_perm (stack : List Tree) (n : Nat) :
    let made := (g.newTree kind operands b (stack.take n).reverse).1
    ((made :: stack.drop n).flatMap Tree.postorder).Perm
      (made :: stack.flatMap Tree.postorder) := by
  intro made
  let taken := (stack.take n).flatMap Tree.postorder
  let kept := (stack.drop n).flatMap Tree.postorder
  have hmade : made.postorder = ((stack.take n).reverse.flatMap Tree.postorder) ++ [made] :=
    Tree.postorder_eq made
  have hsub : ((stack.take n).reverse.flatMap Tree.postorder).Perm taken :=
    (List.reverse_perm _).flatMap_right _
  have hstack : stack.flatMap Tree.postorder = taken ++ kept := by
    rw [← List.flatMap_append, List.take_append_drop]
  rw [List.flatMap_cons, hmade, hstack]
  refine ((hsub.append_right [made]).append_right kept).trans ?_
  rw [List.append_assoc, List.singleton_append]
  exact List.perm_middle

/-- The trees of a forest, after the `n` topmost trees of the stack were put under
a new one. -/
theorem allTrees_newTree_perm (stack : List Tree) (n : Nat) :
    let made := g.newTree kind operands b (stack.take n).reverse
    (made.2.allTrees (made.1 :: stack.drop n)).Perm (made.1 :: g.allTrees stack) := by
  intro made
  have hroots : made.2.statementTrees = g.statementTrees := rfl
  rw [allTrees, allTrees, hroots, List.flatMap_append, List.flatMap_append]
  exact ((postorder_newTree_perm g kind operands b stack n).append_left _).trans List.perm_middle

end

/-- Putting the topmost trees of the stack under a new one keeps a forest. -/
theorem newTree
    {stack : List Tree} (hg : g.Planted stack)
    (kind : TreeKind) (operands : List Operand) (b : BlockId)
    (hlength : kind.arity ≤ stack.length)
    (hvalue : ∀ u ∈ stack.take kind.arity, u.kind.isValue = true)
    (hnodup : ((operands.filterMap Operand.edge?).map Prod.fst).Nodup)
    (hfresh : ∀ e ∈ operands.filterMap Operand.edge?,
      e.1 ∉ g.edgeIds stack ∧ e.1 < g.edgeCount ∧ e.2 < g.blockCount) :
    let made := g.newTree kind operands b (stack.take kind.arity).reverse
    made.2.Planted (made.1 :: stack.drop kind.arity) := by
  intro made
  have hperm := allTrees_newTree_perm g kind operands b stack kind.arity
  have hmem : ∀ u, u ∈ made.2.allTrees (made.1 :: stack.drop kind.arity) ↔
      u = made.1 ∨ u ∈ g.allTrees stack := by
    intro u
    rw [hperm.mem_iff, List.mem_cons]
  have hid : made.1.id = g.treeCount := rfl
  have hsubtrees : made.1.subtrees = (stack.take kind.arity).reverse := rfl
  have hkind : made.1.kind = kind := rfl
  have hroots : made.2.statementTrees = g.statementTrees := rfl
  have htaken : ∀ u ∈ stack.take kind.arity, u ∈ g.statementTrees ++ stack := by
    intro u hu
    exact List.mem_append.mpr (Or.inr (List.mem_of_mem_take hu))
  have hparent : ∀ u, made.2.parent u =
      if u.id ∈ (stack.take kind.arity).map Tree.id then some made.1 else g.parent u := by
    intro u
    have h := parent_newTree g kind operands b (stack.take kind.arity).reverse u
    simpa using h
  -- The old trees keep their parents: those that changed theirs had none before.
  have hkeep : ∀ t ∈ g.allTrees stack, ∀ u ∈ t.subtrees, made.2.parent u = some t := by
    intro t ht u hu
    have hold := hg.parent_subtree t ht u hu
    rw [hparent, if_neg, hold]
    intro hmemId
    obtain ⟨v, hv, hvu⟩ := List.mem_map.mp hmemId
    have hnone := hg.parent_root v (htaken v hv)
    rw [Graph.parent, hvu] at hnone
    rw [Graph.parent, hnone] at hold
    cases hold
  have hother : ∀ t ∈ g.statementTrees ++ stack.drop kind.arity, made.2.parent t = none := by
    intro t ht
    have hroot : t ∈ g.statementTrees ++ stack := by
      rcases List.mem_append.mp ht with ht | ht
      · exact List.mem_append.mpr (Or.inl ht)
      · exact List.mem_append.mpr (Or.inr (List.mem_of_mem_drop ht))
    rw [hparent, if_neg, hg.parent_root t hroot]
    intro hmemId
    obtain ⟨v, hv, hvt⟩ := List.mem_map.mp hmemId
    have hnd := hg.roots_nodup
    have hcut : (g.statementTrees ++ stack).map Tree.id =
        g.statementTrees.map Tree.id ++
          ((stack.take kind.arity).map Tree.id ++ (stack.drop kind.arity).map Tree.id) := by
      rw [← List.map_append, List.take_append_drop, List.map_append]
    rw [hcut, List.nodup_append] at hnd
    obtain ⟨-, hstack, hdisjoint⟩ := hnd
    rcases List.mem_append.mp ht with ht | ht
    · exact hdisjoint t.id (List.mem_map_of_mem ht) v.id
        (List.mem_append.mpr (Or.inl (List.mem_map_of_mem hv))) hvt.symm
    · rw [List.nodup_append] at hstack
      exact hstack.2.2 v.id (List.mem_map_of_mem hv) t.id (List.mem_map_of_mem ht) hvt
  refine {
    ids_nodup := ?_
    id_lt := ?_
    parent_subtree := ?_
    parent_root := ?_
    parent_fresh := ?_
    arity_eq := ?_
    subtree_isValue := ?_
    root_not_isValue := hg.root_not_isValue
    edgeIds_nodup := ?_
    edge_lt := ?_ }
  · rw [(hperm.map Tree.id).nodup_iff, List.map_cons, List.nodup_cons]
    refine ⟨?_, hg.ids_nodup⟩
    intro hmemId
    obtain ⟨u, hu, huid⟩ := List.mem_map.mp hmemId
    exact absurd (hg.id_lt u hu) (by rw [huid, hid]; exact Nat.lt_irrefl _)
  · intro u hu
    rcases (hmem u).mp hu with rfl | hu
    · exact Nat.lt_succ_self _
    · exact Nat.lt_succ_of_lt (hg.id_lt u hu)
  · intro t ht u hu
    rcases (hmem t).mp ht with rfl | ht
    · rw [hparent, if_pos]
      rw [hsubtrees, List.mem_reverse] at hu
      exact List.mem_map_of_mem hu
    · exact hkeep t ht u hu
  · intro t ht
    rw [hroots, List.mem_append, List.mem_cons] at ht
    rcases ht with ht | rfl | ht
    · exact hother t (List.mem_append.mpr (Or.inl ht))
    · rw [hparent, if_neg]
      · exact hg.parent_fresh _ (Nat.le_refl _)
      · intro hmemId
        obtain ⟨v, hv, hvid⟩ := List.mem_map.mp hmemId
        have hlt := hg.id_lt v (mem_allTrees_of_root (htaken v hv))
        rw [hvid, hid] at hlt
        exact Nat.lt_irrefl _ hlt
    · exact hother t (List.mem_append.mpr (Or.inr ht))
  · intro k hk
    have h := get_foldl_set g.parents ((stack.take kind.arity).reverse.map Tree.id)
      (some made.1) k
    rw [List.foldl_map] at h
    have hk' : g.treeCount + 1 ≤ k := hk
    refine h.trans ?_
    rw [if_neg]
    · exact hg.parent_fresh k (Nat.le_of_succ_le hk')
    · intro hmemId
      obtain ⟨v, hv, hvk⟩ := List.mem_map.mp hmemId
      rw [List.mem_reverse] at hv
      have hlt := hg.id_lt v (mem_allTrees_of_root (htaken v hv))
      rw [hvk] at hlt
      exact absurd hlt (Nat.not_lt.mpr (Nat.le_of_succ_le hk'))
  · intro t ht
    rcases (hmem t).mp ht with rfl | ht
    · rw [hsubtrees, hkind, List.length_reverse, List.length_take, Nat.min_eq_left hlength]
    · exact hg.arity_eq t ht
  · intro t ht u hu
    rcases (hmem t).mp ht with rfl | ht
    · rw [hsubtrees, List.mem_reverse] at hu
      exact hvalue u hu
    · exact hg.subtree_isValue t ht u hu
  · have hsublist : (g.edgeIds (stack.drop kind.arity)).Sublist (g.edgeIds stack) := by
      exact ((List.drop_sublist _ _).append_left _).flatMap _
    have heq : (made.2.edgeIds (made.1 :: stack.drop kind.arity)).Perm
        ((operands.filterMap Operand.edge?).map Prod.fst ++
          g.edgeIds (stack.drop kind.arity)) := by
      simp only [edgeIds, hroots, List.flatMap_append, List.flatMap_cons]
      exact List.perm_append_comm_assoc _ _ _
    rw [heq.nodup_iff, List.nodup_append]
    refine ⟨hnodup, hg.edgeIds_nodup.sublist hsublist, ?_⟩
    intro e he d hd hed
    obtain ⟨x, hx, rfl⟩ := List.mem_map.mp he
    exact (hfresh x hx).1 (hed ▸ hsublist.subset hd)
  · intro t ht e he
    rw [hroots, List.mem_append, List.mem_cons] at ht
    rcases ht with ht | rfl | ht
    · exact hg.edge_lt t (List.mem_append.mpr (Or.inl ht)) e he
    · exact (hfresh e he).2
    · exact hg.edge_lt t (List.mem_append.mpr (Or.inr (List.mem_of_mem_drop ht))) e he

/-! ## Other changes -/

/-- A change that only takes roots from the stack to the statements, and that may
make room for more edges and blocks, keeps a forest. -/
theorem of_perm
    {g' : Graph} {pending' : List Tree} (hg : g.Planted pending)
    (hroots : (g'.statementTrees ++ pending').Perm (g.statementTrees ++ pending))
    (hkind : ∀ t ∈ g'.statementTrees, t.kind.isValue = false)
    (htrees : g'.treeCount = g.treeCount) (hparents : g'.parents = g.parents)
    (hedges : g.edgeCount ≤ g'.edgeCount) (hblocks : g.blockCount ≤ g'.blockCount) :
    g'.Planted pending' := by
  have hall : (g'.allTrees pending').Perm (g.allTrees pending) := hroots.flatMap_right _
  have hparent : ∀ u, g'.parent u = g.parent u := by
    intro u
    rw [Graph.parent, Graph.parent, hparents]
  refine {
    ids_nodup := (hall.map Tree.id).nodup_iff.mpr hg.ids_nodup
    id_lt := ?_
    parent_subtree := ?_
    parent_root := ?_
    parent_fresh := ?_
    arity_eq := fun t ht => hg.arity_eq t (hall.mem_iff.mp ht)
    subtree_isValue := fun t ht => hg.subtree_isValue t (hall.mem_iff.mp ht)
    root_not_isValue := hkind
    edgeIds_nodup := (hroots.flatMap_right _).nodup_iff.mpr hg.edgeIds_nodup
    edge_lt := ?_ }
  · intro t ht
    rw [htrees]
    exact hg.id_lt t (hall.mem_iff.mp ht)
  · intro t ht u hu
    rw [hparent]
    exact hg.parent_subtree t (hall.mem_iff.mp ht) u hu
  · intro t ht
    rw [hparent]
    exact hg.parent_root t (hroots.mem_iff.mp ht)
  · intro k hk
    rw [hparents]
    exact hg.parent_fresh k (htrees ▸ hk)
  · intro t ht e he
    obtain ⟨hid, htarget⟩ := hg.edge_lt t (hroots.mem_iff.mp ht) e he
    exact ⟨Nat.lt_of_lt_of_le hid hedges, Nat.lt_of_lt_of_le htarget hblocks⟩

theorem newEdge (hg : g.Planted pending) (target : BlockId) :
    (g.newEdge target).2.Planted pending :=
  hg.of_perm (.refl _) hg.root_not_isValue rfl rfl (Nat.le_succ _) (Nat.le_refl _)

theorem insertBehind (hg : g.Planted pending) (b : BlockId) (offset : Int) :
    (g.insertBehind b offset).Planted pending := by
  have hroots : (g.insertBehind b offset).statementTrees = g.statementTrees := by
    simp [statementTrees]
  refine hg.of_perm ?_ ?_ (g.insertBehind_treeCount b offset) (g.insertBehind_parents b offset)
    ?_ ?_
  · rw [hroots]
  · rw [hroots]
    exact hg.root_not_isValue
  · exact Nat.le_of_eq (insertBehind_edgeCount ..).symm
  · rw [insertBehind_blockCount]
    exact Nat.le_succ _

/-- Numbers of edges that were given out are below the next one. -/
theorem edgeCount_not_mem (hg : g.Planted pending) {e : Nat} (he : g.edgeCount ≤ e) :
    e ∉ g.edgeIds pending := by
  intro hmem
  obtain ⟨t, ht, hte⟩ := List.mem_flatMap.mp hmem
  obtain ⟨d, hd, rfl⟩ := List.mem_map.mp hte
  exact absurd (hg.edge_lt t ht d hd).1 (Nat.not_lt.mpr he)

/-- Making the topmost tree of the stack a statement keeps a forest. -/
theorem append
    {t : Tree} {rest : List Tree} (hg : g.Planted (t :: rest)) (b : BlockId) (offset : Int)
    (hkind : t.kind.isValue = false) :
    (g.append b offset t).Planted rest := by
  have hroots := g.statementTrees_append b offset t
  refine hg.of_perm ?_ ?_ (g.append_treeCount b offset t) (g.append_parents b offset t)
    (Nat.le_of_eq (g.append_edgeCount b offset t).symm)
    (Nat.le_of_eq (g.append_blockCount b offset t).symm)
  · rw [hroots, List.append_assoc]
    exact .refl _
  · rw [hroots]
    intro u hu
    rcases List.mem_append.mp hu with hu | hu
    · exact hg.root_not_isValue u hu
    · obtain rfl : u = t := by simpa using hu
      exact hkind

/-- Cutting a block keeps a forest: the jump between its parts is one more root. -/
theorem split
    (hg : g.Planted pending) (b : BlockId) (s : StmtId) (offset : Int) :
    (g.split b s offset).Planted pending := by
  obtain ⟨room, hroom⟩ : ∃ room, room = ((g.insertBehind b offset).newEdge g.blockCount).2 :=
    ⟨_, rfl⟩
  have hplanted : room.Planted pending :=
    hroom ▸ (hg.insertBehind b offset).newEdge g.blockCount
  have htrees : room.treeCount = g.treeCount := by simp [hroom]
  have hroots : room.statementTrees = g.statementTrees := by simp [hroom, statementTrees]
  have hmade := hplanted.newTree .jmp [.edge g.edgeCount g.blockCount] b (Nat.zero_le _)
    (by simp [TreeKind.arity]) (by simp [Operand.edge?]) (by
      intro e he
      obtain rfl : e = (g.edgeCount, g.blockCount) := by
        simpa [Operand.edge?] using he
      refine ⟨?_, by simp [hroom], by simp [hroom]⟩
      rw [edgeIds, hroots]
      exact hg.edgeCount_not_mem (Nat.le_refl _))
  -- The jump waits on the stack, from where it becomes a statement.
  have hjump : (room.newTree .jmp [.edge g.edgeCount g.blockCount] b
      (pending.take TreeKind.jmp.arity).reverse).1 = g.splitJump b := by
    simp [newTree_fst, splitJump, htrees, TreeKind.arity]
  dsimp only at hmade
  rw [hjump] at hmade
  refine hmade.of_perm ?_ ?_ ?_ ?_ ?_ ?_
  · rw [g.statementTrees_split b s offset, List.append_assoc, statementTrees_newTree, hroots]
    exact .refl _
  · rw [g.statementTrees_split b s offset]
    intro u hu
    rcases List.mem_append.mp hu with hu | hu
    · exact hg.root_not_isValue u hu
    · obtain rfl : u = g.splitJump b := by simpa using hu
      rfl
  · simp [htrees]
  · simp [hroom, TreeKind.arity, newTree_parents]
  · simp [hroom]
  · simp [hroom]

end Planted
end Graph
end LinearScan
