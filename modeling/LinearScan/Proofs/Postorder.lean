import LinearScan.Proofs.Flattening

/-!
# Indices along trees, statements and blocks

Trees get their indices in execution order, by one count through all blocks.  Where no tree is
reached twice, the parts of a tree therefore have indices without gaps, of which its own is the
last, and the parts of what stands earlier, be it a subtree, a statement or a block, have smaller
indices than the parts of what stands later.
-/

namespace LinearScan

namespace Notes

/-- All trees of `ts` have smaller indices than those of `us`. -/
def Precede (n : Notes) (ts us : List Tree) : Prop :=
  ∀ x ∈ ts, ∀ y ∈ us, n.index x < n.index y

/-- The trees `ts` are numbered in their order, from zero on. -/
def Counts (n : Notes) (ts : List Tree) : Prop :=
  ts.map n.index = List.range ts.length

namespace Counts

variable {n : Notes} {ts xs ys : List Tree} {t u x : Tree}

theorem pairwise (h : n.Counts ts) : ts.Pairwise fun x y => n.index x < n.index y := by
  rw [← List.pairwise_map, h]
  exact List.pairwise_lt_range

/-- Trees in the middle have the indices behind those of the trees before them. -/
theorem map_index_segment (h : n.Counts (xs ++ ts ++ ys)) :
    ts.map n.index = List.range' xs.length ts.length := by
  rw [Counts, List.range_eq_range', List.length_append, List.length_append,
    ← List.range'_append_1, ← List.range'_append_1, List.map_append, List.map_append] at h
  have hfront := (List.append_inj h (by simp)).1
  rw [← Nat.zero_add xs.length]
  exact (List.append_inj hfront (by simp)).2

/-- A tree with an index of the middle stands there. -/
theorem mem_segment (h : n.Counts (xs ++ ts ++ ys)) (hx : x ∈ xs ++ ts ++ ys)
    (hlow : xs.length ≤ n.index x) (hhigh : n.index x < xs.length + ts.length) : x ∈ ts := by
  have hindex : n.index x ∈ ts.map n.index := by
    rw [h.map_index_segment]
    exact List.mem_range'_1.mpr ⟨hlow, hhigh⟩
  obtain ⟨y, hy, hyx⟩ := List.mem_map.mp hindex
  have hnodup : ((xs ++ ts ++ ys).map n.index).Nodup := by
    rw [h]
    exact List.nodup_range
  rwa [← List.inj_on_of_nodup_map hnodup (by simp [hy]) hx hyx]

section

variable (h : n.Counts (xs ++ t.postorder ++ ys))
include h

/-- The parts of a tree end with the tree itself, so its index is the last of theirs. -/
theorem index_root : n.index t + 1 = xs.length + t.postorder.length := by
  have hlast := congrArg List.getLast? h.map_index_segment
  have hlength : t.postorder.length ≠ 0 := by simp [Tree.postorder_eq t]
  rw [List.getLast?_map, List.getLast?_range', if_neg hlength, Tree.postorder_eq,
    List.getLast?_concat, ← Tree.postorder_eq, Option.map_some, Option.some.injEq] at hlast
  omega

/-- The parts of earlier subtrees have smaller indices than those of later ones, and along the
parts of one subtree the indices rise. -/
theorem subtrees_pairwise :
    (∀ u ∈ t.subtrees, u.postorder.Pairwise fun x y => n.index x < n.index y) ∧
      t.subtrees.Pairwise fun u v => n.Precede u.postorder v.postorder := by
  have hparts := (List.pairwise_append.mp (List.pairwise_append.mp h.pairwise).1).2.1
  rw [Tree.postorder_eq] at hparts
  exact List.pairwise_flatMap.mp (List.pairwise_append.mp hparts).1

/-- A tree numbered between a subtree and the tree it belongs to is part of a later subtree. -/
theorem mem_later_subtree {before after : List Tree} (hsplit : t.subtrees = before ++ u :: after)
    (hx : x ∈ xs ++ t.postorder ++ ys) (hux : n.index u < n.index x) (hxt : n.index x < n.index t) :
    ∃ v ∈ after, x ∈ v.postorder := by
  obtain ⟨hrising, hsiblings⟩ := h.subtrees_pairwise
  rw [hsplit] at hrising hsiblings
  have hxpart : x ∈ t.postorder := by
    have hu : n.index u ∈ t.postorder.map n.index :=
      List.mem_map_of_mem (Tree.mem_postorder_of_mem_subtrees (by simp [hsplit]))
    rw [h.map_index_segment, List.mem_range'_1] at hu
    have hroot := h.index_root
    exact h.mem_segment hx (by omega) (by omega)
  rw [Tree.postorder_eq, hsplit, List.mem_append, List.mem_singleton, List.mem_flatMap] at hxpart
  rcases hxpart with ⟨v, hv, hxv⟩ | rfl
  · rcases List.mem_append.mp hv with hv | hv
    · have hlt := (List.pairwise_append.mp hsiblings).2.2 v hv u (by simp) x hxv u
        u.mem_postorder_self
      omega
    · rcases List.mem_cons.mp hv with rfl | hv
      · -- the other parts of the subtree itself stand before it
        have hparts := hrising v (by simp)
        rw [Tree.postorder_eq] at hparts hxv
        rcases List.mem_append.mp hxv with hxv | hxv
        · have hlt := (List.pairwise_append.mp hparts).2.2 x hxv v (by simp)
          omega
        · rw [List.mem_singleton.mp hxv] at hux
          omega
      · exact ⟨v, hv, hxv⟩
  · omega

end

end Counts
end Notes

namespace Graph

variable {g : Graph} {first : BlockId} {n : Notes} {t : Tree}

/-- The trees of earlier blocks have smaller indices than those of later ones, and so have those
of earlier statements of one block. -/
theorem blocks_pairwise (h : n.Counts (g.treesFrom first)) :
    (g.blocksFrom first).Pairwise (fun b c => n.Precede (g.treesOf b) (g.treesOf c)) ∧
      ∀ b ∈ g.blocksFrom first, (g.stmtsOf b).Pairwise fun s r =>
        n.Precede (g.stmt s).tree.postorder (g.stmt r).tree.postorder := by
  obtain ⟨hwithin, hacross⟩ := List.pairwise_flatMap.mp h.pairwise
  exact ⟨hacross, fun b hb => (List.pairwise_flatMap.mp (hwithin b hb)).2⟩

end Graph

/-- **Indexing is a contiguous postorder.**  Where no tree is reached twice, indexing gives the
trees their places in execution order, from zero on.  The parts of a tree are the trees with the
indices from a place on up to that of the tree itself, without gaps.  The parts of earlier
subtrees, the trees of earlier statements and those of earlier blocks have smaller indices than
those of later ones.  What is numbered between a subtree and its parent is part of a later
subtree. -/
theorem Ir.reindex_postorder (ir : Ir) (g : Graph) (n : Notes)
    (hnodup : ((ir.trees g).map Tree.id).Nodup) :
    let trees := ir.trees g
    let n' := (ir.reindex g n).2
    trees.map n'.index = List.range (ir.reindex g n).1.count ∧
      (∀ t ∈ trees, ∃ start, start + t.postorder.length = n'.index t + 1 ∧
        t.postorder.map n'.index = List.range' start t.postorder.length ∧
        ∀ x ∈ trees, x ∈ t.postorder ↔ start ≤ n'.index x ∧ n'.index x ≤ n'.index t) ∧
      (∀ t ∈ trees, t.subtrees.Pairwise fun u v => n'.Precede u.postorder v.postorder) ∧
      (∀ b ∈ ir.blocks g, (g.stmtsOf b).Pairwise fun s r =>
        n'.Precede (g.stmt s).tree.postorder (g.stmt r).tree.postorder) ∧
      (ir.blocks g).Pairwise (fun b c => n'.Precede (g.treesOf b) (g.treesOf c)) ∧
      ∀ t ∈ trees, ∀ before u after, t.subtrees = before ++ u :: after → ∀ x ∈ trees,
        n'.index u < n'.index x → n'.index x < n'.index t → ∃ v ∈ after, x ∈ v.postorder := by
  have hcounts : (n.number 0 (ir.trees g)).Counts (ir.trees g) := by
    rw [Notes.Counts, Notes.map_index_number hnodup, List.range_eq_range']
  generalize hn' : n.number 0 (ir.trees g) = n' at hcounts
  simp only [Ir.reindex, hn']
  obtain ⟨hblocks, hstmts⟩ := Graph.blocks_pairwise hcounts
  refine ⟨hcounts, ?_, ?_, hstmts, hblocks, ?_⟩
  · intro t ht
    obtain ⟨xs, ys, hsplit⟩ := Graph.Formed.exists_segment_treesFrom ht
    rw [Ir.trees, hsplit] at hcounts ⊢
    have hroot := hcounts.index_root
    refine ⟨xs.length, hroot.symm, hcounts.map_index_segment, fun x hx => ⟨?_, ?_⟩⟩
    · intro hxt
      have hindex := List.mem_map_of_mem (f := n'.index) hxt
      rw [hcounts.map_index_segment, List.mem_range'_1] at hindex
      omega
    · rintro ⟨hlow, hhigh⟩
      exact hcounts.mem_segment hx hlow (by omega)
  · intro t ht
    obtain ⟨xs, ys, hsplit⟩ := Graph.Formed.exists_segment_treesFrom ht
    rw [Ir.trees, hsplit] at hcounts
    exact hcounts.subtrees_pairwise.2
  · intro t ht before u after hsubtrees x hx
    obtain ⟨xs, ys, hsplit⟩ := Graph.Formed.exists_segment_treesFrom ht
    rw [Ir.trees, hsplit] at hcounts hx
    exact hcounts.mem_later_subtree hsubtrees hx

/-- In a loop that counts down no tree is reached twice; its seventeen trees are numbered. -/
theorem Ir.reindex_postorder_countdown :
    ∃ m, (Samples.countdown 3).import? = .ok m ∧ ((m.ir.trees m.graph).map Tree.id).Nodup ∧
      (m.ir.blocks m.graph).length = 3 ∧
      (m.ir.trees m.graph).map (m.ir.reindex m.graph {}).2.index = List.range 17 ∧
      ∀ t ∈ m.ir.trees m.graph,
        t.subtrees.Pairwise fun u v =>
          (m.ir.reindex m.graph {}).2.Precede u.postorder v.postorder := by
  obtain ⟨m, hm, hnodup, hblocks, hcount⟩ : ∃ m, (Samples.countdown 3).import? = .ok m ∧
      ((m.ir.trees m.graph).map Tree.id).Nodup ∧ (m.ir.blocks m.graph).length = 3 ∧
      (m.ir.reindex m.graph {}).1.count = 17 := by
    decide +kernel
  obtain ⟨hindices, -, hsubtrees, -⟩ := Ir.reindex_postorder m.ir m.graph {} hnodup
  rw [hcount] at hindices
  exact ⟨m, hm, hnodup, hblocks, hindices, hsubtrees⟩

end LinearScan
