import LinearScan.Ir
import LinearScan.Proofs.Imported

/-!
# The order of the trees in a block

The trees of a block stand in execution order: the parts of a tree directly before the
tree.  No tree stands twice in a block.  It may stand in several blocks, but what
follows it is the same in all of them.  So the places that are given out along the
whole code rise along each block, even though a tree that is reached twice keeps the
later place.
-/

namespace LinearScan

/-! ## Lists without repetition -/

section Lists

variable {α β : Type}

/-- In a list without repetition an element has one place. -/
theorem eq_of_append_cons_eq {xs ys xs' ys' : List α} {a : α}
    (hnodup : (xs ++ a :: ys).Nodup) (h : xs ++ a :: ys = xs' ++ a :: ys') :
    xs = xs' ∧ ys = ys' := by
  induction xs generalizing xs' with
  | nil =>
      cases xs' with
      | nil => simpa using h
      | cons x xs' =>
          simp only [List.nil_append, List.cons_append, List.cons.injEq] at h
          obtain ⟨rfl, rfl⟩ := h
          simp at hnodup
  | cons x xs ih =>
      cases xs' with
      | nil =>
          simp only [List.nil_append, List.cons_append, List.cons.injEq] at h
          obtain ⟨rfl, rfl⟩ := h
          simp at hnodup
      | cons x' xs' =>
          simp only [List.cons_append, List.cons.injEq] at h
          obtain ⟨rfl, h⟩ := h
          obtain ⟨hxs, hys⟩ := ih (List.nodup_cons.mp hnodup).2 h
          exact ⟨by rw [hxs], hys⟩

/-- The place of an element in a list that is put together from parts. -/
theorem exists_of_flatMap_eq_append_cons {f : α → List β} {as : List α} {xs ys : List β} {b : β}
    (h : as.flatMap f = xs ++ b :: ys) :
    ∃ before a after ps qs, as = before ++ a :: after ∧ f a = ps ++ b :: qs ∧
      xs = before.flatMap f ++ ps ∧ ys = qs ++ after.flatMap f := by
  induction as generalizing xs with
  | nil => simp at h
  | cons a as ih =>
      rw [List.flatMap_cons] at h
      rcases List.append_eq_append_iff.mp h with ⟨zs, rfl, hrest⟩ | ⟨zs, hfa, hrest⟩
      · obtain ⟨before, c, after, ps, qs, rfl, hc, rfl, rfl⟩ := ih hrest
        exact ⟨a :: before, c, after, ps, qs, rfl, hc, by simp, rfl⟩
      · cases zs with
        | nil =>
            simp only [List.append_nil] at hfa
            simp only [List.nil_append] at hrest
            have hnil : as.flatMap f = [] ++ b :: ys := by simp [hrest]
            obtain ⟨before, c, after, ps, qs, rfl, hc, hps, rfl⟩ := ih hnil
            exact ⟨a :: before, c, after, ps, qs, rfl, hc, by simp [hfa, ← hps], rfl⟩
        | cons z zs =>
            simp only [List.cons_append, List.cons.injEq] at hrest
            obtain ⟨rfl, rfl⟩ := hrest
            exact ⟨[], a, as, xs, zs, rfl, hfa, rfl, rfl⟩

/-- Numbered parts of a list without repetition have nothing in common. -/
theorem eq_of_mem_flatMap_range {n : Nat} {f : Nat → α} {rest : List α} {h : α → List β}
    (hnodup : (((List.range n).map f ++ rest).flatMap h).Nodup) {s r : Nat} (hs : s < n)
    (hr : r < n) {x : β} (hxs : x ∈ h (f s)) (hxr : x ∈ h (f r)) : s = r := by
  rw [List.flatMap_append, List.flatMap_map] at hnodup
  have hdisjoint := (List.nodup_flatMap.mp hnodup.of_append_left).2
  have hne : ∀ {s r : Nat}, s < r → r < n → x ∈ h (f s) → x ∉ h (f r) := by
    intro s r hsr hr hs hr'
    have hsrange : s < (List.range n).length := by simp; omega
    have hrrange : r < (List.range n).length := by simpa using hr
    have hpair := List.pairwise_iff_getElem.mp hdisjoint s r hsrange hrrange hsr
    simp only [List.getElem_range] at hpair
    exact hpair hs hr'
  rcases Nat.lt_trichotomy s r with hlt | heq | hlt
  · exact absurd hxr (hne hlt hr hxs)
  · exact heq
  · exact absurd hxs (hne hlt hs hxr)

end Lists

namespace Tree

/-- The parts of a part of a tree stand together. -/
theorem exists_segment {t u : Tree} (hu : u ∈ t.postorder) :
    ∃ xs ys, t.postorder = xs ++ u.postorder ++ ys := by
  induction t using Tree.inductionOn with
  | node i k o b ts ih =>
      have heq := postorder_eq (.node i k o b ts)
      rw [heq] at hu
      rcases List.mem_append.mp hu with hu | hu
      · obtain ⟨w, hw, huw⟩ := List.mem_flatMap.mp hu
        obtain ⟨xs, ys, hxy⟩ := ih w hw huw
        obtain ⟨before, after, hts⟩ := List.append_of_mem hw
        refine ⟨before.flatMap postorder ++ xs,
          ys ++ after.flatMap postorder ++ [.node i k o b ts], ?_⟩
        rw [heq, hts]
        simp only [List.flatMap_append, List.flatMap_cons, hxy, List.append_assoc]
      · obtain rfl : u = .node i k o b ts := by simpa using hu
        exact ⟨[], [], by simp⟩

/-- A part of a tree is the tree or stands in a part. -/
theorem eq_or_mem_subtrees {t u : Tree} (hu : u ∈ t.postorder) :
    u = t ∨ ∃ p ∈ t.postorder, u ∈ p.subtrees := by
  induction t using Tree.inductionOn with
  | node i k o b ts ih =>
      rw [postorder_eq] at hu
      rcases List.mem_append.mp hu with hu | hu
      · obtain ⟨w, hw, huw⟩ := List.mem_flatMap.mp hu
        right
        rcases ih w hw huw with rfl | ⟨p, hp, hup⟩
        · exact ⟨_, mem_postorder_self _, hw⟩
        · exact ⟨p, mem_postorder_trans (mem_postorder_of_mem_subtrees hw) hp, hup⟩
      · left
        simpa using hu

end Tree

namespace Graph

/-- A graph that was read: its blocks form a chain, its statements lead forward, and its
trees form a forest. -/
structure Formed (g : Graph) (pending : List Tree) : Prop where
  linked : g.Linked
  chained : g.Chained 0
  planted : g.Planted pending
  twins_eq : g.twins = {}

/-- What stands in front of a tree stands in the code. -/
theorem mem_treesFrom_of_past {g : Graph} {past ts : List Tree} {u : Tree}
    (htrees : g.treesFrom 0 = past ++ ts) (hu : u ∈ past) : u ∈ g.treesFrom 0 := by
  rw [htrees]
  exact List.mem_append_left _ hu

namespace Formed

variable {g : Graph} {pending : List Tree} {b : BlockId} {t u : Tree}

theorem mem_treesOf : t ∈ g.treesOf b ↔ ∃ s ∈ g.stmtsOf b, t ∈ (g.stmt s).tree.postorder :=
  List.mem_flatMap

theorem mem_roots (hg : g.Formed pending) {s : StmtId} (hs : s ∈ g.stmtsOf b) :
    (g.stmt s).tree ∈ g.statementTrees ++ pending :=
  List.mem_append_left _ (mem_statementTrees (hg.linked.lt_of_mem_stmtsOf hs))

theorem mem_allTrees (hg : g.Formed pending) (ht : t ∈ g.treesOf b) : t ∈ g.allTrees pending := by
  obtain ⟨s, hs, hts⟩ := mem_treesOf.mp ht
  exact List.mem_flatMap.mpr ⟨_, hg.mem_roots hs, hts⟩

/-- Different statements have no tree in common. -/
theorem stmt_eq_of_mem (hg : g.Formed pending) {s r : Nat} (hs : s < g.stmtCount)
    (hr : r < g.stmtCount) (hts : t ∈ (g.stmt s).tree.postorder)
    (hur : u ∈ (g.stmt r).tree.postorder) (hid : t.id = u.id) : s = r := by
  have hnodup := hg.planted.ids_nodup
  rw [allTrees, List.map_flatMap] at hnodup
  exact eq_of_mem_flatMap_range hnodup hs hr (List.mem_map_of_mem hts)
    (hid ▸ List.mem_map_of_mem hur)

theorem treesOf_ids_nodup (hg : g.Formed pending) (b : BlockId) :
    ((g.treesOf b).map Tree.id).Nodup := by
  rw [treesOf, List.map_flatMap]
  refine List.nodup_flatMap.mpr ⟨?_, ?_⟩
  · intro s hs
    have hroot := hg.mem_roots hs
    have hnodup := hg.planted.ids_nodup
    rw [allTrees, List.map_flatMap] at hnodup
    exact (List.nodup_flatMap.mp hnodup).1 _ hroot
  · refine (hg.linked.stmtsOf_spec b).2.1.imp_of_mem ?_
    intro s r hs hr hsr
    refine List.disjoint_left.mpr ?_
    intro k hk hk'
    obtain ⟨v, hv, rfl⟩ := List.mem_map.mp hk
    obtain ⟨w, hw, hid⟩ := List.mem_map.mp hk'
    have heq := hg.stmt_eq_of_mem (hg.linked.lt_of_mem_stmtsOf hs)
      (hg.linked.lt_of_mem_stmtsOf hr) hv hw hid.symm
    exact Nat.ne_of_lt hsr heq

theorem treesOf_nodup (hg : g.Formed pending) (b : BlockId) : (g.treesOf b).Nodup :=
  (hg.treesOf_ids_nodup b).of_map

/-- No block stands twice in the chain. -/
theorem not_mem_of_blocksFrom_eq (hg : g.Formed pending) {before after : List BlockId}
    (h : g.blocksFrom 0 = before ++ b :: after) : b ∉ before := by
  intro hmem
  have hnodup := hg.chained.nodup
  rw [h] at hnodup
  exact (List.nodup_append.mp hnodup).2.2 b hmem b (by simp) rfl

/-- The parts of a tree of a block stand together in the block. -/
theorem exists_segment (ht : t ∈ g.treesOf b) :
    ∃ xs ys, g.treesOf b = xs ++ t.postorder ++ ys := by
  obtain ⟨s, hs, hts⟩ := mem_treesOf.mp ht
  obtain ⟨xs, ys, hxy⟩ := Tree.exists_segment hts
  obtain ⟨before, after, hstmts⟩ := List.append_of_mem hs
  let f : StmtId → List Tree := fun s => (g.stmt s).tree.postorder
  refine ⟨before.flatMap f ++ xs, ys ++ after.flatMap f, ?_⟩
  simp only [treesOf, hstmts, List.flatMap_append, List.flatMap_cons, hxy, f, List.append_assoc]

/-- The parts of a tree stand together in the whole code. -/
theorem exists_segment_treesFrom {first : BlockId} (ht : t ∈ g.treesFrom first) :
    ∃ xs ys, g.treesFrom first = xs ++ t.postorder ++ ys := by
  obtain ⟨b, hb, htb⟩ := List.mem_flatMap.mp ht
  obtain ⟨xs, ys, hxy⟩ := exists_segment htb
  obtain ⟨before, after, hblocks⟩ := List.append_of_mem hb
  refine ⟨before.flatMap g.treesOf ++ xs, ys ++ after.flatMap g.treesOf, ?_⟩
  simp only [treesFrom, hblocks, List.flatMap_append, List.flatMap_cons, hxy, List.append_assoc]

section

variable (hg : g.Formed pending)
include hg

/-- What stands before a tree of a block ends with the parts of the tree. -/
theorem exists_before_eq {before after : List Tree} (h : g.treesOf b = before ++ t :: after) :
    ∃ xs, before = xs ++ t.subtrees.flatMap Tree.postorder := by
  obtain ⟨xs, ys, hxy⟩ := exists_segment (g := g) (b := b) (t := t) (by simp [h])
  have hnodup := hg.treesOf_nodup b
  rw [h] at hnodup hxy
  rw [Tree.postorder_eq] at hxy
  have hsplit : before ++ t :: after =
      (xs ++ t.subtrees.flatMap Tree.postorder) ++ t :: ys := by
    rw [hxy]
    simp
  exact ⟨xs, (eq_of_append_cons_eq hnodup hsplit).1⟩

/-- The subtrees of a tree stand before it. -/
theorem subtree_mem_before {before after : List Tree} (h : g.treesOf b = before ++ t :: after)
    (hu : u ∈ t.subtrees) : u ∈ before := by
  obtain ⟨xs, rfl⟩ := hg.exists_before_eq h
  exact List.mem_append_right _ (List.mem_flatMap.mpr ⟨u, hu, u.mem_postorder_self⟩)

/-- A tree that produces a value stands in another tree of its block, which takes the
value. -/
theorem exists_parent (ht : t ∈ g.treesOf b) (hvalue : t.kind.isValue = true) :
    ∃ p ∈ g.treesOf b, t ∈ p.subtrees ∧ g.parent t = some p := by
  obtain ⟨s, hs, hts⟩ := mem_treesOf.mp ht
  rcases Tree.eq_or_mem_subtrees hts with rfl | ⟨p, hp, htp⟩
  · have hroot := mem_statementTrees (hg.linked.lt_of_mem_stmtsOf hs)
    rw [hg.planted.root_not_isValue _ hroot] at hvalue
    cases hvalue
  · have hpb : p ∈ g.treesOf b := mem_treesOf.mpr ⟨s, hs, hp⟩
    exact ⟨p, hpb, htp, hg.planted.parent_subtree p (hg.mem_allTrees hpb) t htp⟩

/-- Only values are taken. -/
theorem isValue_of_parent (ht : t ∈ g.treesOf b) {p : Tree} (hparent : g.parent t = some p) :
    t.kind.isValue = true := by
  obtain ⟨s, hs, hts⟩ := mem_treesOf.mp ht
  have hroot := hg.mem_roots hs
  rcases Tree.eq_or_mem_subtrees hts with rfl | ⟨q, hq, htq⟩
  · rw [hg.planted.parent_root _ hroot] at hparent
    cases hparent
  · exact hg.planted.subtree_isValue q (List.mem_flatMap.mpr ⟨_, hroot, hq⟩) t htq

theorem subtree_isValue (ht : t ∈ g.treesOf b) (hu : u ∈ t.subtrees) : u.kind.isValue = true :=
  hg.planted.subtree_isValue t (hg.mem_allTrees ht) u hu

/-- A tree that takes one value stands directly behind the tree that produces it. -/
theorem after_eq_of_unary {before after : List Tree} (h : g.treesOf b = before ++ u :: after)
    (ht : t ∈ g.treesOf b) (hu : u ∈ t.subtrees) (harity : t.kind.arity = 1) :
    ∃ rest, after = t :: rest := by
  obtain ⟨xs, ys, hxy⟩ := exists_segment ht
  have hone : t.subtrees = [u] := by
    have hlength := hg.planted.arity_eq t (hg.mem_allTrees ht)
    rw [harity] at hlength
    obtain ⟨v, hv⟩ := List.length_eq_one_iff.mp hlength
    rw [hv] at hu ⊢
    rw [List.mem_singleton.mp hu]
  have hnodup := hg.treesOf_nodup b
  rw [h] at hnodup hxy
  rw [Tree.postorder_eq, hone, List.flatMap_singleton, Tree.postorder_eq u] at hxy
  have hsplit : before ++ u :: after =
      (xs ++ u.subtrees.flatMap Tree.postorder) ++ u :: t :: ys := by
    rw [hxy]
    simp
  exact ⟨ys, (eq_of_append_cons_eq hnodup hsplit).2⟩

/-- What follows a tree is the same in every block in which the tree stands. -/
theorem after_eq {c : BlockId} {before after before' after' : List Tree}
    (h : g.treesOf b = before ++ t :: after) (h' : g.treesOf c = before' ++ u :: after')
    (hid : t.id = u.id) : after = after' := by
  obtain ⟨ss, s, rest, ps, qs, hss, hs, -, rfl⟩ := exists_of_flatMap_eq_append_cons h
  obtain ⟨rr, r, rest', ps', qs', hrr, hr, -, rfl⟩ := exists_of_flatMap_eq_append_cons h'
  have hsmem : s ∈ g.stmtsOf b := by simp [hss]
  have hrmem : r ∈ g.stmtsOf c := by simp [hrr]
  have hts : t ∈ (g.stmt s).tree.postorder := by simp [hs]
  have hur : u ∈ (g.stmt r).tree.postorder := by simp [hr]
  obtain rfl : s = r := hg.stmt_eq_of_mem (hg.linked.lt_of_mem_stmtsOf hsmem)
    (hg.linked.lt_of_mem_stmtsOf hrmem) hts hur hid
  obtain rfl : t = u := by
    refine hg.planted.eq_of_id_eq ?_ ?_ hid
    · exact hg.mem_allTrees (mem_treesOf.mpr ⟨s, hsmem, hts⟩)
    · exact hg.mem_allTrees (mem_treesOf.mpr ⟨s, hrmem, hur⟩)
  have hqs : qs = qs' := by
    have hnodup : (g.stmt s).tree.postorder.Nodup := by
      have hroot := hg.mem_roots hsmem
      have hids := hg.planted.ids_nodup.of_map
      exact (List.nodup_flatMap.mp hids).1 _ hroot
    rw [hs] at hnodup hr
    exact (eq_of_append_cons_eq hnodup hr).2
  have hrest : rest = rest' := by
    have hfollows := (hg.linked.stmtsOf_spec b).1
    have hfollows' := (hg.linked.stmtsOf_spec c).1
    rw [hss] at hfollows
    rw [hrr] at hfollows'
    exact hfollows.of_append.unique hfollows'.of_append
  rw [hqs, hrest]

end

end Formed
end Graph

/-! ## Places -/

namespace Notes

variable {n : Notes} {t u : Tree} {ts : List Tree} {start : Nat}

theorem index_number_of_not_mem (h : ∀ v ∈ ts, v.id ≠ t.id) :
    (n.number start ts).index t = n.index t := by
  induction ts generalizing n start with
  | nil => rfl
  | cons v ts ih =>
      rw [number, ih fun w hw => h w (by simp [hw]), index, tree_modifyTree,
        if_neg (h v (by simp))]
      rfl

/-- Places are given out from `start` on, one to each tree. -/
theorem index_number_bounds (n : Notes) (start : Nat) (h : ∃ v ∈ ts, v.id = t.id) :
    start ≤ (n.number start ts).index t ∧ (n.number start ts).index t < start + ts.length := by
  induction ts generalizing n start with
  | nil => simp at h
  | cons v ts ih =>
      rw [number, List.length_cons]
      by_cases hlater : ∃ w ∈ ts, w.id = t.id
      · obtain ⟨hlow, hhigh⟩ :=
          ih (n.modifyTree v fun note => { note with index := start }) (start + 1) hlater
        exact ⟨by omega, by omega⟩
      · have hnone : ∀ w ∈ ts, w.id ≠ t.id := by
          intro w hw hid
          exact hlater ⟨w, hw, hid⟩
        obtain ⟨w, hw, hid⟩ := h
        have hwv : w = v := by
          rcases List.mem_cons.mp hw with hwv | hw
          · exact hwv
          · exact absurd hid (hnone w hw)
        rw [index_number_of_not_mem hnone, index, tree_modifyTree, if_pos (hwv ▸ hid)]
        exact ⟨Nat.le_refl _, by simp⟩

/-- A tree behind which another tree stands wherever it stands has a smaller place. -/
theorem index_number_lt (ht : ∃ v ∈ ts, v.id = t.id)
    (h : ∀ before v after, ts = before ++ v :: after → v.id = t.id → ∃ w ∈ after, w.id = u.id) :
    (n.number start ts).index t < (n.number start ts).index u := by
  induction ts generalizing n start with
  | nil => simp at ht
  | cons v ts ih =>
      by_cases hlater : ∃ w ∈ ts, w.id = t.id
      · rw [number]
        refine ih hlater ?_
        intro before w after hts hid
        exact h (v :: before) w after (by simp [hts]) hid
      · have hnone : ∀ w ∈ ts, w.id ≠ t.id := by
          intro w hw hid
          exact hlater ⟨w, hw, hid⟩
        obtain ⟨w, hw, hid⟩ := ht
        have hwv : w = v := by
          rcases List.mem_cons.mp hw with hwv | hw
          · exact hwv
          · exact absurd hid (hnone w hw)
        rw [hwv] at hid
        have hu := h [] v ts rfl hid
        rw [number, index_number_of_not_mem hnone, index, tree_modifyTree, if_pos hid]
        exact (index_number_bounds _ _ hu).1

end Notes

namespace Graph.Formed

variable {g : Graph} {pending : List Tree} {b : BlockId} {t u : Tree}

/-- Places rise along each block. -/
theorem index_lt_of_treesOf (hg : g.Formed pending) (n : Notes)
    (hb : b ∈ g.blocksFrom 0) {before after : List Tree}
    (h : g.treesOf b = before ++ t :: after) (hu : u ∈ after) :
    (n.number 0 (g.treesFrom 0)).index t < (n.number 0 (g.treesFrom 0)).index u := by
  refine Notes.index_number_lt ⟨t, ?_, rfl⟩ ?_
  · exact List.mem_flatMap.mpr ⟨b, hb, by simp [h]⟩
  · intro xs v ys htrees hid
    obtain ⟨-, c, -, ps, qs, -, hc, -, rfl⟩ := exists_of_flatMap_eq_append_cons htrees
    have hafter : qs = after := hg.after_eq hc h hid
    exact ⟨u, by simp [hafter, hu], rfl⟩

theorem index_lt_length (n : Notes) (hb : b ∈ g.blocksFrom 0) (ht : t ∈ g.treesOf b) :
    (n.number 0 (g.treesFrom 0)).index t < (g.treesFrom 0).length := by
  have hmem : ∃ v ∈ g.treesFrom 0, v.id = t.id := ⟨t, List.mem_flatMap.mpr ⟨b, hb, ht⟩, rfl⟩
  have hbounds := Notes.index_number_bounds n 0 hmem
  omega

end Graph.Formed
end LinearScan
