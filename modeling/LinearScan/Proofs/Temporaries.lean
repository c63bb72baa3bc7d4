import LinearScan.Proofs.Detours
import LinearScan.Proofs.Faults
import LinearScan.Proofs.Recorded

/-!
# Temporaries are kept until they are used

When every tree is reached once, places rise along the whole code.  A temporary then stays
active from the tree that produces it up to the tree that takes it, or it makes one detour
through memory: it is spilled at a tree in between, and the restore that is noted at the tree
that takes it brings it back.  `Kept` says so of the state between two trees, and also of
the states while a tree is prepared, when some of its operands are back and others are not.
-/

namespace LinearScan

/-! ## Places along the whole code -/

/-- Places rise along the whole code. -/
def Notes.Sorted (n : Notes) (g : Graph) : Prop :=
  (g.treesFrom 0).Pairwise fun t u => n.index t < n.index u

/-- Trees that are numbered once have rising places. -/
theorem Notes.pairwise_index_number {ts : List Tree} (hnodup : (ts.map Tree.id).Nodup) (n : Notes)
    (start : Nat) :
    ts.Pairwise fun t u => (n.number start ts).index t < (n.number start ts).index u := by
  induction ts generalizing n start with
  | nil => exact .nil
  | cons t ts ih =>
      rw [List.map_cons, List.nodup_cons] at hnodup
      refine .cons ?_ (ih hnodup.2 _ _)
      intro u hu
      have ht : ∀ v ∈ ts, v.id ≠ t.id := by
        intro v hv hid
        exact hnodup.1 (hid ▸ List.mem_map_of_mem hv)
      have hu' := (Notes.index_number_bounds
        (n.modifyTree t fun note => { note with index := start }) (start + 1) ⟨u, hu, rfl⟩).1
      rw [Notes.number, Notes.index_number_of_not_mem ht, Notes.index, Notes.tree_modifyTree,
        if_pos rfl]
      exact hu'

/-- The last tree whose value is taken stands directly in front of the tree that takes it. -/
theorem Graph.exists_adjacent_treesFrom {g : Graph} {p u : Tree} (hp : p ∈ g.treesFrom 0)
    {others : List Tree} (hsubtrees : p.subtrees = others ++ [u]) :
    ∃ past future, g.treesFrom 0 = past ++ u :: p :: future := by
  obtain ⟨xs, ys, hall⟩ := Graph.Formed.exists_segment_treesFrom hp
  refine ⟨xs ++ others.flatMap Tree.postorder ++ u.subtrees.flatMap Tree.postorder, ys, ?_⟩
  rw [hall, Tree.postorder_eq, hsubtrees, List.flatMap_append, List.flatMap_singleton,
    Tree.postorder_eq u]
  simp

section

variable {g : Graph} {pending : List Tree} {t : Tree} (hg : g.Formed pending)
  (ht : t ∈ g.treesFrom 0)
include hg ht

theorem Graph.Formed.subtrees_length : t.subtrees.length = t.kind.arity := by
  obtain ⟨b, -, hb⟩ := List.mem_flatMap.mp ht
  exact hg.planted.arity_eq t (hg.mem_allTrees hb)

theorem Graph.Formed.subtrees_length_le : t.subtrees.length ≤ 2 := by
  rw [hg.subtrees_length ht]
  cases t.kind <;> decide

end

namespace Notes.Sorted

variable {g : Graph} {pending : List Tree} {n n' : Notes} {past future : List Tree} {y z u p : Tree}

theorem congr (hn : n.Sorted g) (h : ∀ u, n'.index u = n.index u) : n'.Sorted g := by
  refine hn.imp ?_
  intro t u htu
  rwa [h, h]

theorem rising (hn : n.Sorted g) : n.Rising g := by
  intro b hb before t after htrees u hu
  obtain ⟨bs, cs, hbs⟩ := List.append_of_mem hb
  have hall : g.treesFrom 0 = bs.flatMap g.treesOf ++ (before ++ t :: after) ++
      cs.flatMap g.treesOf := by
    rw [← htrees, Graph.treesFrom, hbs]
    simp
  rw [Sorted, hall, List.pairwise_append, List.pairwise_append, List.pairwise_append] at hn
  exact List.rel_of_pairwise_cons hn.1.2.1.2.1 hu

section

variable (hn : n.Sorted g) (htrees : g.treesFrom 0 = past ++ y :: future)
include hn htrees

theorem lt_of_mem_past (hz : z ∈ past) : n.index z < n.index y := by
  rw [Sorted, htrees, List.pairwise_append] at hn
  exact hn.2.2 z hz y (by simp)

theorem lt_of_mem_future (hz : z ∈ future) : n.index y < n.index z := by
  rw [Sorted, htrees, List.pairwise_append] at hn
  exact List.rel_of_pairwise_cons hn.2.1 hz

theorem mem_past_of_lt (hz : z ∈ g.treesFrom 0) (hlt : n.index z < n.index y) : z ∈ past := by
  rw [htrees, List.mem_append, List.mem_cons] at hz
  rcases hz with hz | rfl | hz
  · exact hz
  · exact absurd hlt (Nat.lt_irrefl _)
  · exact absurd hlt (Nat.not_lt_of_le (Nat.le_of_lt (hn.lt_of_mem_future htrees hz)))

end

section

variable (hn : n.Sorted g)
include hn

/-- Trees at the same place are the same tree. -/
theorem eq_of_index_eq (htrees : g.treesFrom 0 = past ++ y :: future) (hz : z ∈ g.treesFrom 0)
    (heq : n.index z = n.index y) : z = y := by
  rw [htrees, List.mem_append, List.mem_cons] at hz
  rcases hz with hz | rfl | hz
  · exact absurd heq (Nat.ne_of_lt (hn.lt_of_mem_past htrees hz))
  · rfl
  · exact absurd heq.symm (Nat.ne_of_lt (hn.lt_of_mem_future htrees hz))

/-- The tree that takes a value stands behind the tree that produces it. -/
theorem parent_spec (hg : g.Formed pending) (hu : u ∈ g.treesFrom 0)
    (hparent : g.parent u = some p) :
    p ∈ g.treesFrom 0 ∧ u ∈ p.subtrees ∧ n.index u < n.index p := by
  obtain ⟨b, hb, hub⟩ := List.mem_flatMap.mp hu
  obtain ⟨q, hq, huq, hparent'⟩ := hg.exists_parent hub (hg.isValue_of_parent hub hparent)
  rw [hparent] at hparent'
  injection hparent' with hpq
  subst hpq
  refine ⟨List.mem_flatMap.mpr ⟨b, hb, hq⟩, huq, ?_⟩
  obtain ⟨before, after, htrees⟩ := List.append_of_mem hq
  exact hn.rising.index_lt_of_mem_before hb htrees (hg.subtree_mem_before htrees huq)

/-- What stands between a value and the tree that takes it is a part of that tree. -/
theorem mem_postorder_of_between (hg : g.Formed pending) (hu : u ∈ g.treesFrom 0)
    (hparent : g.parent u = some p) (hy : y ∈ g.treesFrom 0) (huy : n.index u < n.index y)
    (hyp : n.index y < n.index p) : y ∈ p.postorder := by
  obtain ⟨hp, hup, -⟩ := hn.parent_spec hg hu hparent
  obtain ⟨xs, ys, hall⟩ := Graph.Formed.exists_segment_treesFrom hp
  rw [Sorted, hall, List.pairwise_append, List.pairwise_append] at hn
  obtain ⟨⟨-, -, hbefore⟩, -, hafter⟩ := hn
  rw [hall, List.mem_append, List.mem_append] at hy
  rcases hy with (hy | hy) | hy
  · have hlt := hbefore y hy u (Tree.mem_postorder_of_mem_subtrees hup)
    omega
  · exact hy
  · have hlt := hafter p (List.mem_append_right _ p.mem_postorder_self) y hy
    omega

/-- No tree stands between the last value that is taken and the tree that takes it. -/
theorem not_between_of_last (hp : p ∈ g.treesFrom 0) {others : List Tree}
    (hsubtrees : p.subtrees = others ++ [u]) (hy : y ∈ g.treesFrom 0)
    (huy : n.index u < n.index y) : n.index p ≤ n.index y := by
  obtain ⟨past, future, hall⟩ := Graph.exists_adjacent_treesFrom hp hsubtrees
  rw [Sorted, hall, List.pairwise_append, List.pairwise_cons, List.pairwise_cons] at hn
  obtain ⟨-, ⟨-, hafter, -⟩, hbefore⟩ := hn
  rw [hall, List.mem_append, List.mem_cons, List.mem_cons] at hy
  rcases hy with hy | rfl | rfl | hy
  · have hlt := hbefore y hy u (by simp)
    omega
  · omega
  · exact Nat.le_refl _
  · exact Nat.le_of_lt (hafter y hy)

theorem index_le_of_mem_postorder (hp : p ∈ g.treesFrom 0) (hz : z ∈ p.postorder) :
    n.index z ≤ n.index p := by
  obtain ⟨xs, ys, hall⟩ := Graph.Formed.exists_segment_treesFrom hp
  rw [Sorted, hall, Tree.postorder_eq, List.pairwise_append, List.pairwise_append,
    List.pairwise_append] at hn
  rw [Tree.postorder_eq, List.mem_append, List.mem_singleton] at hz
  rcases hz with hz | rfl
  · exact Nat.le_of_lt (hn.1.2.1.2.2 z hz p (by simp))
  · exact Nat.le_refl _

section

variable (hg : g.Formed pending) (hu : u ∈ g.treesFrom 0) (hparent : g.parent u = some p)
  (hy : y ∈ g.treesFrom 0) (huy : n.index u < n.index y) (hyp : n.index y < n.index p)
include hg hu hparent hy huy hyp

/-- A value behind which other trees stand before it is taken is the left one of two, and those
trees belong to the right one. -/
theorem left_of_between : ∃ right, p.subtrees = [u, right] ∧ y ∈ right.postorder := by
  obtain ⟨hp, hmem, -⟩ := hn.parent_spec hg hu hparent
  have hnotlast : ∀ others, p.subtrees ≠ others ++ [u] := by
    intro others hlast
    have hle := hn.not_between_of_last hp hlast hy huy
    omega
  have hright : ∃ right, p.subtrees = [u, right] := by
    have hlength := hg.subtrees_length_le hp
    match hsubtrees : p.subtrees with
    | [] => simp [hsubtrees] at hmem
    | [v] =>
        obtain rfl : u = v := by simpa [hsubtrees] using hmem
        exact absurd hsubtrees (hnotlast [])
    | [v, w] =>
        rw [hsubtrees, List.mem_cons, List.mem_singleton] at hmem
        rcases hmem with rfl | rfl
        · exact ⟨w, rfl⟩
        · exact absurd hsubtrees (hnotlast [v])
    | v :: w :: z :: others => simp [hsubtrees] at hlength
  obtain ⟨right, hsubtrees⟩ := hright
  refine ⟨right, hsubtrees, ?_⟩
  have hpost := hn.mem_postorder_of_between hg hu hparent hy huy hyp
  rw [Tree.postorder_eq, hsubtrees] at hpost
  simp only [List.flatMap_cons, List.flatMap_nil, List.append_nil, List.mem_append,
    List.mem_singleton] at hpost
  rcases hpost with (hpost | hpost) | rfl
  · have hle := hn.index_le_of_mem_postorder hu hpost
    omega
  · exact hpost
  · omega

/-- Between a value and the tree that takes it stand only trees that produce values. -/
theorem isValue_of_between : y.kind.isValue = true := by
  obtain ⟨hp, -, -⟩ := hn.parent_spec hg hu hparent
  obtain ⟨b, -, hpb⟩ := List.mem_flatMap.mp hp
  rcases Tree.eq_or_mem_subtrees (hn.mem_postorder_of_between hg hu hparent hy huy hyp) with
    rfl | ⟨q, hq, hyq⟩
  · exact absurd hyp (Nat.lt_irrefl _)
  · obtain ⟨r, hr, hpr⟩ := Graph.Formed.mem_treesOf.mp hpb
    exact hg.subtree_isValue (Graph.Formed.mem_treesOf.mpr
      ⟨r, hr, Tree.mem_postorder_trans hpr hq⟩) hyq

end

end

end Notes.Sorted

/-! ## What is noted at other trees -/

namespace Alloc

open Allocator

variable {g : Graph} {t z : Tree} {s s' : Allocator} {i j : Nat}

theorem id_ne_of_index_ne {n : Notes} (h : n.index t ≠ n.index z) : t.id ≠ z.id := by
  intro hid
  apply h
  rw [Notes.index, Notes.index, Notes.tree, Notes.tree, hid]

/-- What a spill at `t` notes at another tree: nothing, or the restore of a temporary. -/
theorem spill_tree {reg : Int} (h : spill g t i s = .ok reg s')
    (hz : s.notes.index z ≠ s.notes.index t) :
    s'.notes.tree z = s.notes.tree z ∨
      (s.interval i).owner.isTemp = true ∧ s.notes.index t < s.notes.index z ∧
        (s'.notes.tree z).spills = (s.notes.tree z).spills ∧
        (s'.notes.tree z).restores =
          (s.notes.tree z).restores ++ [{ reg := some (-1), interval := i }] := by
  have htz : t.id ≠ z.id := id_ne_of_index_ne hz.symm
  obtain ⟨use, k, rest, -, huse, -, -, rfl⟩ := spill_cases h
  have hspill : ∀ sp, (s.notes.addSpill t sp).tree z = s.notes.tree z := by
    intro sp
    rw [Notes.addSpill, Notes.tree_modifyTree, if_neg htz]
  cases use with
  | none =>
      left
      simp only [spillNotes, Notes.tree_place]
      exact hspill _
  | some use =>
      simp only [spillNotes, Notes.tree_place, Notes.addRestore, Notes.tree_modifyTree, hspill]
      split
      · next hid =>
          right
          split at huse
          · next htemp =>
              have hle := (index_of_nextUse huse.1.symm).2
              have hindex : s.notes.index use = s.notes.index z := by
                rw [Notes.index, Notes.index, Notes.tree, Notes.tree, hid]
              exact ⟨htemp, by omega, rfl, rfl⟩
          · cases huse
      · exact Or.inl rfl

/-- What is noted at trees that have been scanned stays as it is; at trees that are still to
come only restores of temporaries are added. -/
structure Leaves (t : Tree) (s s' : Allocator) : Prop where
  behind : ∀ z, s.notes.index z < s.notes.index t → s'.notes.tree z = s.notes.tree z
  spills_eq : ∀ z, s.notes.index t < s.notes.index z →
    (s'.notes.tree z).spills = (s.notes.tree z).spills
  restores_or : ∀ z, s.notes.index t < s.notes.index z → ∀ r ∈ (s'.notes.tree z).restores,
    r ∈ (s.notes.tree z).restores ∨ s.slots.length ≤ r.interval

namespace Leaves

theorem of_tree_eq (h : ∀ z, t.id ≠ z.id → s'.notes.tree z = s.notes.tree z) :
    Leaves t s s' where
  behind z hz := h z (id_ne_of_index_ne (Nat.ne_of_gt hz))
  spills_eq z hz := by rw [h z (id_ne_of_index_ne (Nat.ne_of_lt hz))]
  restores_or z hz r hr := by
    rw [h z (id_ne_of_index_ne (Nat.ne_of_lt hz))] at hr
    exact Or.inl hr

theorem trans {s₁ : Allocator} (h : Leaves t s s₁) (h' : Leaves t s₁ s')
    (hext : s.Continues s₁) : Leaves t s s' where
  behind z hz := by
    have hz' : s₁.notes.index z < s₁.notes.index t := by rwa [hext.index_eq, hext.index_eq]
    rw [h'.behind z hz', h.behind z hz]
  spills_eq z hz := by
    have hz' : s₁.notes.index t < s₁.notes.index z := by rwa [hext.index_eq, hext.index_eq]
    rw [h'.spills_eq z hz', h.spills_eq z hz]
  restores_or z hz r hr := by
    have hz' : s₁.notes.index t < s₁.notes.index z := by rwa [hext.index_eq, hext.index_eq]
    rcases h'.restores_or z hz' r hr with hr | hr
    · exact h.restores_or z hz r hr
    · exact Or.inr (hext.slots_eq ▸ hr)

end Leaves

theorem spill_leaves (hs : s.Orderly g) (hi : i < s.notes.intervalCount) {reg : Int}
    (h : spill g t i s = .ok reg s') : Leaves t s s' where
  behind z hz := by
    rcases spill_tree h (Nat.ne_of_lt hz) with heq | ⟨-, hlt, -⟩
    · exact heq
    · omega
  spills_eq z hz := by
    rcases spill_tree h (Nat.ne_of_gt hz) with heq | ⟨-, -, hspills, -⟩
    · rw [heq]
    · exact hspills
  restores_or z hz r hr := by
    rcases spill_tree h (Nat.ne_of_gt hz) with heq | ⟨htemp, -, -, hrestores⟩
    · rw [heq] at hr
      exact Or.inl hr
    · rw [hrestores, List.mem_append, List.mem_singleton] at hr
      refine hr.imp_right ?_
      rintro rfl
      exact (hs.isTemp_iff hi).mp htemp

theorem Activated.leaves (hs : s.Orderly g) (h : Activated g t i s s') : Leaves t s s' := by
  cases h with
  | already => exact .of_tree_eq fun _ _ => rfl
  | free number filled n hlive hchoose hreload hfilled =>
      refine .of_tree_eq fun z hz => ?_
      rcases hreload.notes_cases with rfl | ⟨-, rfl⟩
      · rfl
      · rw [Notes.tree_place, Notes.addRestore, Notes.tree_modifyTree, if_neg hz]
  | evicted use v reg k s₁ hlive hchoose huse hvictim hspill hk =>
      have hleaves := spill_leaves hs (hs.active_lt v (mem_active_of_victim hvictim)) hspill
      exact hleaves.trans (.of_tree_eq fun _ _ => rfl) (extends_spill hspill).toContinues

theorem clearFor_leaves (hs : s.Orderly g) {reg : Int} (h : clearFor g t reg s = .ok () s') :
    Leaves t s s' := by
  obtain ⟨k, -, ⟨-, rfl⟩ | ⟨j, hj, ⟨-, rest, -, rfl⟩ | ⟨-, old, hspill⟩⟩⟩ := clearFor_cases h
  · exact .of_tree_eq fun _ _ => rfl
  · exact .of_tree_eq fun _ _ => rfl
  · exact spill_leaves hs (hs.occupied_lt k j (Option.join_eq_some_iff.mp hj)) hspill

theorem Move.leaves {phase : Phase} (hs : s.Orderly g) (h : Move g t phase s s') :
    Leaves t s s' := by
  cases h with
  | turn _ tree reuse => exact .of_tree_eq fun _ _ => rfl
  | release hsifted =>
      exact .of_tree_eq fun z _ => hsifted.tree_eq z
  | carrySpill sp reg k rest hsp hlive hrest hk => exact .of_tree_eq fun _ _ => rfl
  | annotate f hindex hspills hrestores hreg =>
      refine .of_tree_eq fun z hz => ?_
      rw [Notes.tree_modifyTree, if_neg hz]
  | create p hparent => exact .of_tree_eq fun _ _ => rfl
  | settle i value rest hkind hslot hvalue hlive hsettle =>
      obtain ⟨s₁, s₂, k, hclear, hunseated, hk, rfl⟩ := settle_cases hsettle
      refine (clearFor_leaves hs hclear).trans (.of_tree_eq fun z _ => ?_)
        (extends_clearFor hclear).toContinues
      cases hunseated with
      | moved => rfl
      | entered => rfl

theorem Moves.leaves {phase : Phase} {rs : List (Allocator × IntervalId)}
    (h : Moves g t phase rs s s') (hs : s.Orderly g)
    (hsubtrees : ∀ u ∈ t.subtrees, 0 ≤ s.notes.reg u) : Leaves t s s' := by
  induction h with
  | nil s => exact .of_tree_eq fun _ _ => rfl
  | move hmove _ ih =>
      have hrest := ih (hmove.orderly hs hsubtrees)
        fun u hu => hmove.reg_nonneg hs (hsubtrees u hu)
      exact (hmove.leaves hs).trans hrest hmove.extends.toContinues
  | activate hreq hactivated _ ih =>
      have hrest := ih (hactivated.orderly hs (hreq.lt hs))
        fun u hu => (hactivated.reg_eq u).symm ▸ hsubtrees u hu
      exact (hactivated.leaves hs).trans hrest hactivated.extends.toContinues

end Alloc

/-! ## The invariants -/

namespace Allocator

/-- The temporaries are the results of constants and operations among the trees `born`,
one for each. -/
structure Temporaries (g : Graph) (born : List Tree) (s : Allocator) : Prop where
  owner_mem : ∀ (i : Nat) u, i < s.notes.intervalCount → (s.interval i).owner = .temp u → u ∈ born
  writes_eq : ∀ (i : Nat) u, i < s.notes.intervalCount → (s.interval i).owner = .temp u →
    (s.interval i).writes = [u]
  owner_inj : ∀ (i j : Nat) u, i < s.notes.intervalCount → j < s.notes.intervalCount →
    (s.interval i).owner = .temp u → (s.interval j).owner = .temp u → i = j
  created : ∀ u ∈ born, u.kind = .const ∨ u.kind = .binOp →
    ∃ i : Nat, i < s.notes.intervalCount ∧ (s.interval i).owner = .temp u
  kind_ne : ∀ (i : Nat) u, i < s.notes.intervalCount → (s.interval i).owner = .temp u →
    u.kind ≠ .ldLocal

/-- Each temporary is where it should be when the trees `past` have taken their operands: it
is active, or on its one detour, which started at one of the trees `seen`.  The intervals
`back` have been brought back already. -/
def Kept (g : Graph) (past seen : List Tree) (back : List IntervalId) (s : Allocator) : Prop :=
  ∀ (i : Nat) u p, i < s.notes.intervalCount → (s.interval i).owner = .temp u →
    g.parent u = some p →
    ∃ out, s.notes.Detour i p out ∧
      (∀ x, out = some x → x ∈ seen ∧ s.notes.index u < s.notes.index x ∧
        s.notes.index x < s.notes.index p) ∧
      (p ∉ past → if out ≠ none ∧ i ∉ back then (s.interval i).liveIn = none else i ∈ s.active)

/-- At the trees that are still to come no spill is noted, and only temporaries are to be
restored. -/
def Ahead (g : Graph) (past : List Tree) (s : Allocator) : Prop :=
  ∀ z ∈ g.treesFrom 0, z ∉ past → (s.notes.tree z).spills = [] ∧
    ∀ r ∈ (s.notes.tree z).restores, s.slots.length ≤ r.interval

namespace Temporaries

variable {g : Graph} {born born' : List Tree} {s s' : Allocator}

theorem congr (h : s.Temporaries g born) (hext : s.Continues s')
    (hcount : s'.notes.intervalCount = s.notes.intervalCount) : s'.Temporaries g born where
  owner_mem i u hi howner := by
    rw [hcount] at hi
    rw [hext.owner_eq hi] at howner
    exact h.owner_mem i u hi howner
  writes_eq i u hi howner := by
    rw [hcount] at hi
    rw [hext.owner_eq hi] at howner
    rw [hext.writes_eq hi]
    exact h.writes_eq i u hi howner
  owner_inj i j u hi hj howner howner' := by
    rw [hcount] at hi hj
    rw [hext.owner_eq hi] at howner
    rw [hext.owner_eq hj] at howner'
    exact h.owner_inj i j u hi hj howner howner'
  created u hu hkind := by
    obtain ⟨i, hi, howner⟩ := h.created u hu hkind
    exact ⟨i, hcount ▸ hi, (hext.owner_eq hi).trans howner⟩
  kind_ne i u hi howner := by
    rw [hcount] at hi
    rw [hext.owner_eq hi] at howner
    exact h.kind_ne i u hi howner

/-- A tree that is no constant and no operation has no temporary. -/
theorem skip (h : s.Temporaries g born) {y : Tree} (hy : y.kind ≠ .const ∧ y.kind ≠ .binOp) :
    s.Temporaries g (born ++ [y]) where
  owner_mem i u hi howner := List.mem_append_left _ (h.owner_mem i u hi howner)
  writes_eq := h.writes_eq
  owner_inj := h.owner_inj
  created u hu hkind := by
    rcases List.mem_append.mp hu with hu | hu
    · exact h.created u hu hkind
    · obtain rfl : u = y := by simpa using hu
      rcases hkind with hkind | hkind
      · exact absurd hkind hy.1
      · exact absurd hkind hy.2
  kind_ne := h.kind_ne

/-- The result of a new tree. -/
theorem create (h : s.Temporaries g born) {y : Tree} (hy : y ∉ born)
    (hload : y.kind ≠ .ldLocal) (p : Tree) :
    ({ s with notes := s.notes.addInterval (Alloc.tempOf s.notes y p) } : Allocator).Temporaries
      g (born ++ [y]) := by
  have hnew := s.notes.interval_addInterval_self (Alloc.tempOf s.notes y p)
  have hold : ∀ {i : Nat}, i < s.notes.intervalCount →
      (s.notes.addInterval (Alloc.tempOf s.notes y p)).interval i = s.interval i :=
    fun hi => s.notes.interval_addInterval_of_lt _ hi
  have hcases : ∀ {i : Nat}, i < s.notes.intervalCount + 1 →
      i < s.notes.intervalCount ∨ i = s.notes.intervalCount := fun hi => by omega
  constructor
  · intro i u hi howner
    rcases hcases hi with hi | rfl
    · rw [interval, hold hi] at howner
      exact List.mem_append_left _ (h.owner_mem i u hi howner)
    · rw [interval, hnew] at howner
      injection howner with howner
      simp [← howner]
  · intro i u hi howner
    rcases hcases hi with hi | rfl
    · rw [interval, hold hi] at howner ⊢
      exact h.writes_eq i u hi howner
    · rw [interval, hnew] at howner ⊢
      injection howner with howner
      simp [Alloc.tempOf, howner]
  · intro i j u hi hj howner howner'
    rcases hcases hi with hi | rfl <;> rcases hcases hj with hj | rfl
    · rw [interval, hold hi] at howner
      rw [interval, hold hj] at howner'
      exact h.owner_inj i j u hi hj howner howner'
    · rw [interval, hold hi] at howner
      rw [interval, hnew] at howner'
      injection howner' with howner'
      exact absurd (howner' ▸ h.owner_mem i u hi howner) hy
    · rw [interval, hold hj] at howner'
      rw [interval, hnew] at howner
      injection howner with howner
      exact absurd (howner ▸ h.owner_mem j u hj howner') hy
    · rfl
  · intro u hu hkind
    rcases List.mem_append.mp hu with hu | hu
    · obtain ⟨i, hi, howner⟩ := h.created u hu hkind
      refine ⟨i, Nat.lt_succ_of_lt hi, ?_⟩
      rw [interval, hold hi]
      exact howner
    · obtain rfl : u = y := by simpa using hu
      refine ⟨s.notes.intervalCount, Nat.lt_succ_self _, ?_⟩
      rw [interval, hnew]
      rfl
  · intro i u hi howner
    rcases hcases hi with hi | rfl
    · rw [interval, hold hi] at howner
      exact h.kind_ne i u hi howner
    · rw [interval, hnew] at howner
      injection howner with howner
      exact howner ▸ hload

end Temporaries
end Allocator

/-! ## What becomes of one temporary -/

namespace Alloc

open Allocator

variable {g : Graph} {past seen : List Tree} {back back' : List IntervalId} {s s' : Allocator}

/-- What may become of the temporary `j` of the tree `u`, which `p` takes. -/
inductive Tended (past seen : List Tree) (back back' : List IntervalId) (s s' : Allocator)
    (j : IntervalId) (u p : Tree) : Prop
  /-- It stays where it is, unless its value has been taken. -/
  | stays (hmarks : s.notes.SameMarks s'.notes j) (hback : j ∈ back' → j ∈ back)
      (hstays : p ∉ past → Stayed j s s')
  /-- It is brought back. -/
  | returns (hmarks : s.notes.SameMarks s'.notes j) (hback : j ∈ back') (hactive : j ∈ s'.active)
  /-- It sets out at the tree `x`. -/
  | leaves (x : Tree) (hx : x ∈ seen) (hux : s.notes.index u < s.notes.index x)
      (hxp : s.notes.index x < s.notes.index p) (hpast : p ∉ past) (hback : j ∉ back)
      (hback' : j ∉ back') (huse : s.notes.nextUse j (s.notes.index x) = some p)
      (hevicted : Evicted x j s s')

/-- If each temporary is tended and a new one is active, they are all kept. -/
theorem Kept.tended (hkept : s.Kept g past seen back) (hext : s.Continues s')
    (hsub : back ⊆ back')
    (hold : ∀ (j : Nat) u p, j < s.notes.intervalCount → (s.interval j).owner = .temp u →
      g.parent u = some p → Tended past seen back back' s s' j u p)
    (hnew : ∀ (j : Nat) p, s.notes.intervalCount ≤ j → j < s'.notes.intervalCount →
      s'.notes.Detour j p none ∧ j ∈ s'.active) :
    s'.Kept g past seen back' := by
  intro j u p hj howner hparent
  by_cases hlt : j < s.notes.intervalCount
  · rw [hext.owner_eq hlt] at howner
    obtain ⟨out, hdetour, hout, hplace⟩ := hkept j u p hlt howner hparent
    simp only [hext.index_eq]
    cases hold j u p hlt howner hparent with
    | stays hmarks hback hstays =>
        refine ⟨out, hmarks.detour hdetour, hout, fun hp => ?_⟩
        have hstayed := hstays hp
        have hiff : (out ≠ none ∧ j ∉ back') ↔ out ≠ none ∧ j ∉ back :=
          and_congr_right fun _ => not_congr ⟨hback, fun h => hsub h⟩
        have hplace := hplace hp
        simp only [hiff, hstayed.active_iff, hstayed.liveIn_eq]
        exact hplace
    | returns hmarks hback hactive =>
        refine ⟨out, hmarks.detour hdetour, hout, fun _ => ?_⟩
        rw [if_neg (by simp [hback])]
        exact hactive
    | leaves x hx hux hxp hpast hback hback' huse hevicted =>
        obtain ⟨reg, use, hlive, hnoted, hmarks⟩ := hevicted.noted
        -- It was active, so it has not set out before.
        have hnone : out = none := by
          by_contra hsome
          have hplace := hplace hpast
          rw [if_pos ⟨hsome, hback⟩, hlive] at hplace
          cases hplace
        subst hnone
        simp only [howner, Owner.isTemp, if_true, huse] at hnoted
        rw [hnoted.1] at hmarks
        refine ⟨some x, hmarks.detour (Notes.detour_spillNotes hdetour reg), ?_, fun _ => ?_⟩
        · intro x' hx'
          injection hx' with hx'
          exact hx' ▸ ⟨hx, hux, hxp⟩
        · rw [if_pos ⟨by simp, hback'⟩]
          exact hevicted.liveIn_eq
  · obtain ⟨hdetour, hactive⟩ := hnew j p (Nat.le_of_not_lt hlt) hj
    refine ⟨none, hdetour, ?_, fun _ => by simpa using hactive⟩
    intro x hx
    cases hx

end Alloc
end LinearScan
