import LinearScan.Proofs.Keeping

/-!
# No temporary is lost

The step lemmas for the scan of a tree are carried along a whole run, from tree to tree and
from block to block.  No temporary crosses from one block to another, since a value is taken
in the block in which it is produced.  What is noted at a tree is fixed once the tree has been
scanned, so that the notes at the end of the run can be compared with the states on the way.
-/

namespace LinearScan

open Allocator

namespace Alloc

variable {g : Graph} {pending past before after ts rest : List Tree} {b : BlockId}
  {s s₁ s' fin : Allocator} {xs ys : List Step}

/-! ## The trees of a block -/

theorem treesFrom_of_treesOf {t : Tree} (hblock : g.treesFrom 0 = past ++ (g.treesOf b ++ rest))
    (htrees : g.treesOf b = before ++ t :: ts) :
    g.treesFrom 0 = (past ++ before) ++ t :: (ts ++ rest) := by
  rw [hblock, htrees]
  simp

section

variable (hg : g.Formed pending) (hblock : g.treesFrom 0 = past ++ (g.treesOf b ++ rest))
  (hscan : s.Scanning g before) (hrest : Rested g (past ++ before) s)
  (htrees : g.treesOf b = before ++ ts)
include hg hblock hscan hrest htrees

theorem scanTrees_rested (h : scanTrees g ts s = .ok () s') :
    Rested g (past ++ g.treesOf b) s' ∧
      ∀ z ∈ past ++ before, s'.notes.tree z = s.notes.tree z := by
  induction ts generalizing s before with
  | nil =>
      obtain ⟨-, rfl⟩ := pure_cases h
      rw [List.append_nil] at htrees
      exact ⟨htrees ▸ hrest, fun _ _ => rfl⟩
  | cons t ts ih =>
      obtain ⟨⟨⟩, s₁, hfirst, hlast⟩ := exists_of_bind_apply_eq_ok h
      have hall := treesFrom_of_treesOf hblock htrees
      have hsubtrees := Scanning.subtrees_reg hg hscan htrees
      have hrest₁ := (scanTree_rested hg hall hrest hsubtrees hfirst).1
      rw [List.append_assoc] at hrest₁
      have hleaves := (scanTree_moves hg.twins_eq hfirst).leaves hrest.orderly hsubtrees
      obtain ⟨hrest', hfixed⟩ := ih (scanTree_scanning hg hscan htrees hfirst) hrest₁
        (by simp [htrees]) hlast
      refine ⟨hrest', ?_⟩
      intro z hz
      rw [hfixed z (by rw [← List.append_assoc]; exact List.mem_append_left _ hz)]
      exact hleaves.behind z (hrest.sorted.lt_of_mem_past hall hz)

theorem scanTrees_error {fault : Fault} (h : scanTrees g ts s = .error fault s') :
    fault.OfMove := by
  induction ts generalizing s before with
  | nil => cases h
  | cons t ts ih =>
      have hall := treesFrom_of_treesOf hblock htrees
      have hsubtrees := Scanning.subtrees_reg hg hscan htrees
      rcases bind_apply_eq_error_iff.mp h with hfirst | ⟨⟨⟩, s₁, hfirst, hlast⟩
      · exact scanTree_error hg hall hrest hsubtrees hfirst
      · have hrest₁ := (scanTree_rested hg hall hrest hsubtrees hfirst).1
        rw [List.append_assoc] at hrest₁
        exact ih (scanTree_scanning hg hscan htrees hfirst) hrest₁ (by simp [htrees]) hlast

end

/-! ## Along a trace -/

/-- The steps keep the temporaries when the trees `past` have been scanned before: at the end
of each the invariant holds, what was noted so far stays up to the state `fin`, and a tree
that takes operands finds them active after its restores. -/
def Keeping (g : Graph) (fin : Allocator) : List Tree → List Step → Prop
  | _, [] => True
  | past, x :: xs =>
      Rested g (past ++ [x.tree]) x.after ∧
        (x.after.Continues fin ∧
          ∀ z ∈ past ++ [x.tree], fin.notes.tree z = x.after.notes.tree z) ∧
        (∀ y ∈ xs.head?, y.tree.subtrees ≠ [] → ∃ s₁,
          recover g y.tree x.after = .ok () s₁ ∧ OperandsActive g y.tree x.after s₁) ∧
        Keeping g fin (past ++ [x.tree]) xs

theorem Keeping.append (hxs : Keeping g fin past xs)
    (hys : Keeping g fin (past ++ xs.map Step.tree) ys)
    (hhead : ∀ y ∈ ys.head?, y.tree.subtrees = []) : Keeping g fin past (xs ++ ys) := by
  induction xs generalizing past with
  | nil => simpa using hys
  | cons x xs ih =>
      obtain ⟨hrest, hfixed, hnext, hkeeping⟩ := hxs
      refine ⟨hrest, hfixed, ?_, ih hkeeping (by simpa using hys)⟩
      cases xs with
      | nil =>
          intro y hy hne
          exact absurd (hhead y hy) hne
      | cons y xs => exact hnext

/-- What holds at the end of one step. -/
theorem Keeping.split (h : Keeping g fin past xs) {pre post : List Step} {x : Step}
    (hxs : xs = pre ++ x :: post) :
    Rested g (past ++ pre.map Step.tree ++ [x.tree]) x.after ∧
      (x.after.Continues fin ∧ ∀ z ∈ past ++ pre.map Step.tree ++ [x.tree],
        fin.notes.tree z = x.after.notes.tree z) ∧
      (∀ y ∈ post.head?, y.tree.subtrees ≠ [] → ∃ s₁,
        recover g y.tree x.after = .ok () s₁ ∧ OperandsActive g y.tree x.after s₁) := by
  subst hxs
  induction pre generalizing past with
  | nil =>
      obtain ⟨hrest, hfixed, hnext, -⟩ := h
      rw [List.map_nil, List.append_nil]
      exact ⟨hrest, hfixed, hnext⟩
  | cons w pre ih =>
      obtain ⟨-, -, -, hkeeping⟩ := h
      have hassoc : past ++ (w :: pre).map Step.tree = past ++ [w.tree] ++ pre.map Step.tree := by
        simp
      rw [hassoc]
      exact ih hkeeping

theorem traceTrees_map (h : scanTrees g ts s = .ok () s') :
    (traceTrees g ts s).map Step.tree = ts := by
  induction ts generalizing s with
  | nil => rfl
  | cons t ts ih =>
      obtain ⟨⟨⟩, s₁, hfirst, hlast⟩ := exists_of_bind_apply_eq_ok h
      rw [traceTrees, hfirst, List.map_cons, ih hlast]

theorem traceTrees_keeping (hg : g.Formed pending)
    (hblock : g.treesFrom 0 = past ++ (g.treesOf b ++ rest)) (hscan : s.Scanning g before)
    (hrest : Rested g (past ++ before) s) (htrees : g.treesOf b = before ++ ts)
    (h : scanTrees g ts s = .ok () s') (hcontinues : s'.Continues fin)
    (hfin : ∀ z ∈ past ++ g.treesOf b, fin.notes.tree z = s'.notes.tree z) :
    Keeping g fin (past ++ before) (traceTrees g ts s) := by
  induction ts generalizing s before with
  | nil => trivial
  | cons t ts ih =>
      obtain ⟨⟨⟩, s₁, hfirst, hlast⟩ := exists_of_bind_apply_eq_ok h
      have hall := treesFrom_of_treesOf hblock htrees
      have hsubtrees := Scanning.subtrees_reg hg hscan htrees
      have hrest₁ := (scanTree_rested hg hall hrest hsubtrees hfirst).1
      have hscan₁ := scanTree_scanning hg hscan htrees hfirst
      have htrees₁ : g.treesOf b = (before ++ [t]) ++ ts := by simp [htrees]
      have hassoc : past ++ before ++ [t] = past ++ (before ++ [t]) := by simp
      rw [traceTrees, hfirst]
      refine ⟨hrest₁, ⟨?_, ?_⟩, ?_, ?_⟩
      · exact (scanTrees_scanning hg hscan₁ htrees₁ hlast).2.toContinues.trans hcontinues
      · intro z hz
        rw [hassoc] at hz hrest₁
        rw [hfin z, (scanTrees_rested hg hblock hscan₁ hrest₁ htrees₁ hlast).2 z hz]
        rw [htrees₁, ← List.append_assoc]
        exact List.mem_append_left _ hz
      · cases ts with
        | nil =>
            intro y hy
            cases hy
        | cons u ts =>
            obtain ⟨⟨⟩, s₂, hsecond, -⟩ := exists_of_bind_apply_eq_ok hlast
            intro y hy _
            rw [traceTrees, hsecond] at hy
            injection hy with hy
            subst hy
            have hall₁ : g.treesFrom 0 = (past ++ before ++ [t]) ++ u :: (ts ++ rest) := by
              rw [hall]
              simp
            exact (scanTree_rested hg hall₁ hrest₁
              (Scanning.subtrees_reg hg hscan₁ htrees₁) hsecond).2
      · show Keeping g fin (past ++ before ++ [t]) (traceTrees g ts s₁)
        rw [hassoc] at hrest₁ ⊢
        exact ih hscan₁ hrest₁ htrees₁ hlast

/-! ## Between blocks -/

/-- Where every value has been taken, the registers do not matter to the temporaries. -/
theorem Rested.boundary (hrest : Rested g past s) (hs : s'.Orderly g) (hext : s.Continues s')
    (hcount : s'.notes.intervalCount = s.notes.intervalCount)
    (htree : ∀ x, s'.notes.tree x = s.notes.tree x)
    (htaken : ∀ u ∈ past, ∀ p, g.parent u = some p → p ∈ past) : Rested g past s' where
  orderly := hs
  sorted := hrest.sorted.congr hext.index_eq
  temps := hrest.temps.congr hext hcount
  kept := by
    refine Kept.tended hrest.kept hext (List.Subset.refl _) ?_ ?_
    · intro j u p hj howner hparent
      refine .stays (.of_tree_eq htree j) id fun hp => ?_
      exact absurd (htaken u (hrest.temps.owner_mem j u hj howner) p hparent) hp
    · intro j p hle hlt
      exact absurd (hcount ▸ hlt) (Nat.not_lt_of_le hle)
  ahead z hz hnot := by
    rw [htree, hext.slots_eq]
    exact hrest.ahead z hz hnot

theorem Seated.notes_eq {cs : List Crossing} (h : Seated cs s s') :
    s'.notes.intervalCount = s.notes.intervalCount ∧ ∀ x, s'.notes.tree x = s.notes.tree x := by
  induction h with
  | nil => exact ⟨rfl, fun _ => rfl⟩
  | cons _ _ ih => exact ih

theorem enter_notes (h : enter b s = .ok () s') :
    s'.notes.intervalCount = s.notes.intervalCount ∧ ∀ x, s'.notes.tree x = s.notes.tree x := by
  have hcount : (cleared { s with block := some b }).notes.intervalCount = s.notes.intervalCount :=
    Notes.intervalCount_evacuate _ _
  have htree : ∀ x, (cleared { s with block := some b }).notes.tree x = s.notes.tree x :=
    Notes.tree_evacuate _ _
  rcases enter_cases h with ⟨-, rfl⟩ | ⟨crossings, s₁, -, -, hseated, rfl⟩
  · exact ⟨hcount, htree⟩
  · obtain ⟨hcount₁, htree₁⟩ := hseated.notes_eq
    dsimp only [withEntry, Notes.modifyBlock]
    exact ⟨hcount₁.trans hcount, fun x => (htree₁ x).trans (htree x)⟩

theorem depart_notes (h : depart b s = .ok () s') :
    s'.notes.intervalCount = s.notes.intervalCount ∧ ∀ x, s'.notes.tree x = s.notes.tree x := by
  obtain ⟨kept, s₁, hsifted, rfl⟩ := depart_cases h
  exact ⟨hsifted.count_eq, hsifted.tree_eq⟩

/-! ## Blocks -/

section Blocks

variable {s₀ : Allocator} {scanned bs : List BlockId}

theorem treesFrom_split (hsplit : g.blocksFrom 0 = scanned ++ b :: bs) :
    g.treesFrom 0 = scanned.flatMap g.treesOf ++ (g.treesOf b ++ bs.flatMap g.treesOf) := by
  rw [Graph.treesFrom, hsplit, List.flatMap_append, List.flatMap_cons]

section

variable (hg : g.Formed pending)
include hg

/-- A value is taken in the block in which it is produced. -/
theorem parent_mem_flatMap (scanned : List BlockId) :
    ∀ u ∈ scanned.flatMap g.treesOf, ∀ p, g.parent u = some p → p ∈ scanned.flatMap g.treesOf := by
  intro u hu p hparent
  obtain ⟨c, hc, huc⟩ := List.mem_flatMap.mp hu
  obtain ⟨q, hq, -, hparent'⟩ := hg.exists_parent huc (hg.isValue_of_parent huc hparent)
  rw [hparent] at hparent'
  injection hparent' with hpq
  exact List.mem_flatMap.mpr ⟨c, hc, hpq ▸ hq⟩

theorem enter_rested (hs : HasScanned g s₀ scanned s)
    (hrest : Rested g (scanned.flatMap g.treesOf) s) (h : enter b s = .ok () s₁) :
    Rested g (scanned.flatMap g.treesOf) s₁ ∧ s₁.Scanning g [] := by
  have hentered := enter_entered hs.orderly (HasScanned.exits hs) h
  obtain ⟨hcount, htree⟩ := enter_notes h
  exact ⟨hrest.boundary hentered.orderly hentered.continues hcount htree
    (parent_mem_flatMap hg scanned), hentered.orderly, by simp⟩

theorem scanBlock_rested (hsplit : g.blocksFrom 0 = scanned ++ b :: bs)
    (hs : HasScanned g s₀ scanned s) (hrest : Rested g (scanned.flatMap g.treesOf) s)
    (h : scanBlock g b s = .ok () s') :
    Rested g ((scanned ++ [b]).flatMap g.treesOf) s' ∧
      (s.Continues s' ∧ ∀ z ∈ scanned.flatMap g.treesOf, s'.notes.tree z = s.notes.tree z) ∧
      ∃ s₁, enter b s = .ok () s₁ ∧ (traceTrees g (g.treesOf b) s₁).map Step.tree = g.treesOf b ∧
        (∀ fin : Allocator, s'.Continues fin →
          (∀ z ∈ (scanned ++ [b]).flatMap g.treesOf, fin.notes.tree z = s'.notes.tree z) →
          Keeping g fin (scanned.flatMap g.treesOf) (traceTrees g (g.treesOf b) s₁)) := by
  obtain ⟨s₁, s₂, henter, htrees, hdepart⟩ := scanBlock_cases h
  obtain ⟨hrest₁, hscan₁⟩ := enter_rested hg hs hrest henter
  have hblock := treesFrom_split hsplit
  have hdone : (scanned ++ [b]).flatMap g.treesOf = scanned.flatMap g.treesOf ++ g.treesOf b := by
    simp
  have hstart : Rested g (scanned.flatMap g.treesOf ++ []) s₁ := by rwa [List.append_nil]
  obtain ⟨hrest₂, hfixed⟩ := scanTrees_rested hg hblock hscan₁ hstart rfl htrees
  obtain ⟨hscan₂, hext⟩ := scanTrees_scanning hg hscan₁ (b := b) rfl htrees
  have hdeparted := depart_departed hscan₂.orderly hdepart
  obtain ⟨hcount, htree⟩ := depart_notes hdepart
  rw [← hdone] at hrest₂
  rw [List.append_nil] at hfixed
  refine ⟨hrest₂.boundary hdeparted.orderly hdeparted.continues hcount htree
    (parent_mem_flatMap hg _), ⟨?_, ?_⟩, s₁, henter, traceTrees_map htrees, ?_⟩
  · exact (enter_entered hs.orderly (HasScanned.exits hs) henter).continues.trans
      (hext.toContinues.trans hdeparted.continues)
  · intro z hz
    rw [htree, hfixed z hz, (enter_notes henter).2]
  · intro fin hcontinues hfin
    have hfin₂ : ∀ z ∈ scanned.flatMap g.treesOf ++ g.treesOf b,
        fin.notes.tree z = s₂.notes.tree z := by
      intro z hz
      rw [hfin z (hdone ▸ hz), htree]
    have hkeeping := traceTrees_keeping hg hblock hscan₁ hstart rfl htrees
      (hdeparted.continues.trans hcontinues) hfin₂
    rwa [List.append_nil] at hkeeping

theorem subtrees_head_traceBlocks (bs : List BlockId) (s : Allocator) :
    ∀ y ∈ (traceBlocks g bs s).head?, y.tree.subtrees = [] := by
  induction bs generalizing s with
  | nil =>
      intro y hy
      cases hy
  | cons b bs ih =>
      rw [traceBlocks]
      cases henter : enter b s with
      | error fault s₁ =>
          intro y hy
          cases hy
      | ok value s₁ =>
          dsimp only
          cases htrees : g.treesOf b with
          | nil =>
              rw [traceTrees, List.nil_append]
              cases hscan : scanBlock g b s with
              | error fault s' =>
                  intro y hy
                  cases hy
              | ok value s' => exact ih s'
          | cons t ts =>
              rw [traceTrees]
              cases hfirst : scanTree g t s₁ with
              | error fault s₂ =>
                  -- The block is not scanned to its end.
                  have hstop : ∀ s', scanBlock g b s ≠ .ok () s' := by
                    intro s' hscan
                    obtain ⟨s₃, s₄, henter', hrun, -⟩ := scanBlock_cases hscan
                    rw [henter] at henter'
                    injection henter' with _ heq
                    subst heq
                    rw [htrees] at hrun
                    obtain ⟨⟨⟩, s₅, hfirst', -⟩ := exists_of_bind_apply_eq_ok hrun
                    rw [hfirst] at hfirst'
                    cases hfirst'
                  cases hscan : scanBlock g b s with
                  | error fault s' =>
                      intro y hy
                      cases hy
                  | ok value s' => exact absurd hscan (hstop s')
              | ok value s₂ =>
                  intro y hy
                  injection hy with hy
                  subst hy
                  refine List.eq_nil_iff_forall_not_mem.mpr fun u hu => ?_
                  have hbefore : u ∈ [] := hg.subtree_mem_before htrees hu
                  cases hbefore

section

variable (hsplit : g.blocksFrom 0 = scanned ++ bs) (hs : HasScanned g s₀ scanned s)
  (hrest : Rested g (scanned.flatMap g.treesOf) s)
include hsplit hs hrest

/-- The temporaries are kept from block to block. -/
theorem scanBlocks_rested (h : scanBlocks g bs s = .ok () s') :
    Rested g (g.treesFrom 0) s' ∧
      (s.Continues s' ∧ ∀ z ∈ scanned.flatMap g.treesOf, s'.notes.tree z = s.notes.tree z) ∧
      (traceBlocks g bs s).map Step.tree = bs.flatMap g.treesOf ∧
      Keeping g s' (scanned.flatMap g.treesOf) (traceBlocks g bs s) := by
  induction bs generalizing s scanned with
  | nil =>
      obtain ⟨-, rfl⟩ := pure_cases h
      rw [List.append_nil] at hsplit
      rw [Graph.treesFrom, hsplit]
      exact ⟨hrest, ⟨.refl s', fun _ _ => rfl⟩, rfl, trivial⟩
  | cons b bs ih =>
      obtain ⟨⟨⟩, s₁, hfirst, hlast⟩ := exists_of_bind_apply_eq_ok h
      have hb : b ∉ scanned := hg.not_mem_of_blocksFrom_eq hsplit
      have hsplit₁ : g.blocksFrom 0 = (scanned ++ [b]) ++ bs := by simp [hsplit]
      obtain ⟨hrest₁, ⟨hcontinues₁, hfixed₁⟩, s₂, henter, hmap, hkeeping₁⟩ :=
        scanBlock_rested hg hsplit hs hrest hfirst
      obtain ⟨hrest', ⟨hcontinues, hfixed⟩, hmap', hkeeping⟩ :=
        ih hsplit₁ (scanBlock_hasScanned hg hs hb hfirst) hrest₁ hlast
      have hsub : ∀ z ∈ scanned.flatMap g.treesOf, z ∈ (scanned ++ [b]).flatMap g.treesOf := by
        intro z hz
        simp [List.mem_flatMap.mp hz]
      refine ⟨hrest', ⟨hcontinues₁.trans hcontinues, ?_⟩, ?_, ?_⟩
      · intro z hz
        rw [hfixed z (hsub z hz), hfixed₁ z hz]
      · rw [traceBlocks, henter, hfirst]
        dsimp only
        rw [List.map_append, hmap, hmap', List.flatMap_cons]
      · rw [traceBlocks, henter, hfirst]
        refine Keeping.append (hkeeping₁ s' hcontinues hfixed) ?_
          (subtrees_head_traceBlocks hg bs s₁)
        rw [hmap]
        simpa using hkeeping

/-- The scan of blocks stops for no failed check. -/
theorem scanBlocks_error {fault : Fault} (h : scanBlocks g bs s = .error fault s') :
    fault.OfMove ∨ fault = .noExitSet := by
  induction bs generalizing s scanned with
  | nil => cases h
  | cons b bs ih =>
      have hb : b ∉ scanned := hg.not_mem_of_blocksFrom_eq hsplit
      rcases bind_apply_eq_error_iff.mp h with hfirst | ⟨⟨⟩, s₁, hfirst, hlast⟩
      · rcases bind_apply_eq_error_iff.mp hfirst with henter | ⟨⟨⟩, s₁, henter, hrun⟩
        · exact ((confined_enter Fault.admits_self b).cause henter).ofMove_or
        · obtain ⟨hrest₁, hscan₁⟩ := enter_rested hg hs hrest henter
          left
          rcases bind_apply_eq_error_iff.mp hrun with htrees | ⟨⟨⟩, s₂, -, hdepart⟩
          · have hblock := treesFrom_split hsplit
            exact scanTrees_error hg hblock hscan₁ (by rwa [List.append_nil]) rfl htrees
          · exact ((confined_depart Fault.admits_self b).cause hdepart).ofMove
      · exact ih (by simp [hsplit]) (scanBlock_hasScanned hg hs hb hfirst)
          (scanBlock_rested hg hsplit hs hrest hfirst).1 hlast

end

end

end Blocks

/-- Before the first block is scanned. -/
theorem survey_rested {ir : Ir} {n : Notes} {size : Int} {reuse : Bool} (hn : n.Fresh)
    (hsorted : n.Sorted g)
    (h : survey g ir (Allocator.create n size reuse) = .ok () s) : Rested g [] s := by
  obtain ⟨hhas, hlisted⟩ := survey_hasScanned hn h
  have htree : ∀ x, s.notes.tree x = n.tree x := hlisted.tree_eq
  have hslot := hlisted.owner_ne_temp
  refine ⟨hhas.orderly, hsorted.congr ?_, ⟨?_, ?_, ?_, by simp, ?_⟩, ?_, ?_⟩
  · intro x
    rw [Notes.index, htree]
    rfl
  · exact fun i u hi hu => absurd hu (hslot i u hi)
  · exact fun i u hi hu => absurd hu (hslot i u hi)
  · exact fun i j u hi _ hu => absurd hu (hslot i u hi)
  · exact fun i u hi hu => absurd hu (hslot i u hi)
  · exact fun i u p hi hu => absurd hu (hslot i u hi)
  · intro z _ _
    rw [htree, hn.spills_eq, hn.restores_eq]
    exact ⟨rfl, by simp⟩

/-! ## Edges -/

/-- What is noted on edges is about intervals and registers for which `P` holds. -/
structure EdgesCarry (n : Notes) (P : Crossing → Prop) : Prop where
  spills : ∀ e, ∀ sp ∈ (n.edge e).spills, P ⟨sp.reg, sp.interval⟩
  moves : ∀ e, ∀ mv ∈ (n.edge e).moves,
    P ⟨mv.source, mv.interval⟩ ∧ ∃ i, P ⟨mv.target, i⟩
  restores : ∀ e, ∀ r ∈ (n.edge e).restores, P ⟨r.reg, r.interval⟩

/-- What is noted on edges is about the intervals below `k`. -/
def EdgesBelow (n : Notes) (k : Nat) : Prop :=
  ∀ e, (∀ sp ∈ (n.edge e).spills, sp.interval < k) ∧ (∀ mv ∈ (n.edge e).moves, mv.interval < k) ∧
    ∀ r ∈ (n.edge e).restores, r.interval < k

theorem EdgesCarry.below {n : Notes} {P : Crossing → Prop} {k : Nat} (h : EdgesCarry n P)
    (hP : ∀ c, P c → c.interval < k) : EdgesBelow n k := fun e =>
  ⟨fun sp hsp => hP _ (h.spills e sp hsp), fun mv hmv => hP _ (h.moves e mv hmv).1,
    fun r hr => hP _ (h.restores e r hr)⟩

/-- What is noted on edges is about the intervals that cross from block to block. -/
theorem Resolved.edgesCarry {xs : List (BlockId × EdgeId × BlockId)} (h : Resolved g xs s s')
    {P : Crossing → Prop} (hexits : ∀ b, ∀ c ∈ leftBy s.notes b, P c)
    (hentries : ∀ b crossings, (s.notes.block b).entry = some crossings →
      ∀ c ∈ crossings.members, P c)
    (hedges : EdgesCarry s.notes P) : EdgesCarry s'.notes P := by
  induction h with
  | nil s => exact hedges
  | @cons b target e xs s s₁ s' hfirst _ ih =>
      obtain ⟨crossings, log, hentry, rfl⟩ := resolveEdge_cases hfirst
      have hafter := hentries target crossings hentry
      refine ih hexits hentries ⟨?_, ?_, ?_⟩
      · intro d sp hsp
        rw [Notes.edge_addTraffic] at hsp
        split at hsp
        · rcases List.mem_append.mp hsp with hsp | hsp
          · exact hedges.spills d sp hsp
          · obtain ⟨c, hc, rfl⟩ := List.mem_map.mp hsp
            exact hexits b c (List.mem_filter.mp hc).1
        · exact hedges.spills d sp hsp
      · intro d mv hmv
        rw [Notes.edge_addTraffic] at hmv
        split at hmv
        · rcases List.mem_append.mp hmv with hmv | hmv
          · exact hedges.moves d mv hmv
          · obtain ⟨c, hc, c', hc', -, -, rfl⟩ := Notes.mem_edgeMoves.mp hmv
            exact ⟨hexits b c hc, c'.interval, hafter c' hc'⟩
        · exact hedges.moves d mv hmv
      · intro d r hr
        rw [Notes.edge_addTraffic] at hr
        split at hr
        · rcases List.mem_append.mp hr with hr | hr
          · exact hedges.restores d r hr
          · obtain ⟨c, hc, rfl⟩ := List.mem_map.mp hr
            exact hafter c (List.mem_filter.mp hc).1
        · exact hedges.restores d r hr

theorem Resolved.notes_eq {xs : List (BlockId × EdgeId × BlockId)} (h : Resolved g xs s s') :
    s'.notes.intervalCount = s.notes.intervalCount ∧ ∀ x, s'.notes.tree x = s.notes.tree x := by
  induction h with
  | nil s => exact ⟨rfl, fun _ => rfl⟩
  | cons hfirst _ ih =>
      obtain ⟨crossings, log, -, rfl⟩ := resolveEdge_cases hfirst
      exact ih

theorem HasScanned.entries {s₀ : Allocator} {scanned : List BlockId}
    (hs : HasScanned g s₀ scanned s) (b : BlockId) (crossings : Crossings)
    (h : (s.notes.block b).entry = some crossings) : s.Fits crossings.members := by
  by_cases hb : b ∈ scanned
  · obtain ⟨before, after, hsplit⟩ := List.append_of_mem hb
    rw [(hs.entry_eq before b after hsplit).1] at h
    obtain ⟨p, -, hexit⟩ := exists_exit_of_firstExit h
    exact HasScanned.exits hs p crossings hexit
  · rw [hs.entry_of_not_mem b hb] at h
    cases h

/-- A local variable that crosses from block to block in a register of the file. -/
def Crosses (s : Allocator) (c : Crossing) : Prop :=
  c.interval < s.slots.length ∧ ∃ r : Int, c.reg = some r ∧ 0 ≤ r ∧ r < s.registers.length

/-- Only variables are spilled, moved and restored on edges. -/
theorem HasScanned.edgesCarry {s₀ : Allocator} {scanned : List BlockId}
    {xs : List (BlockId × EdgeId × BlockId)} (hs : HasScanned g s₀ scanned s)
    (hedges : ∀ e, s.notes.edge e = {}) (h : Resolved g xs s s') :
    EdgesCarry s'.notes (Crosses s) := by
  refine h.edgesCarry ?_ ?_ ⟨?_, ?_, ?_⟩
  · intro b c hc
    rw [leftBy] at hc
    cases hexit : (s.notes.block b).exit with
    | none =>
        rw [hexit] at hc
        cases hc
    | some crossings =>
        rw [hexit] at hc
        have hfits := HasScanned.exits hs b crossings hexit
        exact ⟨hfits.interval_lt c hc, hfits.reg_range c hc⟩
  · intro b crossings hentry c hc
    have hfits := HasScanned.entries hs b crossings hentry
    exact ⟨hfits.interval_lt c hc, hfits.reg_range c hc⟩
  all_goals
    intro e
    rw [hedges]
    simp

end Alloc

/-! ## The scan of a program -/

open Alloc

theorem Program.import?_sorted {p : Program} {m : Imported} (h : p.import? = .ok m)
    (honce : ((m.ir.trees m.graph).map Tree.id).Nodup) : m.notes.Sorted m.graph := by
  obtain ⟨s, n, -, -, hgraph, hir, -, hnotes, -⟩ := Program.import?_cases h
  rw [Ir.trees, hir, hgraph] at honce
  rw [Notes.Sorted, hnotes, hgraph]
  exact Notes.pairwise_index_number honce n 0

/-- From the step of `t` up to that of `q`, the latter not included, the interval `i` is
active at the end of each step. -/
def ActiveBetween (xs : List Step) (t q : Tree) (i : IntervalId) : Prop :=
  ∀ pre x mid y post, xs = pre ++ x :: mid ++ y :: post → x.tree = t → y.tree = q →
    ∀ z ∈ x :: mid, i ∈ z.after.active

/-- When the restores at the tree `q` have been carried out, the interval `i` is active. -/
def ActiveAfterRestores (g : Graph) (xs : List Step) (q : Tree) (i : IntervalId) : Prop :=
  ∀ x y, [x, y] <:+: xs → y.tree = q → ∃ s, recover g q x.after = .ok () s ∧ i ∈ s.active

section Kept

variable {g : Graph} {pending : List Tree} {fin : Allocator} {xs pre post : List Step} {x : Step}
  {t q : Tree} {i : Nat}

/-- The interval of a constant or an operation is there from the step of the tree on. -/
theorem Alloc.Keeping.owner_eq (hkeeping : Keeping g fin [] xs)
    (hfin : Rested g (g.treesFrom 0) fin) (hxs : xs = pre ++ x :: post)
    (ht : t ∈ pre.map Step.tree ++ [x.tree])
    (hkind : t.kind = .const ∨ t.kind = .binOp) (hi : i < fin.notes.intervalCount)
    (howner : (fin.interval i).owner = .temp t) :
    i < x.after.notes.intervalCount ∧ (x.after.interval i).owner = .temp t := by
  obtain ⟨hrest, ⟨hcontinues, -⟩, -⟩ := hkeeping.split hxs
  rw [List.nil_append] at hrest
  obtain ⟨j, hj, hjowner⟩ := hrest.temps.created t ht hkind
  obtain rfl : j = i := hfin.temps.owner_inj j i t (Nat.lt_of_lt_of_le hj hcontinues.count_le) hi
    ((hcontinues.owner_eq hj).trans hjowner) howner
  exact ⟨hj, hjowner⟩

/-- A temporary that is never spilled is active up to the tree that takes it. -/
theorem Alloc.Keeping.activeBetween (hkeeping : Keeping g fin [] xs)
    (hfin : Rested g (g.treesFrom 0) fin) (hmap : xs.map Step.tree = g.treesFrom 0)
    (hkind : t.kind = .const ∨ t.kind = .binOp) (hparent : g.parent t = some q)
    (hi : i < fin.notes.intervalCount) (howner : (fin.interval i).owner = .temp t)
    (hdetour : fin.notes.Detour i q none) : ActiveBetween xs t q i := by
  intro pre x mid y post hxs hx hy z hz
  obtain ⟨l, r, hlr⟩ := List.append_of_mem hz
  have hsplit : xs = (pre ++ l) ++ z :: (r ++ y :: post) := by
    rw [hxs, hlr]
    simp
  have hpast : ∀ w ∈ (pre ++ l).map Step.tree ++ [z.tree],
      fin.notes.index w < fin.notes.index q := by
    have htrees : g.treesFrom 0 = ((pre ++ l).map Step.tree ++ [z.tree] ++ r.map Step.tree) ++
        q :: post.map Step.tree := by
      rw [← hmap, hsplit, ← hy]
      simp
    intro w hw
    exact hfin.sorted.lt_of_mem_past htrees (List.mem_append_left _ hw)
  have ht : t ∈ (pre ++ l).map Step.tree ++ [z.tree] := by
    cases l with
    | nil =>
        rw [List.nil_append] at hlr
        injection hlr with hxz
        rw [← hxz, hx]
        simp
    | cons w l =>
        injection hlr with hxw
        rw [← hxw, ← hx]
        simp
  obtain ⟨hrest, ⟨-, hfixed⟩, -⟩ := hkeeping.split hsplit
  rw [List.nil_append] at hrest hfixed
  obtain ⟨hlt, howner'⟩ := hkeeping.owner_eq hfin hsplit ht hkind hi howner
  obtain ⟨out, hdetour', hout, hplace⟩ := hrest.kept i t q hlt howner' hparent
  have hnone : out = none := by
    by_contra hsome
    obtain ⟨w, rfl⟩ := Option.ne_none_iff_exists'.mp hsome
    have hone := (hdetour' w).1
    have hzero := (hdetour w).1
    rw [Notes.spillCount, hfixed w (hout w rfl).1] at hzero
    rw [Notes.spillCount, hzero] at hone
    simp at hone
  subst hnone
  have hactive := hplace fun hq => Nat.lt_irrefl _ (hpast q hq)
  simpa using hactive

/-- The operands of a tree are active after its restores. -/
theorem Alloc.Keeping.activeAfterRestores (hkeeping : Keeping g fin [] xs) (hg : g.Formed pending)
    (hfin : Rested g (g.treesFrom 0) fin) (hmap : xs.map Step.tree = g.treesFrom 0)
    (ht : t ∈ g.treesFrom 0) (hkind : t.kind = .const ∨ t.kind = .binOp)
    (hparent : g.parent t = some q) (hi : i < fin.notes.intervalCount)
    (howner : (fin.interval i).owner = .temp t) : ActiveAfterRestores g xs q i := by
  rintro x y ⟨pre, post, hxs⟩ hy
  have hsplit : xs = pre ++ x :: (y :: post) := by
    rw [← hxs]
    simp
  have htrees : g.treesFrom 0 = (pre.map Step.tree ++ [x.tree]) ++ q :: post.map Step.tree := by
    rw [← hmap, hsplit, ← hy]
    simp
  obtain ⟨-, htq, hlt⟩ := hfin.sorted.parent_spec hg ht hparent
  have htpast := hfin.sorted.mem_past_of_lt htrees ht hlt
  obtain ⟨-, -, hnext⟩ := hkeeping.split hsplit
  obtain ⟨s₁, hrecover, hoperands⟩ := hnext y (by simp)
    (by rw [hy]; exact List.ne_nil_of_mem htq)
  rw [hy] at hrecover hoperands
  obtain ⟨hlt', howner'⟩ := hkeeping.owner_eq hfin hsplit htpast hkind hi howner
  exact ⟨s₁, hrecover, hoperands i t hlt' howner' hparent⟩

end Kept

theorem Program.compile_imported {p : Program} {settings : Settings} {c : Compiled}
    (h : p.compile settings = .ok c) :
    ∃ m, p.import? = .ok m ∧ c.graph = m.graph ∧ c.ir = m.ir := by
  obtain ⟨m, himport, hrest⟩ := exists_of_bind_eq_ok h
  refine ⟨m, himport, ?_⟩
  dsimp only at hrest
  split at hrest <;> injection hrest with hrest <;> subst hrest <;> exact ⟨rfl, rfl⟩

/-- The scan of a program in which every tree is reached once stops for no check that is made
when recorded spills and restores are carried out. -/
theorem Program.scan_fault {p : Program} {m : Imported} (h : p.import? = .ok m)
    (honce : ((m.ir.trees m.graph).map Tree.id).Nodup) {size : Int} {reuse : Bool} {fault : Fault}
    {s : Allocator}
    (hstop : scan m.graph m.ir (Allocator.create m.notes size reuse) = .error fault s) :
    fault ≠ .recordedSpillInactive ∧ fault ≠ .recordedSpillElsewhere ∧
      fault ≠ .recordedRestoreActive := by
  obtain ⟨⟨pending, hg⟩, hfresh, hfirst⟩ := Program.import?_formed h
  have hblocks : m.ir.blocks m.graph = m.graph.blocksFrom 0 := by
    rw [Ir.blocks, hfirst]
  have hmove : fault.OfMove → fault ≠ .recordedSpillInactive ∧
      fault ≠ .recordedSpillElsewhere ∧ fault ≠ .recordedRestoreActive := by
    intro hmove
    refine ⟨?_, ?_, ?_⟩ <;> rintro rfl <;> exact hmove
  rcases bind_apply_eq_error_iff.mp hstop with hsurvey | ⟨⟨⟩, s₁, hsurvey, hrest⟩
  · have hcause := (confined_survey Fault.admits_self _).cause hsurvey
    refine ⟨?_, ?_, ?_⟩ <;> rintro rfl <;> exact hcause
  · have hrested := survey_rested hfresh (Program.import?_sorted h honce) hsurvey
    have hhas := (survey_hasScanned hfresh hsurvey).1
    rcases bind_apply_eq_error_iff.mp hrest with hscan | ⟨⟨⟩, s₂, -, hedges⟩
    · rw [hblocks] at hscan
      rcases scanBlocks_error hg rfl hhas hrested hscan with hfault | rfl
      · exact hmove hfault
      · simp
    · have hcause := (confined_resolveEdges Fault.admits_self _).cause hedges
      refine ⟨?_, ?_, ?_⟩ <;> rintro rfl <;> exact hcause

/-- What is known when the scan of a program returns: `fin` is the state in which the last
block has been scanned, and the program's edges are noted afterwards. -/
theorem Program.compile_rested {p : Program} {settings : Settings} {c : Compiled}
    (h : p.compile settings = .ok c) (honce : ((c.ir.trees c.graph).map Tree.id).Nodup)
    (hfault : c.fault = none) :
    ∃ pending fin, c.graph.Formed pending ∧ c.ir.trees c.graph = c.graph.treesFrom 0 ∧
      Rested c.graph (c.graph.treesFrom 0) fin ∧
      (p.steps settings).map Step.tree = c.graph.treesFrom 0 ∧
      Keeping c.graph fin [] (p.steps settings) ∧
      (c.alloc.notes.intervalCount = fin.notes.intervalCount ∧
        (∀ x, c.alloc.notes.tree x = fin.notes.tree x) ∧
        ∀ i, c.alloc.interval i = fin.interval i) ∧
      EdgesBelow c.alloc.notes fin.slots.length := by
  obtain ⟨m, himport, hgraph, hir, hscan⟩ := Program.compile_cases h hfault
  rw [hgraph, hir] at honce ⊢
  obtain ⟨⟨pending, hg⟩, hfresh, hfirst⟩ := Program.import?_formed himport
  obtain ⟨s₁, fin, hsurvey, hblocks, hedges⟩ := scan_cases hscan
  obtain ⟨hhas, hlisted⟩ := survey_hasScanned hfresh hsurvey
  have hchain : m.ir.blocks m.graph = m.graph.blocksFrom 0 := by
    rw [Ir.blocks, hfirst]
  have hsteps : p.steps settings = traceBlocks m.graph (m.graph.blocksFrom 0) s₁ := by
    simp only [Program.steps, himport, hsurvey, hchain]
  rw [hchain] at hblocks hedges
  have hrested := survey_rested hfresh (Program.import?_sorted himport honce) hsurvey
  obtain ⟨hfin, -, hmap, hkeeping⟩ := scanBlocks_rested hg rfl hhas hrested hblocks
  have hended := scanBlocks_hasScanned hg hhas (by simpa using hg.chained.nodup) hblocks
  have hresolved := resolveEdges_resolved hedges
  refine ⟨pending, fin, hg, ?_, hfin, ?_, ?_, ?_, ?_⟩
  · rw [Ir.trees, hfirst]
  · rw [hsteps, hmap]
    rfl
  · rw [hsteps]
    exact hkeeping
  · exact ⟨hresolved.notes_eq.1, hresolved.notes_eq.2, hresolved.frame.2.1⟩
  · refine (HasScanned.edgesCarry hended ?_ hresolved).below fun c hc => hc.1
    intro e
    rw [Notes.edge, hended.continues.edges_eq, hlisted.edges_eq]
    exact hfresh.edge_eq e

theorem Allocator.Temporaries.owner_eq_of_isResultOf {g : Graph} {trees : List Tree}
    {s : Allocator} (h : s.Temporaries g trees) (honce : (trees.map Tree.id).Nodup) {j : Nat}
    {t : Tree} (hj : j < s.notes.intervalCount) (ht : t ∈ trees)
    (hresult : (s.interval j).owner.isResultOf t = true) : (s.interval j).owner = .temp t := by
  cases howner : (s.interval j).owner with
  | slot n => simp [howner, Owner.isResultOf] at hresult
  | temp u =>
      have hid : u.id = t.id := by simpa [howner, Owner.isResultOf] using hresult
      rw [List.inj_on_of_nodup_map honce (h.owner_mem j u hj howner) ht hid]

/-- Trees with rising numbers stand in this order. -/
theorem Notes.Sorted.sublist_of_lt {n : Notes} {g : Graph} (h : n.Sorted g) {t x q : Tree}
    (ht : t ∈ g.treesFrom 0) (hx : x ∈ g.treesFrom 0) (hq : q ∈ g.treesFrom 0)
    (htx : n.index t < n.index x) (hxq : n.index x < n.index q) :
    [t, x, q].Sublist (g.treesFrom 0) := by
  obtain ⟨past, future, hsplit⟩ := List.append_of_mem hx
  have htpast := h.mem_past_of_lt hsplit ht htx
  have hqfuture : q ∈ future := by
    rw [hsplit, List.mem_append, List.mem_cons] at hq
    rcases hq with hq | rfl | hq
    · exact absurd (h.lt_of_mem_past hsplit hq) (Nat.not_lt_of_gt hxq)
    · exact absurd hxq (Nat.lt_irrefl _)
    · exact hq
  rw [hsplit]
  exact (List.singleton_sublist.mpr htpast).append
    ((List.singleton_sublist.mpr hqfuture).cons_cons x)

/-- Whenever every tree is reached once, no temporary is lost.  No check fails that is made
when recorded spills and restores are carried out.  If the scan returns, then the result of a
constant or an operation `t`, which the tree `q` takes, has one interval.  It stays active from
the step of `t` up to that of `q` and is never spilled or restored, or it is spilled once, at a
tree between `t` and `q`, and restored once, at `q`; nothing is noted about it on edges, and it
is active when the restores at `q` have been carried out. -/
theorem Program.compile_keeps_temporaries
    (p : Program) (settings : Settings) (c : Compiled) (h : p.compile settings = .ok c)
    (honce : ((c.ir.trees c.graph).map Tree.id).Nodup) :
    (c.fault ≠ some .recordedSpillInactive ∧ c.fault ≠ some .recordedSpillElsewhere ∧
        c.fault ≠ some .recordedRestoreActive) ∧
      (c.fault = none →
        (p.steps settings).map Step.tree = c.ir.trees c.graph ∧
        ∀ t ∈ c.ir.trees c.graph, t.kind = .const ∨ t.kind = .binOp →
          ∀ q, c.graph.parent t = some q →
          ∃ i : Nat, i < c.alloc.notes.intervalCount ∧
            (∀ j : Nat, j < c.alloc.notes.intervalCount →
              ((c.alloc.interval j).owner.isResultOf t = true ↔ j = i)) ∧
            (c.alloc.notes.Detour i q none ∧ ActiveBetween (p.steps settings) t q i ∨
              ∃ x, [t, x, q].Sublist (c.ir.trees c.graph) ∧ c.alloc.notes.Detour i q (some x)) ∧
            (∀ e, (∀ sp ∈ (c.alloc.notes.edge e).spills, sp.interval ≠ i) ∧
              (∀ mv ∈ (c.alloc.notes.edge e).moves, mv.interval ≠ i) ∧
              ∀ r ∈ (c.alloc.notes.edge e).restores, r.interval ≠ i) ∧
            ActiveAfterRestores c.graph (p.steps settings) q i) := by
  refine ⟨?_, ?_⟩
  · obtain ⟨m, himport, hgraph, hir⟩ := Program.compile_imported h
    rw [hgraph, hir] at honce
    cases hfault : c.fault with
    | none => simp
    | some fault =>
        obtain ⟨s, hstop⟩ := (Program.compile_fault_iff himport).mp ⟨c, h, hfault⟩
        simpa using Program.scan_fault himport honce hstop
  · intro hfault
    obtain ⟨pending, fin, hg, htrees, hfin, hmap, hkeeping, ⟨hcount, htree, hinterval⟩, hedges⟩ :=
      Program.compile_rested h honce hfault
    rw [htrees]
    refine ⟨hmap, ?_⟩
    intro t ht hkind q hparent
    obtain ⟨i, hi, howner⟩ := hfin.temps.created t ht hkind
    obtain ⟨hq, -, -⟩ := hfin.sorted.parent_spec hg ht hparent
    obtain ⟨out, hdetour, hout, -⟩ := hfin.kept i t q hi howner hparent
    have hmarks : fin.notes.SameMarks c.alloc.notes i := .of_tree_eq htree i
    have htemp : fin.slots.length ≤ i := (hfin.orderly.isTemp_iff hi).mp (by rw [howner]; rfl)
    refine ⟨i, hcount ▸ hi, ?_, ?_, ?_, ?_⟩
    · intro j hj
      rw [hinterval]
      constructor
      · intro hresult
        have hjowner := hfin.temps.owner_eq_of_isResultOf (htrees ▸ honce) (hcount ▸ hj) ht hresult
        exact hfin.temps.owner_inj j i t (hcount ▸ hj) hi hjowner howner
      · rintro rfl
        simp [howner, Owner.isResultOf]
    · cases out with
      | none =>
          exact .inl ⟨hmarks.detour hdetour,
            hkeeping.activeBetween hfin hmap hkind hparent hi howner hdetour⟩
      | some x =>
          obtain ⟨hx, htx, hxq⟩ := hout x rfl
          exact .inr ⟨x, hfin.sorted.sublist_of_lt ht hx hq htx hxq, hmarks.detour hdetour⟩
    · intro e
      obtain ⟨hspills, hmoves, hrestores⟩ := hedges e
      exact ⟨fun sp hsp => Nat.ne_of_lt (Nat.lt_of_lt_of_le (hspills sp hsp) htemp),
        fun mv hmv => Nat.ne_of_lt (Nat.lt_of_lt_of_le (hmoves mv hmv) htemp),
        fun r hr => Nat.ne_of_lt (Nat.lt_of_lt_of_le (hrestores r hr) htemp)⟩
    · exact hkeeping.activeAfterRestores hg hfin hmap ht hkind hparent hi howner

/-- A sum of three constants that are all pushed first. -/
def Samples.nestedSum : Program where
  locals := 0
  instrs := [instr .push [1], instr .push [2], instr .push [3], instr (.binary .add),
    instr (.binary .add), instr .ret]

/-- With two registers the first of three constants goes through memory. -/
theorem Program.compile_keeps_temporaries_nestedSum :
    ∃ c, Samples.nestedSum.compile { registers := 2 } = .ok c ∧
      ((c.ir.trees c.graph).map Tree.id).Nodup ∧ c.fault = none ∧
      ∃ t ∈ c.ir.trees c.graph, ∃ q, c.graph.parent t = some q ∧
        (c.alloc.interval 0).owner.isResultOf t = true ∧
        ∃ x, [t, x, q].Sublist (c.ir.trees c.graph) ∧ c.alloc.notes.Detour 0 q (some x) := by
  obtain ⟨c, hc, honce, hfault, hlt, t, ht, hkind, hparent, hresult, y, -, hspilled⟩ :
      ∃ c, Samples.nestedSum.compile { registers := 2 } = .ok c ∧
        ((c.ir.trees c.graph).map Tree.id).Nodup ∧ c.fault = none ∧
        0 < c.alloc.notes.intervalCount ∧
        ∃ t ∈ c.ir.trees c.graph, t.kind = .const ∧ (c.graph.parent t).isSome = true ∧
          (c.alloc.interval 0).owner.isResultOf t = true ∧
          ∃ y ∈ c.ir.trees c.graph, c.alloc.notes.spillCount 0 y ≠ 0 := by
    decide +kernel
  obtain ⟨q, hparent⟩ := Option.isSome_iff_exists.mp hparent
  obtain ⟨i, -, hunique, hway, -⟩ := ((Program.compile_keeps_temporaries _ _ c hc honce).2 hfault).2
    t ht (.inl hkind) q hparent
  obtain rfl := (hunique 0 hlt).mp hresult
  refine ⟨c, hc, honce, hfault, t, ht, q, hparent, hresult, ?_⟩
  rcases hway with ⟨hdetour, -⟩ | hway
  · exact absurd (hdetour y).1 hspilled
  · exact hway

end LinearScan
