import LinearScan.Proofs.Safekeeping

/-!
# Temporaries wait in a stack

The temporaries among the active intervals stand in the order in which they are produced, and
the later one is produced, the earlier it is taken.  So the temporary that is spilled for want of
a register, which is the one that is used last, is the first temporary of the list.  Of the
operands of a tree only the first one can be in memory, since the second one is produced right
before the tree.  And a store finds in the register of its value that value or nothing, unless
the value is that of a variable.
-/

namespace LinearScan

/-! ## Places of values -/

namespace Notes.Sorted

variable {g : Graph} {pending : List Tree} {n : Notes} {y u p q : Tree}

/-- What is produced between a value and the tree that takes it is taken no later. -/
theorem index_parent_le (hn : n.Sorted g) (hg : g.Formed pending) (hu : u ∈ g.treesFrom 0)
    (hparent : g.parent u = some p) (hy : y ∈ g.treesFrom 0) (huy : n.index u < n.index y)
    (hyp : n.index y < n.index p) (hyparent : g.parent y = some q) : n.index q ≤ n.index p := by
  obtain ⟨hp, -, -⟩ := hn.parent_spec hg hu hparent
  rcases Tree.eq_or_mem_subtrees (hn.mem_postorder_of_between hg hu hparent hy huy hyp) with
    rfl | ⟨r, hr, hyr⟩
  · exact absurd hyp (Nat.lt_irrefl _)
  · obtain ⟨xs, ys, hall⟩ := Graph.Formed.exists_segment_treesFrom hp
    have hrtrees : r ∈ g.treesFrom 0 := by
      rw [hall]
      simp [hr]
    obtain ⟨b, -, hrb⟩ := List.mem_flatMap.mp hrtrees
    have hqr := hg.planted.parent_subtree r (hg.mem_allTrees hrb) y hyr
    obtain rfl := Option.some.inj (hyparent.symm.trans hqr)
    exact hn.index_le_of_mem_postorder hp hr

end Notes.Sorted

/-! ## The choice of what is spilled -/

namespace Allocator

variable {g : Graph} {s s' : Allocator} {pos limit : Nat} {is : List IntervalId} {i v : IntervalId}

/-- The interval `v` has no later use, or it is used behind the limit, and later than the
candidate `best` and the intervals `xs`. -/
def Outlasts (s : Allocator) (pos limit : Nat) (best : Option (IntervalId × Nat))
    (xs : List IntervalId) (v : IntervalId) : Prop :=
  s.notes.nextUse v pos = none ∨
    ∃ use, s.notes.nextUse v pos = some use ∧ limit < s.notes.index use ∧
      (∀ b ∈ best, b.2 < s.notes.index use) ∧
      ∀ j ∈ xs, ∃ other, s.notes.nextUse j pos = some other ∧
        (s.notes.index other ≤ limit ∨ s.notes.index other < s.notes.index use)

/-- The interval that is spilled outlasts all that stand before it. -/
theorem victim_cases {best : Option (IntervalId × Nat)}
    (h : s.victim pos limit best is = some v) :
    best.map Prod.fst = some v ∨
      ∃ xs ys, is = xs ++ v :: ys ∧ s.Outlasts pos limit best xs v := by
  induction is generalizing best with
  | nil => exact Or.inl h
  | cons i is ih =>
      rw [victim] at h
      cases huse : s.notes.nextUse i pos with
      | none =>
          simp only [huse] at h
          injection h with h
          subst h
          exact Or.inr ⟨[], is, rfl, Or.inl huse⟩
      | some use =>
          simp only [huse] at h
          -- The candidate stays or becomes `i`, and what beats the new one beats both.
          have hrest : ∀ best', s.victim pos limit best' is = some v →
              (best' = best ∨ best' = some (i, s.notes.index use) ∧ limit < s.notes.index use ∧
                ∀ b ∈ best, b.2 < s.notes.index use) →
              (∀ m, (∀ b ∈ best', b.2 < m) → (∀ b ∈ best, b.2 < m) ∧
                (s.notes.index use ≤ limit ∨ s.notes.index use < m)) →
              best.map Prod.fst = some v ∨
                ∃ xs ys, i :: is = xs ++ v :: ys ∧ s.Outlasts pos limit best xs v := by
            intro best' hvictim hbest hbeats
            rcases ih hvictim with hfirst | ⟨xs, ys, his, hv⟩
            · rcases hbest with rfl | ⟨rfl, hlimit, hle⟩
              · exact Or.inl hfirst
              · injection hfirst with hfirst
                subst hfirst
                exact Or.inr ⟨[], is, rfl, Or.inr ⟨use, huse, hlimit, hle, by simp⟩⟩
            · refine Or.inr ⟨i :: xs, ys, by rw [his]; rfl, hv.imp_right ?_⟩
              rintro ⟨use', huse', hlimit, hle, hxs⟩
              obtain ⟨hbest, hi⟩ := hbeats _ hle
              refine ⟨use', huse', hlimit, hbest, ?_⟩
              intro j hj
              rcases List.mem_cons.mp hj with rfl | hj
              · exact ⟨use, huse, hi⟩
              · exact hxs j hj
          by_cases hk : s.notes.index use ≤ limit
          · rw [if_pos hk] at h
            exact hrest best h (Or.inl rfl) fun m hm => ⟨hm, Or.inl hk⟩
          · rw [if_neg hk] at h
            have hlimit : limit < s.notes.index use := Nat.lt_of_not_le hk
            cases best with
            | none =>
                exact hrest _ h (Or.inr ⟨rfl, hlimit, by simp⟩) fun m hm =>
                  ⟨by simp, Or.inr (hm _ rfl)⟩
            | some b =>
                obtain ⟨j, m⟩ := b
                by_cases hm : m < s.notes.index use
                · simp only [if_pos hm] at h
                  refine hrest _ h (Or.inr ⟨rfl, hlimit, by simpa using hm⟩) fun m' hm' => ?_
                  have hlt : s.notes.index use < m' := hm' _ rfl
                  exact ⟨by simpa using Nat.lt_trans hm hlt, Or.inr hlt⟩
                · simp only [if_neg hm] at h
                  refine hrest _ h (Or.inl rfl) fun m' hm' => ⟨hm', Or.inr ?_⟩
                  have hlt : m < m' := hm' _ rfl
                  omega

/-! ## The stack -/

/-- Of two active temporaries that are taken at `pos` or later, the one that came later is taken
no later than the other. -/
def Stacked (g : Graph) (pos : Nat) (s : Allocator) : Prop :=
  s.active.Pairwise fun i j => ∀ u v p q, (s.interval i).owner = .temp u →
    (s.interval j).owner = .temp v → g.parent u = some p → g.parent v = some q →
    pos ≤ s.notes.index p → pos ≤ s.notes.index q → s.notes.index q ≤ s.notes.index p

/-- The active temporaries are taken at `pos` or later. -/
def Awaited (g : Graph) (pos : Nat) (s : Allocator) : Prop :=
  ∀ i ∈ s.active, ∀ u p, (s.interval i).owner = .temp u → g.parent u = some p →
    pos ≤ s.notes.index p

namespace Stacked

theorem mono {pos' : Nat} (h : s.Stacked g pos) (hle : pos ≤ pos') : s.Stacked g pos' := by
  refine h.imp ?_
  intro i j hij u v p q hu hv hp hq hpos hpos'
  exact hij u v p q hu hv hp hq (Nat.le_trans hle hpos) (Nat.le_trans hle hpos')

/-- Intervals may leave the stack. -/
theorem sublist (h : s.Stacked g pos) (hs : s.Orderly g) (hext : s.Continues s')
    (hactive : s'.active.Sublist s.active) : s'.Stacked g pos := by
  refine (List.Pairwise.sublist hactive h).imp_of_mem ?_
  intro i j hi hj hij u v p q hu hv
  rw [hext.owner_eq (hs.active_lt i (hactive.subset hi))] at hu
  rw [hext.owner_eq (hs.active_lt j (hactive.subset hj))] at hv
  rw [hext.index_eq, hext.index_eq]
  exact hij u v p q hu hv

/-- An interval may be put on the stack that is taken no later than what is there. -/
theorem concat (h : s.Stacked g pos) (hs : s.Orderly g) (hext : s.Continues s')
    {kept : List IntervalId} (hkept : kept.Sublist s.active) (hactive : s'.active = kept ++ [i])
    (hi : ∀ j ∈ s.active, ∀ u v p q, (s.interval j).owner = .temp u →
      (s'.interval i).owner = .temp v → g.parent u = some p → g.parent v = some q →
      pos ≤ s.notes.index p → s.notes.index q ≤ s.notes.index p) : s'.Stacked g pos := by
  have hold : ({ s' with active := kept } : Allocator).Stacked g pos :=
    h.sublist hs (hext.trans ⟨rfl, rfl, rfl, fun _ => rfl, fun _ => rfl, Nat.le_refl _,
      fun _ _ => rfl⟩) hkept
  rw [Stacked, hactive, List.pairwise_append]
  refine ⟨hold, List.pairwise_singleton _ _, ?_⟩
  intro j hj k hk u v p q hu hv hp hq hpos _
  obtain rfl := List.mem_singleton.mp hk
  rw [hext.owner_eq (hs.active_lt j (hkept.subset hj))] at hu
  rw [hext.index_eq] at hpos
  rw [hext.index_eq, hext.index_eq]
  exact hi j (hkept.subset hj) u v p q hu hv hp hq hpos

end Stacked

theorem mem_of_mem_takeWhile_ne {xs ys : List IntervalId} {j : IntervalId}
    (h : j ∈ (xs ++ v :: ys).takeWhile (· != v)) : j ∈ xs := by
  induction xs with
  | nil => simp at h
  | cons x xs ih =>
      rw [List.cons_append, List.takeWhile_cons] at h
      split at h
      · exact List.mem_cons.mpr ((List.mem_cons.mp h).imp_right ih)
      · cases h

/-- An active temporary is used next where it is taken. -/
theorem Awaited.nextUse (h : s.Awaited g pos) (hs : s.Orderly g) (hi : i ∈ s.active)
    (htemp : (s.interval i).owner.isTemp = true) :
    ∃ u p, (s.interval i).owner = .temp u ∧ g.parent u = some p ∧
      s.notes.nextUse i pos = some p := by
  have hlt := hs.active_lt i hi
  obtain ⟨u, p, howner, hparent, -⟩ := hs.owner_temp i ((hs.isTemp_iff hlt).mp htemp) hlt
  exact ⟨u, p, howner, hparent,
    Alloc.nextUse_temp hs.toOwned hlt howner hparent (h i hi u p howner hparent)⟩

/-- A temporary that is spilled is the first temporary of the active list. -/
theorem Stacked.victim (h : s.Stacked g pos) (hs : s.Orderly g) (hawaited : s.Awaited g pos)
    (hvictim : s.victim pos limit none s.active = some v)
    (htemp : (s.interval v).owner.isTemp = true) :
    ∀ j ∈ s.active.takeWhile (· != v), (s.interval j).owner.isTemp = false := by
  intro j hj
  by_contra hjtemp
  rw [Bool.not_eq_false] at hjtemp
  have hv := mem_active_of_victim hvictim
  have hj' := (List.takeWhile_sublist _).subset hj
  obtain ⟨u, p, hu, hp, huse⟩ := hawaited.nextUse hs hv htemp
  obtain ⟨u', p', hu', hp', huse'⟩ := hawaited.nextUse hs hj' hjtemp
  rcases victim_cases hvictim with hnone | ⟨xs, ys, hactive, houtlasts⟩
  · cases hnone
  · have hjxs : j ∈ xs := by
      rw [hactive] at hj
      exact mem_of_mem_takeWhile_ne hj
    have hle : s.notes.index p ≤ s.notes.index p' := by
      rw [Stacked, hactive, List.pairwise_append] at h
      exact h.2.2 j hjxs v (by simp) u' u p' p hu' hu hp' hp (hawaited j hj' u' p' hu' hp')
        (hawaited v hv u p hu hp)
    rcases houtlasts with hnone | ⟨use, hsome, hlimit, -, hxs⟩
    · rw [huse] at hnone
      cases hnone
    · obtain ⟨other, hother, hlate⟩ := hxs j hjxs
      rw [huse] at hsome
      rw [huse'] at hother
      injection hsome with hsome
      injection hother with hother
      subst hsome hother
      omega

end Allocator

/-! ## The scan of a tree -/

namespace Alloc

open Allocator

variable {g : Graph} {pending past before future : List Tree} {t y p : Tree}
  {back todo : List IntervalId} {s s₁ s' : Allocator} {i : Nat} {pos : Nat}

theorem Activated.active_cases (hs : s.Orderly g) (h : Activated g t i s s') :
    s' = s ∨ ∃ kept, kept.Sublist s.active ∧ s'.active = kept ++ [i] := by
  cases h with
  | already => exact Or.inl rfl
  | free number filled n hlive hchoose hreload hfilled =>
      exact Or.inr ⟨s.active, List.Sublist.refl _, rfl⟩
  | evicted use v reg k s₁ hlive hchoose huse hvictim hspill hk =>
      have hspilled := spill_active hs (hs.active_lt v (mem_active_of_victim hvictim)) hspill
      exact Or.inr ⟨s₁.active, hspilled.2.1 ▸ List.erase_sublist, rfl⟩

theorem Activated.stacked (hs : s.Orderly g) (hstack : s.Stacked g pos)
    (h : Activated g t i s s')
    (hi : ∀ j ∈ s.active, ∀ u v p q, (s.interval j).owner = .temp u →
      (s.interval i).owner = .temp v → g.parent u = some p → g.parent v = some q →
      pos ≤ s.notes.index p → s.notes.index q ≤ s.notes.index p) : s'.Stacked g pos := by
  rcases h.active_cases hs with rfl | ⟨kept, hkept, hactive⟩
  · exact hstack
  · refine hstack.concat hs h.extends.toContinues hkept hactive ?_
    rw [h.owner_eq]
    exact hi

/-- The register in which an interval says it lives holds that interval or nothing, when the
interval has just come. -/
theorem Activated.occupant (h : Activated g t i s s') (hlive : (s.interval i).liveIn = none)
    {reg : Int} {k j : Nat} (hreg : (s'.interval i).liveIn = some reg)
    (hk : Position.resolve s'.registers.length reg = .ok k)
    (hj : s'.registers[k]? = some (some j)) : j = i := by
  cases h with
  | already reg' hlive' =>
      rw [hlive] at hlive'
      cases hlive'
  | free number filled n _ hchoose hreload hfilled =>
      rw [Allocator.interval, Notes.liveIn_place_self] at hreg
      injection hreg with hreg
      subst hreg
      obtain ⟨rfl, hlt⟩ := resolve_natCast_cases hk
      have hfree := mem_freeRegisters.mp (mem_of_choose hchoose).1
      by_cases hfill : filled = k
      · subst hfill
        rw [List.getElem?_set_self hfilled] at hj
        simpa using hj.symm
      · rw [List.getElem?_set_ne hfill, hfree] at hj
        cases hj
  | evicted use v reg' k' s₁ _ hchoose huse hvictim hspill hk' =>
      rw [Allocator.interval, Notes.liveIn_place_self] at hreg
      injection hreg with hreg
      subst hreg
      rw [List.length_set, hk'] at hk
      injection hk with hk
      subst hk
      rw [List.getElem?_set] at hj
      simp only [if_true] at hj
      split at hj
      · simpa using hj.symm
      · cases hj

/-- Moves that leave the active list alone. -/
theorem Stacked.annotate {rs : List (Allocator × IntervalId)}
    (hstack : s.Stacked g pos) (hs : s.Orderly g) (hmoves : Moves g t .placing rs s s')
    (hactive : s'.active = s.active) : s'.Stacked g pos :=
  hstack.sublist hs hmoves.extends.toContinues (hactive ▸ List.Sublist.refl _)

/-- Some registers have been emptied since `s`, and nothing has come into one. -/
structure Drained (s s' : Allocator) : Prop where
  continues : s.Continues s'
  active_sublist : s'.active.Sublist s.active
  registers_of : ∀ k j : Nat, s'.registers[k]? = some (some j) → s.registers[k]? = some (some j)
  tree_eq : ∀ x, s'.notes.tree x = s.notes.tree x
  count_eq : s'.notes.intervalCount = s.notes.intervalCount

theorem Drained.trans (h : Drained s s₁) (h' : Drained s₁ s') : Drained s s' where
  continues := h.continues.trans h'.continues
  active_sublist := h'.active_sublist.trans h.active_sublist
  registers_of k j hj := h.registers_of k j (h'.registers_of k j hj)
  tree_eq x := (h'.tree_eq x).trans (h.tree_eq x)
  count_eq := h'.count_eq.trans h.count_eq

theorem drained_turn (s : Allocator) (tree : Option Tree) (reuse : Bool) :
    Drained s { s with tree, reuse } := by
  have hext : s.Extends { s with tree, reuse } := .of_notes_eq rfl rfl rfl rfl
  exact ⟨hext.toContinues, List.Sublist.refl _, fun _ _ => id, fun _ => rfl, rfl⟩

theorem release_drained (h : release t s = .ok () s') : Drained s s' := by
  obtain ⟨kept, s₁, hsifted, rfl⟩ := release_cases h
  have hext : s.Extends { s₁ with active := kept } :=
    hsifted.extends.trans (.of_notes_eq rfl rfl rfl rfl)
  refine ⟨hext.toContinues, ?_, fun k j hj => hsifted.registers_of hj, hsifted.tree_eq,
    hsifted.count_eq⟩
  simp only [hsifted.kept_eq]
  exact List.filter_sublist

/-! ### Operands that are brought back -/

section

variable (hg : g.Formed pending) (htrees : g.treesFrom 0 = past ++ y :: future)
  (h : Serving g past y back todo s)
include hg htrees h

/-- At most one operand is brought back, and only to a tree with two. -/
theorem Serving.todo_cases : todo = [] ∨ ∃ i u w, todo = [i] ∧ y.subtrees = [u, w] := by
  match htodo : todo with
  | [] => exact Or.inl rfl
  | [i] =>
      obtain ⟨u, w, -, hsubtrees⟩ := h.subtrees_eq hg htrees (i := i) (by simp)
      exact Or.inr ⟨i, u, w, rfl, hsubtrees⟩
  | i :: j :: rest =>
      obtain ⟨u, w, hi, hsubtrees⟩ := h.subtrees_eq hg htrees (i := i) (by simp)
      obtain ⟨u', w', hj, hsubtrees'⟩ := h.subtrees_eq hg htrees (i := j) (by simp)
      rw [hsubtrees] at hsubtrees'
      injection hsubtrees' with hu
      subst hu
      have hij := h.temps.owner_inj i j u (h.outside hg htrees (by simp)).1
        (h.outside hg htrees (by simp)).1 hi hj
      have hnodup := h.todo_nodup
      simp [hij] at hnodup

end

/-- In `s` the tree `y` is scanned: the active temporaries are taken at `y` or later, and form a
stack. -/
structure StackedAt (g : Graph) (y : Tree) (s : Allocator) : Prop where
  orderly : s.Orderly g
  stacked : s.Stacked g (s.notes.index y)
  awaited : s.Awaited g (s.notes.index y)

theorem StackedAt.sublist (h : StackedAt g y s) (hs : s'.Orderly g) (hext : s.Continues s')
    (hactive : s'.active.Sublist s.active) : StackedAt g y s' where
  orderly := hs
  stacked := by
    rw [hext.index_eq]
    exact h.stacked.sublist h.orderly hext hactive
  awaited i hi u p howner hparent := by
    have hi := hactive.subset hi
    rw [hext.owner_eq (h.orderly.active_lt i hi)] at howner
    rw [hext.index_eq, hext.index_eq]
    exact h.awaited i hi u p howner hparent

/-- The interval of a result of `y` is added. -/
theorem StackedAt.create (h : StackedAt g y s) (hregs : ∀ u ∈ y.subtrees, 0 ≤ s.notes.reg u)
    (hload : y.kind ≠ .ldLocal) (hstore : y.kind ≠ .stLocal) {p : Tree}
    (hparent : g.parent y = some p) :
    StackedAt g y { s with notes := s.notes.addInterval (tempOf s.notes y p) } := by
  have hmove : Move g y .placing s { s with notes := s.notes.addInterval (tempOf s.notes y p) } :=
    .create p hparent hload hstore
  exact h.sublist (hmove.orderly h.orderly hregs) hmove.extends.toContinues (List.Sublist.refl _)

section

variable (hg : g.Formed pending) (htrees : g.treesFrom 0 = past ++ y :: future)
  (hrest : Rested g past s) (hregs : ∀ u ∈ y.subtrees, 0 ≤ s.notes.reg u)
  (hstack : s.Stacked g (s.notes.index y))
include hg htrees hrest hregs hstack

/-- When a tree is reached, its operands in memory are brought back: none, or one to a tree with
two operands. -/
theorem release_stackedAt (h : release y { s with tree := some y, reuse := false } = .ok () s₁) :
    StackedAt g y s₁ ∧ Drained s s₁ ∧ (s₁.notes.tree y).spills = [] ∧
      Serving g past y [] ((s₁.notes.tree y).restores.map Restore.interval) s₁ ∧
      ((s₁.notes.tree y).restores = [] ∨
        ∃ r u w, (s₁.notes.tree y).restores = [r] ∧ y.subtrees = [u, w]) := by
  have hserving := release_serving hg htrees hrest hregs h
  have hdrained := (drained_turn s (some y) false).trans (release_drained h)
  refine ⟨⟨hserving.orderly, ?_, hserving.current⟩, hdrained, ?_, hserving, ?_⟩
  · rw [hdrained.continues.index_eq]
    exact hstack.sublist hrest.orderly hdrained.continues hdrained.active_sublist
  · rw [hdrained.tree_eq]
    exact (hrest.ahead y (by simp [htrees]) (not_mem_past hrest.sorted htrees)).1
  · rcases hserving.todo_cases hg htrees with htodo | ⟨i, u, w, htodo, hsubtrees⟩
    · exact Or.inl (List.map_eq_nil_iff.mp htodo)
    · obtain ⟨r, hr, -⟩ := List.map_eq_singleton_iff.mp htodo
      exact Or.inr ⟨r, u, w, hr, hsubtrees⟩

/-- The stack when a tree has been prepared. -/
theorem recover_stackedAt (h : recover g y s = .ok () s') :
    StackedAt g y s' ∧ (y.subtrees.length ≠ 2 → Drained s s') := by
  obtain ⟨back, hserving'⟩ := (recover_serving hg htrees hrest hregs).1 s' h
  obtain ⟨s₁, s₂, hrelease, hspills, hrestores⟩ := recover_cases h
  obtain ⟨hstackedAt, hdrained, hnone, hserving, hcases⟩ :=
    release_stackedAt hg htrees hrest hregs hstack hrelease
  rw [hnone] at hspills
  obtain ⟨-, rfl⟩ := pure_cases hspills
  rcases hcases with hnil | ⟨r, u, w, hone, hsubtrees⟩
  · rw [hnil] at hrestores
    obtain ⟨-, rfl⟩ := pure_cases hrestores
    exact ⟨hstackedAt, fun _ => hdrained⟩
  · refine ⟨⟨hserving'.orderly, ?_, hserving'.current⟩,
      fun hne => absurd (by rw [hsubtrees]; rfl) hne⟩
    rw [hone] at hrestores hserving
    obtain ⟨⟨⟩, s₃, hcarry, hend⟩ := exists_of_bind_apply_eq_ok hrestores
    obtain ⟨-, rfl⟩ := pure_cases hend
    obtain ⟨-, s₃, hactivated, rfl⟩ := carryRestore_cases hcarry
    obtain ⟨hlt, -, v, howner, hparent⟩ := hserving.next hg htrees
    have hnoted : Moves g y .placing [] s₃ _ :=
      .single (noteRestored_move s₃ 0 (s₃.interval r.interval).liveIn)
    rw [hnoted.extends.index_eq, hactivated.extends.index_eq]
    refine Stacked.annotate (hactivated.stacked hserving.orderly hstackedAt.stacked ?_)
      (hactivated.orderly hserving.orderly hlt) hnoted rfl
    intro j hj u v' p q _ hv' _ hq hpos
    rw [howner] at hv'
    injection hv' with hv'
    rw [← hv', hparent] at hq
    injection hq with hq
    exact hq ▸ hpos

end

/-! ### The register of the tree -/

theorem clearFor_active (hs : s.Orderly g) {reg : Int} (h : clearFor g t reg s = .ok () s') :
    s'.active.Sublist s.active := by
  obtain ⟨k, -, ⟨-, rfl⟩ | ⟨j, hj, ⟨-, rest, hrest, rfl⟩ | ⟨-, old, hspill⟩⟩⟩ := clearFor_cases h
  · exact List.Sublist.refl _
  · have hlt := hs.occupied_lt k j (Option.join_eq_some_iff.mp hj)
    rw [(removeAlike_active hs hlt hrest).2]
    exact List.erase_sublist
  · have hlt := hs.occupied_lt k j (Option.join_eq_some_iff.mp hj)
    rw [(spill_active hs hlt hspill).2.1]
    exact List.erase_sublist

theorem settle_stacked (hs : s.Orderly g) (hstack : s.Stacked g pos) (hi : i < s.slots.length)
    {reg : Int} (h : settle g t i reg s = .ok () s') : s'.Stacked g pos := by
  have hext := (extends_settle h).toContinues
  have howner : (s'.interval i).owner = .slot i := by
    rw [hext.owner_eq (Nat.lt_of_lt_of_le hi hs.slots_le), hs.owner_slot i hi]
  obtain ⟨s₁, s₂, k, hclear, hunseated, hk, rfl⟩ := settle_cases h
  have hsub := clearFor_active hs hclear
  cases hunseated with
  | moved => exact hstack.sublist hs hext hsub
  | entered =>
      refine hstack.concat hs hext hsub rfl ?_
      intro j _ u v p q _ hv
      rw [howner] at hv
      cases hv

/-- When a tree has got its register, the value it produces is on top of the stack. -/
theorem Placing.stacked (hg : g.Formed pending) (htrees : g.treesFrom 0 = past ++ y :: future)
    (h : Placing g past y s) (hsubtrees : ∀ u ∈ y.subtrees, 0 ≤ s.notes.reg u)
    (hstackedAt : StackedAt g y s) (hplace : Alloc.place g y s = .ok () s') :
    s'.Stacked g (s.notes.index y + 1) := by
  have hstack := hstackedAt.stacked.mono (Nat.le_succ _)
  rcases place_cases hplace with ⟨hkind, hload⟩ | ⟨hkind, hstore⟩ |
      ⟨hload, hstore, ⟨p, hparent, htemp⟩ | ⟨-, rfl⟩⟩
  · obtain ⟨i, s₁, hslot, hactivated, rfl⟩ := scanLoad_cases hload
    have hi := h.orderly.slotOf_lt hslot
    have hactive := hactivated.orderly h.orderly (Nat.lt_of_lt_of_le hi h.orderly.slots_le)
    refine Stacked.annotate (hactivated.stacked h.orderly hstack ?_) hactive
      (withReg_moves s₁ i) rfl
    intro j _ u v p q _ hv
    rw [h.orderly.owner_slot i hi] at hv
    cases hv
  · obtain ⟨i, value, rest, s₁, hslot, hvalue, hsettle, rfl⟩ := scanStore_cases hstore
    have hi := h.orderly.slotOf_lt hslot
    simp only [Graph.sharers_of_twins_eq_empty hg.twins_eq, List.foldl_cons, List.foldl_nil]
    have hstored : Moves g y .placing [] s₁
        { s₁ with notes := s₁.notes.addStored y (s.notes.reg value) } :=
      .single (.annotate _ rfl rfl rfl (Or.inl rfl))
    split at hsettle
    · rw [hsettle] at hstored ⊢
      exact Stacked.annotate hstack h.orderly hstored rfl
    · have hreg := hsubtrees value (by simp [hvalue])
      exact Stacked.annotate (settle_stacked h.orderly hstack hi hsettle)
        (settle_orderly h.orderly hi hreg hsettle) hstored rfl
  · obtain ⟨s₁, hactivated, rfl⟩ := scanTemp_cases htemp
    have hcreate : Move g y .placing s
        { s with notes := s.notes.addInterval (tempOf s.notes y p) } :=
      .create p hparent hload hstore
    have hs₀ := hcreate.orderly h.orderly hsubtrees
    have hstack₀ := Stacked.annotate hstack h.orderly (.single hcreate) rfl
    have hs₁ := hactivated.orderly hs₀ (Nat.lt_succ_self _)
    refine Stacked.annotate (hactivated.stacked hs₀ hstack₀ ?_) hs₁ (withReg_moves s₁ _) rfl
    intro j hj u v p' q hu hv hp' hq hpos
    have hjlt := h.orderly.active_lt j hj
    rw [hcreate.extends.owner_eq hjlt] at hu
    simp only [Allocator.interval, Notes.interval_addInterval, if_true, tempOf] at hv
    injection hv with hv
    subst hv
    have hpast := h.temps.owner_mem j u hjlt hu
    have hmem := Graph.mem_treesFrom_of_past htrees hpast
    exact h.sorted.index_parent_le hg hmem hp' (by simp [htrees])
      (h.sorted.lt_of_mem_past htrees hpast) hpos hq
  · exact hstack

/-- The register of a value that was just produced holds that value or nothing. -/
def HoldsLast (before : List Tree) (s : Allocator) : Prop :=
  ∀ v, before.getLast? = some v → v.kind.isValue = true → v.kind ≠ .ldLocal →
    ∀ k j : Nat, Position.resolve s.registers.length (s.notes.reg v) = .ok k →
      s.registers[k]? = some (some j) → (s.interval j).owner = .temp v

theorem place_holdsLast (h : place g y s = .ok () s')
    (hparent : y.kind.isValue = true → ∃ p, g.parent y = some p) (before : List Tree) :
    HoldsLast (before ++ [y]) s' := by
  intro v hv hvalue hload k j hk hj
  obtain rfl : y = v := by simpa using hv
  have hstore : y.kind ≠ .stLocal := by
    intro hkind
    rw [hkind] at hvalue
    cases hvalue
  rcases place_cases h with ⟨hkind, -⟩ | ⟨hkind, -⟩ | ⟨-, -, ⟨q, hq, htemp⟩ | ⟨hnone, -⟩⟩
  · exact absurd hkind hload
  · exact absurd hkind hstore
  · obtain ⟨s₁, hactivated, rfl⟩ := scanTemp_cases htemp
    have hnew := s.notes.interval_addInterval_self (tempOf s.notes y q)
    obtain ⟨reg, hreg⟩ := hactivated.exists_liveIn
    rw [reg_withReg hreg] at hk
    obtain rfl := hactivated.occupant (by rw [Allocator.interval, hnew]; rfl) hreg hk hj
    have howner := hactivated.owner_eq s.notes.intervalCount
    rw [Allocator.interval, Allocator.interval, hnew] at howner
    have hlt : s.notes.intervalCount < s₁.notes.intervalCount := by
      rw [hactivated.intervalCount_eq]
      exact Nat.lt_succ_self _
    have hsame := (withReg_moves (g := g) (t := y) s₁ s.notes.intervalCount).extends.owner_eq hlt
    exact hsame.trans howner
  · obtain ⟨p, hp⟩ := hparent hvalue
    rw [hp] at hnone
    cases hnone

/-- Where `y` stores a value, an active temporary is what the register of the value holds. -/
def HoldsStored (y : Tree) (s : Allocator) : Prop :=
  y.kind = .stLocal → ∀ value rest (k j m : Nat), y.subtrees = value :: rest →
    Position.resolve s.registers.length (s.notes.reg value) = .ok k →
    s.registers[k]? = some (some j) → m ∈ s.active → (s.interval m).owner.isTemp = true → j = m

/-- After the trees `past` and `before` the active temporaries form a stack, and the register of
the last value of `before` holds that value or nothing. -/
structure StackedAfter (g : Graph) (past before : List Tree) (s : Allocator) : Prop where
  stacked : ∀ pos, (∀ z ∈ past ++ before, s.notes.index z < pos) → s.Stacked g pos
  holdsLast : HoldsLast before s

/-- Where a block starts and ends there are no temporaries. -/
theorem stackedAfter_of_slots (hs : s.Orderly g) (hslots : ∀ i ∈ s.active, i < s.slots.length)
    (past : List Tree) : StackedAfter g past [] s where
  stacked pos _ := by
    refine List.Pairwise.imp_of_mem (R := fun _ _ => True) ?_
      (List.pairwise_of_forall fun _ _ => trivial)
    intro i j hi _ _ u v p q hu
    rw [hs.owner_slot i (hslots i hi)] at hu
    cases hu
  holdsLast v hv := by cases hv

theorem drained_of_release {reuse : Bool}
    (h : (if reuse then release t else pure ()) { s with reuse } = .ok () s') : Drained s s' := by
  have hturn := drained_turn s s.tree reuse
  split at h
  · exact hturn.trans (release_drained h)
  · obtain ⟨-, rfl⟩ := pure_cases h
    exact hturn

/-- The scan of a tree keeps the stack. -/
theorem scanTree_stackedAfter (hg : g.Formed pending)
    (htrees : g.treesFrom 0 = (past ++ before) ++ y :: future)
    (hrest : Rested g (past ++ before) s) (hregs : ∀ u ∈ y.subtrees, 0 ≤ s.notes.reg u)
    (hstacks : StackedAfter g past before s) (h : scanTree g y s = .ok () s') :
    StackedAfter g past (before ++ [y]) s' := by
  rw [scanTree_eq] at h
  obtain ⟨⟨⟩, s₁, hrecover, hfinish⟩ := exists_of_bind_apply_eq_ok h
  obtain ⟨back, hserving⟩ := (recover_serving hg htrees hrest hregs).1 s₁ hrecover
  rw [finish, bind_apply_of_ok (modify_apply _ s₁)] at hfinish
  obtain ⟨⟨⟩, s₂, hrelease, hplace⟩ := exists_of_bind_apply_eq_ok hfinish
  have hdrained := drained_of_release hrelease
  obtain ⟨hplacing, hregs₂⟩ := hserving.placing_of_release hg htrees hrelease
  have hstack := hstacks.stacked _ fun z hz => hrest.sorted.lt_of_mem_past htrees hz
  have hstackedAt := (recover_stackedAt hg htrees hrest hregs hstack hrecover).1
  have hstackedAt₂ := hstackedAt.sublist hplacing.orderly hdrained.continues hdrained.active_sublist
  have hstack' := hplacing.stacked hg htrees hregs₂ hstackedAt₂ hplace
  refine ⟨fun pos hpos => hstack'.mono ?_, place_holdsLast hplace ?_ before⟩
  · have hlt := hpos y (by simp)
    rwa [(place_moves hg.twins_eq hplace).extends.index_eq] at hlt
  · intro hvalue
    have hy : y ∈ g.treesFrom 0 := by simp [htrees]
    obtain ⟨b, -, hyb⟩ := List.mem_flatMap.mp hy
    obtain ⟨p, -, -, hparent⟩ := hg.exists_parent hyb hvalue
    exact ⟨p, hparent⟩

/-! ### Stores -/

/-- A temporary that is active when a store gets its register is the value that is stored. -/
theorem Placing.owner_of_store (hg : g.Formed pending)
    (htrees : g.treesFrom 0 = past ++ y :: future) (h : Placing g past y s)
    (hkind : y.kind = .stLocal) {m : Nat} (hm : m ∈ s.active)
    (htemp : (s.interval m).owner.isTemp = true) :
    ∃ u, (s.interval m).owner = .temp u ∧ u ∈ y.subtrees := by
  have hlt := h.orderly.active_lt m hm
  obtain ⟨u, p, howner, hparent, -⟩ :=
    h.orderly.owner_temp m ((h.orderly.isTemp_iff hlt).mp htemp) hlt
  have hpast := h.temps.owner_mem m u hlt howner
  have hu := Graph.mem_treesFrom_of_past htrees hpast
  obtain ⟨hp, hup, -⟩ := h.sorted.parent_spec hg hu hparent
  have hle := h.current m hm u p howner hparent
  rcases Nat.lt_or_eq_of_le hle with hbetween | heq
  · have hvalue := h.sorted.isValue_of_between hg hu hparent (by simp [htrees])
      (h.sorted.lt_of_mem_past htrees hpast) hbetween
    rw [hkind] at hvalue
    cases hvalue
  · obtain rfl := h.sorted.eq_of_index_eq htrees hp heq.symm
    exact ⟨u, howner, hup⟩

section

variable {b : BlockId} {after : List Tree} (hg : g.Formed pending)
  (htrees : g.treesFrom 0 = (past ++ before) ++ y :: future)
  (hblock : g.treesOf b = before ++ y :: after)
include hg htrees hblock

/-- If a temporary is active when a store gets its register, it is what the register of the
stored value holds, unless that is empty. -/
theorem StackedAfter.store_occupant (hkind : y.kind = .stLocal)
    (hstacks : StackedAfter g past before s) (hrest : Rested g (past ++ before) s)
    (hdrained : Drained s s') (hplacing : Placing g (past ++ before) y s') {value : Tree}
    {rest : List Tree} (hvalue : y.subtrees = value :: rest) {k j m : Nat}
    (hk : Position.resolve s'.registers.length (s'.notes.reg value) = .ok k)
    (hj : s'.registers[k]? = some (some j)) (hm : m ∈ s'.active)
    (htemp : (s'.interval m).owner.isTemp = true) : j = m := by
  have hyb : y ∈ g.treesOf b := by simp [hblock]
  obtain rfl : rest = [] := by
    have harity := hg.planted.arity_eq y (hg.mem_allTrees hyb)
    rw [hvalue, hkind] at harity
    simpa [TreeKind.arity] using harity
  obtain ⟨u, howner, hu⟩ := hplacing.owner_of_store hg htrees hkind hm htemp
  rw [hvalue, List.mem_singleton] at hu
  subst hu
  have hmlt : m < s.notes.intervalCount :=
    hdrained.count_eq ▸ hplacing.orderly.active_lt m hm
  rw [hdrained.continues.owner_eq hmlt] at howner
  have hlast : before.getLast? = some u := by
    obtain ⟨xs, hxs⟩ := hg.exists_before_eq hblock
    rw [hxs, hvalue, List.flatMap_singleton, Tree.postorder_eq]
    simp
  rw [hdrained.continues.size_eq, Notes.reg, hdrained.tree_eq] at hk
  have hj' := hdrained.registers_of k j hj
  have hjowner := hstacks.holdsLast u hlast (hg.subtree_isValue hyb (by simp [hvalue]))
    (hrest.temps.kind_ne m u hmlt howner) k j hk hj'
  exact hrest.temps.owner_inj j m u (hrest.orderly.occupied_lt k j hj') hmlt hjowner howner

/-- The stack when a tree gets its register.  If the tree is a store, the temporaries that are
active are in the register of the stored value. -/
theorem StackedAfter.stackedAt_of_recover (hstacks : StackedAfter g past before s)
    (hrest : Rested g (past ++ before) s) (hregs : ∀ u ∈ y.subtrees, 0 ≤ s.notes.reg u)
    (hrecover : recover g y s = .ok () s₁) {reuse : Bool}
    (hrelease : (if reuse then release y else pure ()) { s₁ with reuse } = .ok () s') :
    StackedAt g y s' ∧ (∀ u ∈ y.subtrees, 0 ≤ s'.notes.reg u) ∧ HoldsStored y s' := by
  have hstack := hstacks.stacked _ fun z hz => hrest.sorted.lt_of_mem_past htrees hz
  obtain ⟨back, hserving⟩ := (recover_serving hg htrees hrest hregs).1 s₁ hrecover
  obtain ⟨hstackedAt, hstore⟩ := recover_stackedAt hg htrees hrest hregs hstack hrecover
  obtain ⟨hplacing, hregs'⟩ := hserving.placing_of_release hg htrees hrelease
  have hdrained := drained_of_release hrelease
  refine ⟨hstackedAt.sublist hplacing.orderly hdrained.continues hdrained.active_sublist,
    hregs', ?_⟩
  intro hkind value rest k j m hvalue hk hj hm htemp
  have harity := hg.planted.arity_eq y (hg.mem_allTrees (b := b) (by simp [hblock]))
  have hone : y.subtrees.length ≠ 2 := by simp [harity, hkind, TreeKind.arity]
  exact hstacks.store_occupant hg htrees hblock hkind hrest ((hstore hone).trans hdrained) hplacing
    hvalue hk hj hm htemp

end

/-! ### Blocks -/

theorem Seated.active_eq {cs : List Crossing} (h : Seated cs s s') :
    s'.active = s.active ++ cs.map Crossing.interval := by
  induction h with
  | nil s => simp
  | cons _ _ ih => simpa using ih

/-- Only local variables are active where a block starts. -/
theorem enter_stackedAfter {s₀ : Allocator} {scanned : List BlockId} {b : BlockId}
    (hs : HasScanned g s₀ scanned s) (h : enter b s = .ok () s') (past : List Tree) :
    StackedAfter g past [] s' := by
  have hentered := enter_entered hs.orderly (HasScanned.exits hs) h
  refine stackedAfter_of_slots hentered.orderly ?_ past
  rcases enter_cases h with ⟨-, rfl⟩ | ⟨crossings, s₁, -, hfirst, hseated, rfl⟩
  · intro i hi
    cases hi
  · obtain ⟨q, -, hexit⟩ := exists_exit_of_firstExit hfirst
    have hfits := HasScanned.exits hs q crossings hexit
    intro i hi
    rw [hentered.continues.slots_eq]
    simp only [hseated.active_eq] at hi
    have hmem : i ∈ crossings.members.map Crossing.interval := by simpa [cleared] using hi
    obtain ⟨c, hc, rfl⟩ := List.mem_map.mp hmem
    exact hfits.interval_lt c hc

end Alloc
end LinearScan
