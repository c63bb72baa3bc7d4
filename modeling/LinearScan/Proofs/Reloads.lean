import LinearScan.Proofs.Soundness
import LinearScan.Proofs.Visits

/-!
# Values that come back into registers

A variable that is read while it is in no register has to be restored, and so has an operand
that was spilled.  The notes on a tree list these restores.

A restore of a variable is noted when an empty register is found for it, and not when another
interval has to make room: `Program.compile_reload_iff` says exactly which reads get one.  The
restore of an operand names the register that is found when the operand is taken, while the
tree that takes it reads the register in which the operand was produced:
`Program.compile_restore_reg_iff` says exactly when these two are the same.
-/

namespace LinearScan

open Allocator

/-! ## The register that is found -/

namespace Allocator

variable {s : Allocator} {pos number filled : Nat} {i : IntervalId}

/-- The register that is found, at index `pos`, for an interval that is in none: the first empty
one, or else that of the interval that has to make room. -/
def offer (s : Allocator) (pos : Nat) (i : IntervalId) : Option Int :=
  match s.freeRegisters with
  | number :: _ => some (number : Int)
  | [] =>
      (s.notes.nextUse i pos).bind fun use =>
        (s.victim pos (s.notes.index use) none s.active).bind fun v => (s.interval v).liveIn

theorem freeRegisters_of_choose (h : s.choose pos i = .ok (some (number, filled))) :
    ∃ others, s.freeRegisters = number :: others := by
  rw [choose] at h
  cases hfree : s.freeRegisters with
  | nil =>
      rw [hfree] at h
      cases h
  | cons first others =>
      refine ⟨others, ?_⟩
      rw [hfree] at h
      cases others with
      | nil =>
          injection h with h
          injection h with h
          rw [(Prod.mk.inj h).1]
      | cons other others =>
          cases huse : s.notes.nextUse i pos with
          | none =>
              simp only [huse] at h
              cases h
          | some use =>
              simp only [huse] at h
              injection h with h
              injection h with h
              rw [(Prod.mk.inj h).1]

end Allocator

namespace Alloc

variable {g : Graph} {pending past future : List Tree} {t y u p : Tree}
  {back : List IntervalId} {done rs : List Restore} {s s₁ s' fin : Allocator} {i : Nat}

theorem Activated.liveIn_eq_offer (h : Activated g t i s s')
    (hlive : (s.interval i).liveIn = none) :
    (s'.interval i).liveIn = s.offer (s.notes.index t) i := by
  cases h with
  | already reg hlive' =>
      rw [hlive] at hlive'
      cases hlive'
  | free number filled n _ hchoose hreload hfilled =>
      obtain ⟨others, hfree⟩ := freeRegisters_of_choose hchoose
      rw [offer, hfree]
      exact Notes.liveIn_place_self _ _ _
  | evicted use v reg k s₁ _ hchoose huse hvictim hspill hk =>
      obtain ⟨-, -, -, hreg, -⟩ := spill_cases hspill
      rw [offer, Allocator.choose_eq_none_iff.mp hchoose]
      simp only [huse, hvictim, Option.bind_some, hreg]
      exact Notes.liveIn_place_self _ _ _

/-! ## What is noted when a variable is read -/

/-- A variable that is read where nothing is restored yet: its restore is noted if there is an
empty register, and only then. -/
theorem Activated.restores_load (hs : s.Orderly g) (h : Activated g t i s s')
    (hi : i < s.slots.length) (hlive : (s.interval i).liveIn = none)
    (hrestores : (s.notes.tree t).restores = []) :
    (s'.notes.tree t).restores =
      if s.freeRegisters = [] then [] else [⟨(s'.interval i).liveIn, i⟩] := by
  cases h with
  | already reg hlive' =>
      rw [hlive] at hlive'
      cases hlive'
  | free number filled n _ hchoose hreload hfilled =>
      obtain ⟨others, hfree⟩ := freeRegisters_of_choose hchoose
      have hresult : (s.notes.interval i).owner.isResultOf t = false := by
        have howner := hs.owner_slot i hi
        rw [Allocator.interval] at howner
        rw [howner]
        rfl
      rw [Reloaded, hresult, hrestores] at hreload
      obtain ⟨found, hfound, rfl⟩ := hreload
      obtain rfl : false = found := by
        injection hfound
      have hne : s.freeRegisters ≠ [] := by
        rw [hfree]
        exact List.cons_ne_nil _ _
      rw [if_neg hne, Notes.tree_place, if_neg Bool.false_ne_true, restores_addRestore,
        if_pos rfl, hrestores, Allocator.interval, Notes.liveIn_place_self]
      rfl
  | evicted use v reg k s₁ _ hchoose huse hvictim hspill hk =>
      rw [if_pos (choose_eq_none_iff.mp hchoose), Notes.tree_place, ← hrestores]
      exact restores_of_victim huse hvictim hspill

theorem tree_yield {reuse : Bool}
    (h : (if reuse then release t else pure ()) s = .ok () s') (x : Tree) :
    s'.notes.tree x = s.notes.tree x := by
  split at h
  · obtain ⟨kept, s₁, hsifted, rfl⟩ := release_cases h
    exact hsifted.tree_eq x
  · obtain ⟨-, rfl⟩ := pure_cases h
    rfl

theorem extends_yield {reuse : Bool}
    (h : (if reuse then release t else pure ()) { s with reuse } = .ok () s') : s.Extends s' := by
  have hturn : s.Extends { s with reuse } := .of_notes_eq rfl rfl rfl rfl
  split at h
  · have hmove : Move {} t .preparing { s with reuse } s' := release_move h
    exact hturn.trans hmove.extends
  · obtain ⟨-, rfl⟩ := pure_cases h
    exact hturn

theorem Scanned.load (hg : g.Formed pending) (h : Scanned g fin past y future s s')
    (hkind : y.kind = .ldLocal) :
    ∃ s₁ i, requests g y s = [(s₁, i)] ∧ s₁.slotOf y = .ok i ∧
      ((s₁.interval i).liveIn = none →
        (fin.notes.tree y).restores =
          if s₁.freeRegisters = [] then [] else [⟨some (fin.notes.reg y), i⟩]) := by
  obtain ⟨s₁, s₂, s₃, hrelease, hcarry, hyield, hplace, hrequests⟩ :=
    phases_of_scanTree h.rested h.trees_eq h.scan_eq
  have hserving := release_serving hg h.trees_eq h.rested h.subtrees_reg hrelease
  -- A tree that takes no value has no operand to bring back.
  have hnone : (s₁.notes.tree y).restores = [] := by
    by_contra hne
    obtain ⟨r, hr⟩ := List.exists_mem_of_ne_nil _ hne
    obtain ⟨u, right, -, hsubtrees⟩ :=
      hserving.subtrees_eq hg h.trees_eq (List.mem_map_of_mem hr)
    have hlength := hg.subtrees_length h.mem_trees
    rw [hsubtrees, hkind] at hlength
    cases hlength
  rw [hnone] at hcarry hrequests hserving
  obtain ⟨-, rfl⟩ := pure_cases hcarry
  obtain ⟨hplacing, -⟩ := hserving.placing_of_release hg h.trees_eq hyield
  obtain ⟨-, hload⟩ | ⟨hstore, -⟩ | ⟨hnot, -⟩ := place_cases hplace
  · obtain ⟨i, s₄, hslot, hactivated, heq⟩ := scanLoad_cases hload
    refine ⟨s₃, i, ?_, hslot, ?_⟩
    · rw [hrequests, placeRequests, hkind]
      simp only [hslot]
      rfl
    · intro hlive
      have hi := hplacing.orderly.slotOf_lt hslot
      have hrestores := hactivated.restores_load hplacing.orderly hi hlive (by
        rw [tree_yield hyield]
        exact hnone)
      obtain ⟨r, hr⟩ := hactivated.exists_liveIn
      rw [Notes.reg, h.fixed_self, heq, restores_withReg, hrestores, hr]
      rw [← Notes.reg, reg_withReg hr]
  · rw [hkind] at hstore
    cases hstore
  · exact absurd hkind hnot

/-! ## What is noted when operands are brought back -/

theorem mem_of_mem_restoreRequests {k : Nat} {q : Allocator × IntervalId}
    (hq : q ∈ restoreRequests g t k rs s) : q.2 ∈ rs.map Restore.interval := by
  induction rs generalizing k s with
  | nil => cases hq
  | cons r rs ih =>
      rw [restoreRequests] at hq
      rcases List.mem_cons.mp hq with rfl | hq
      · simp
      · cases hcarry : carryRestore g t k r s with
        | error fault s' =>
            rw [hcarry] at hq
            cases hq
        | ok value s' =>
            rw [hcarry] at hq
            exact List.mem_cons_of_mem _ (ih hq)

/-- Each operand that is brought back is noted with the register that is found for it. -/
theorem carryRestores_offers (hg : g.Formed pending)
    (htrees : g.treesFrom 0 = past ++ y :: future)
    (h : Serving g past y back (rs.map Restore.interval) s)
    (hrestores : (s.notes.tree y).restores = done ++ rs)
    (hcarry : carryRestores g y done.length rs s = .ok () s') :
    (∃ back', Serving g past y back' [] s') ∧
      (s'.notes.tree y).restores = done ++ (restoreRequests g y done.length rs s).map fun q =>
        ⟨q.1.offer (q.1.notes.index y) q.2, q.2⟩ := by
  induction rs generalizing done back s with
  | nil =>
      obtain ⟨-, rfl⟩ := pure_cases hcarry
      exact ⟨⟨back, h⟩, hrestores⟩
  | cons r rs ih =>
      obtain ⟨⟨⟩, s₁, hfirst, hrest⟩ := exists_of_bind_apply_eq_ok hcarry
      rw [restoreRequests, hfirst]
      obtain ⟨hlive, s₂, hactivated, rfl⟩ := carryRestore_cases hfirst
      have hserving := (h.activated hg htrees hactivated).noteRestored done.length
        (s₂.interval r.interval).liveIn
      have hnoted : (s₂.notes.tree y).restores = done ++ r :: rs := by
        rw [← hrestores]
        refine hactivated.restores_eq h.orderly (h.next hg htrees).1 (Or.inr ⟨r, ?_, rfl⟩)
        rw [hrestores]
        simp
      have hrestores' : ((noteRestored s₂.notes y done.length
          (s₂.interval r.interval).liveIn).tree y).restores =
            (done ++ [⟨s.offer (s.notes.index y) r.interval, r.interval⟩]) ++ rs := by
        rw [noteRestored, Notes.tree_modifyTree, if_pos rfl]
        simp only [hnoted, modify_append_cons, hactivated.liveIn_eq_offer hlive]
        simp
      obtain ⟨hend, heq⟩ := ih hserving hrestores' (by simpa using hrest)
      refine ⟨hend, ?_⟩
      rw [heq]
      simp

theorem Activated.mem_restores_cases (h : Activated g t i s s') {r : Restore}
    (hr : r ∈ (s'.notes.tree t).restores) :
    r ∈ (s.notes.tree t).restores ∨ r.interval = i := by
  cases h with
  | already reg hlive => exact Or.inl hr
  | free number filled n hlive hchoose hreload hfilled =>
      rw [Notes.tree_place] at hr
      rcases hreload.tree_cases.2 with heq | heq
      · exact Or.inl (heq ▸ hr)
      · rw [heq, List.mem_append, List.mem_singleton] at hr
        rcases hr with hr | rfl
        · exact Or.inl hr
        · exact Or.inr rfl
  | evicted use v reg k s₁ hlive hchoose huse hvictim hspill hk =>
      rw [Notes.tree_place, restores_of_victim huse hvictim hspill] at hr
      exact Or.inl hr

/-- Placing a tree adds no restore of an operand. -/
theorem place_restores (hg : g.twins = {}) (hs : s.Orderly g)
    (hregs : ∀ u ∈ y.subtrees, 0 ≤ s.notes.reg u) (h : place g y s = .ok () s') {r : Restore}
    (hr : r ∈ (s'.notes.tree y).restores) :
    r ∈ (s.notes.tree y).restores ∨ r.interval < s.slots.length := by
  rcases place_cases h with
    ⟨-, hload⟩ | ⟨-, hstore⟩ | ⟨hload, hstore, ⟨p, hparent, htemp⟩ | ⟨-, rfl⟩⟩
  · obtain ⟨i, s₁, hslot, hactivated, rfl⟩ := scanLoad_cases hload
    rw [restores_withReg] at hr
    rcases hactivated.mem_restores_cases hr with hr | rfl
    · exact Or.inl hr
    · exact Or.inr (hs.slotOf_lt hslot)
  · exact Or.inl (scanStore_restores hg hs hstore ▸ hr)
  · obtain ⟨s₁, hactivated, rfl⟩ := scanTemp_cases htemp
    rw [restores_withReg] at hr
    have hcreated := (Move.create p hparent hload hstore).orderly hs hregs
    have hresult : (({ s with notes := s.notes.addInterval (tempOf s.notes y p) } :
        Allocator).interval s.notes.intervalCount).owner.isResultOf y = true := by
      rw [Allocator.interval, Notes.interval_addInterval, if_pos rfl]
      exact decide_eq_true rfl
    rw [hactivated.restores_eq hcreated (Nat.lt_succ_self _) (Or.inl hresult)] at hr
    exact Or.inl hr
  · exact Or.inl hr

theorem Scanned.restored (hg : g.Formed pending) (h : Scanned g fin past y future s s')
    {r : Restore} (hr : r ∈ (fin.notes.tree y).restores)
    (howner : (fin.interval r.interval).owner = .temp u) :
    (∃ right, y.subtrees = [u, right]) ∧ ∃ s₁, (s₁, r.interval) ∈ requests g y s ∧
      r.reg = s₁.offer (s₁.notes.index y) r.interval := by
  obtain ⟨s₁, s₂, s₃, hrelease, hcarry, hyield, hplace, hrequests⟩ :=
    phases_of_scanTree h.rested h.trees_eq h.scan_eq
  have hserving := release_serving hg h.trees_eq h.rested h.subtrees_reg hrelease
  have hnone : (s₁.notes.tree y).restores = [] ++ (s₁.notes.tree y).restores := rfl
  obtain ⟨⟨back, hserving'⟩, hnoted⟩ :=
    carryRestores_offers hg h.trees_eq hserving hnone hcarry
  obtain ⟨hplacing, hregs⟩ := hserving'.placing_of_release hg h.trees_eq hyield
  rw [h.fixed_self] at hr
  have hold : r ∈ (s₃.notes.tree y).restores := by
    refine (place_restores hg.twins_eq hplacing.orderly hregs hplace hr).resolve_right ?_
    intro hlt
    have hs' := (h.rested' hg).orderly
    rw [← (place_moves hg.twins_eq hplace).extends.slots_eq] at hlt
    rw [h.continues.owner_eq (Nat.lt_of_lt_of_le hlt hs'.slots_le), hs'.owner_slot _ hlt] at howner
    cases howner
  rw [tree_yield hyield, hnoted, List.nil_append] at hold
  obtain ⟨q, hq, rfl⟩ := List.mem_map.mp hold
  refine ⟨?_, q.1, ?_, rfl⟩
  · have hmem := mem_of_mem_restoreRequests hq
    obtain ⟨u', right, howner', hsubtrees⟩ := hserving.subtrees_eq hg h.trees_eq hmem
    have hext : s₁.Extends s' :=
      (carryRestores_moves hcarry fun r hr => ⟨r, hr, rfl⟩).extends.trans
        ((extends_yield hyield).trans (place_moves hg.twins_eq hplace).extends)
    rw [(hext.toContinues.trans h.continues).owner_eq (hserving.outside hg h.trees_eq hmem).1,
      howner'] at howner
    injection howner with heq
    exact ⟨right, heq ▸ hsubtrees⟩
  · rw [hrequests]
    exact List.mem_append_left _ hq

end Alloc

/-! ## Reads of variables -/

open Alloc

/-- When the scan of a program returns, a read of a variable that is in no register is noted
with a restore of the variable, into the register of the read, if and only if some register is
empty when the variable asks for one. -/
theorem Program.compile_reload_iff (p : Program) (settings : Settings) (c : Compiled)
    (h : p.compile settings = .ok c) (honce : ((c.ir.trees c.graph).map Tree.id).Nodup)
    (hfault : c.fault = none) :
    (p.steps settings).map Step.tree = c.ir.trees c.graph ∧
      ∀ x ∈ p.steps settings, x.tree.kind = .ldLocal →
        ∃ s i, x.requests = [(s, i)] ∧ s.slotOf x.tree = .ok i ∧
          ((s.interval i).liveIn = none →
            ((∃ r ∈ (c.alloc.notes.tree x.tree).restores,
                r.interval = i ∧ r.reg = some (c.alloc.notes.reg x.tree)) ↔
              s.freeRegisters ≠ [])) := by
  obtain ⟨pending, fin, hg, hmap, hnotes, -, hsteps⟩ := Program.compile_scanned h honce hfault
  refine ⟨hmap, ?_⟩
  intro x hx hkind
  obtain ⟨past, future, s, hscanned, hrequests⟩ := hsteps x hx
  obtain ⟨s₁, i, hrequest, hslot, hrestores⟩ := hscanned.load hg hkind
  refine ⟨s₁, i, hrequests.trans hrequest, hslot, ?_⟩
  intro hlive
  rw [Notes.reg, hnotes, hrestores hlive]
  by_cases hfree : s₁.freeRegisters = []
  · simp [hfree]
  · simp [hfree, Notes.reg]

/-- With one register, the first of two variables that are read gets its restore. -/
theorem Program.compile_reload_readBoth :
    ∃ c, Samples.readBoth.compile { registers := 1 } = .ok c ∧
      ((c.ir.trees c.graph).map Tree.id).Nodup ∧ c.fault = none ∧
      ∃ x ∈ Samples.readBoth.steps { registers := 1 }, x.tree.kind = .ldLocal ∧
        ∃ r ∈ (c.alloc.notes.tree x.tree).restores, r.reg = some (c.alloc.notes.reg x.tree) := by
  obtain ⟨c, hc, honce, hfault, x, hx, hkind, hempty⟩ :
      ∃ c, Samples.readBoth.compile { registers := 1 } = .ok c ∧
        ((c.ir.trees c.graph).map Tree.id).Nodup ∧ c.fault = none ∧
        ∃ x ∈ Samples.readBoth.steps { registers := 1 }, x.tree.kind = .ldLocal ∧
          ∀ q ∈ x.requests, (q.1.interval q.2).liveIn = none ∧ q.1.freeRegisters ≠ [] := by
    decide +kernel
  obtain ⟨s, i, hrequest, -, hiff⟩ :=
    (Program.compile_reload_iff _ _ c hc honce hfault).2 x hx hkind
  obtain ⟨hlive, hfree⟩ := hempty (s, i) (by simp [hrequest])
  obtain ⟨r, hr, -, hreg⟩ := (hiff hlive).mpr hfree
  exact ⟨c, hc, honce, hfault, x, hx, hkind, r, hr, hreg⟩

/-- With one register, the second of two variables that are read gets no restore. -/
theorem Program.compile_unreloaded_readBoth :
    ∃ c, Samples.readBoth.compile { registers := 1 } = .ok c ∧
      ((c.ir.trees c.graph).map Tree.id).Nodup ∧ c.fault = none ∧
      ∃ x ∈ Samples.readBoth.steps { registers := 1 }, x.tree.kind = .ldLocal ∧
        (∃ q ∈ x.requests, (q.1.interval q.2).liveIn = none) ∧
        (c.alloc.notes.tree x.tree).restores = [] := by
  decide +kernel

/-! ## Operands that were spilled -/

/-- When the scan of a program returns, only the left operand of an operation can have been
spilled, and its restore names the register from which the operation reads it if and only if
that register, in which the operand was produced, is the one that is found when the operand
asks for one. -/
theorem Program.compile_restore_reg_iff (p : Program) (settings : Settings) (c : Compiled)
    (h : p.compile settings = .ok c) (honce : ((c.ir.trees c.graph).map Tree.id).Nodup)
    (hfault : c.fault = none) :
    (p.steps settings).map Step.tree = c.ir.trees c.graph ∧
      ∀ x ∈ p.steps settings, ∀ r ∈ (c.alloc.notes.tree x.tree).restores, ∀ t,
        (c.alloc.interval r.interval).owner = .temp t →
          (∃ right, x.tree.subtrees = [t, right]) ∧
            ∃ s, (s, r.interval) ∈ x.requests ∧
              (r.reg = some (c.alloc.notes.reg t) ↔
                s.offer (s.notes.index x.tree) r.interval = some (c.alloc.notes.reg t)) := by
  obtain ⟨pending, fin, hg, hmap, hnotes, hintervals, hsteps⟩ :=
    Program.compile_scanned h honce hfault
  refine ⟨hmap, ?_⟩
  intro x hx r hr t howner
  obtain ⟨past, future, s, hscanned, hrequests⟩ := hsteps x hx
  rw [hnotes] at hr
  rw [hintervals] at howner
  obtain ⟨hleft, s₁, hrequest, hreg⟩ := hscanned.restored hg hr howner
  refine ⟨hleft, s₁, hrequests ▸ hrequest, ?_⟩
  rw [hreg]

/-- With two registers, an operand that was spilled comes back into its register. -/
theorem Program.compile_restore_reg_crowdedSum :
    ∃ c, Samples.crowdedSum.compile { registers := 2 } = .ok c ∧
      ((c.ir.trees c.graph).map Tree.id).Nodup ∧ c.fault = none ∧
      ∃ x ∈ Samples.crowdedSum.steps { registers := 2 },
        ∃ r ∈ (c.alloc.notes.tree x.tree).restores, ∃ t right, x.tree.subtrees = [t, right] ∧
          (c.alloc.interval r.interval).owner = .temp t ∧ ∃ s, (s, r.interval) ∈ x.requests ∧
            s.offer (s.notes.index x.tree) r.interval = some (c.alloc.notes.reg t) := by
  obtain ⟨c, hc, honce, hfault, x, hx, r, hr, htemp, hsame⟩ :
      ∃ c, Samples.crowdedSum.compile { registers := 2 } = .ok c ∧
        ((c.ir.trees c.graph).map Tree.id).Nodup ∧ c.fault = none ∧
        ∃ x ∈ Samples.crowdedSum.steps { registers := 2 },
          ∃ r ∈ (c.alloc.notes.tree x.tree).restores,
            (c.alloc.interval r.interval).owner.isTemp = true ∧
            ∀ t ∈ x.tree.subtrees.head?, r.reg = some (c.alloc.notes.reg t) := by
    decide +kernel
  cases howner : (c.alloc.interval r.interval).owner with
  | slot k =>
      rw [howner] at htemp
      cases htemp
  | temp t =>
      obtain ⟨⟨right, hsubtrees⟩, s, hs, hiff⟩ :=
        (Program.compile_restore_reg_iff _ _ c hc honce hfault).2 x hx r hr t howner
      exact ⟨c, hc, honce, hfault, x, hx, r, hr, t, right, hsubtrees, howner, s, hs,
        hiff.mp (hsame t (by simp [hsubtrees]))⟩

/-- A variable is read, then three constants are added from the right. -/
def Samples.readThenSum : Program where
  locals := 1
  instrs := [instr .ldLocal [0], instr .pop, instr .push [1], instr .push [2], instr .push [3],
    instr (.binary .add), instr (.binary .add), instr .ret]

/-- With two registers, the first constant comes back into another register than the one from
which it is read. -/
theorem Program.compile_restored_elsewhere_readThenSum :
    ∃ c, Samples.readThenSum.compile { registers := 2 } = .ok c ∧
      ((c.ir.trees c.graph).map Tree.id).Nodup ∧ c.fault = none ∧
      ∃ q ∈ c.ir.trees c.graph, ∃ r ∈ (c.alloc.notes.tree q).restores, ∃ t ∈ q.subtrees,
        (c.alloc.interval r.interval).owner.isResultOf t = true ∧
          r.reg ≠ some (c.alloc.notes.reg t) := by
  decide +kernel

end LinearScan
