import LinearScan.Proofs.Stacking
import LinearScan.Proofs.Verdicts

/-!
# Allocation does not depend on constants

When every tree is reached once, no two temporaries are ever compared: what is taken off the
active list is a local variable or the first temporary of the list, and a tree restores at most
one temporary.  All other comparisons are decided by the owners of the intervals.  So programs
that differ only in what they push get the same registers, with the same spills, moves and
restores, or their scans stop for the same reason.
-/

namespace LinearScan

open Allocator

namespace Alloc

variable {T : Trim} {g : Graph} {pending past before future : List Tree} {y : Tree}
  {s : Allocator} {i j : Nat}

/-- An interval is found on the active list without a comparison of temporaries, if it is a
variable or no temporary stands before it. -/
theorem removable_of_first (hs : s.Orderly g) (hi : i < s.notes.intervalCount)
    (h : (s.interval i).owner.isTemp = true →
      ∀ j ∈ s.active.takeWhile (· != i), (s.interval j).owner.isTemp = false) :
    Removable T g s i := by
  intro j hj
  have hji : j ≠ i := by simpa using List.mem_takeWhile_imp hj
  have hjlt := hs.active_lt j ((List.takeWhile_sublist _).subset hj)
  refine discerned_of_slot hs.toOwned hjlt hi hji ?_
  cases htemp : (s.interval i).owner.isTemp with
  | false => exact Or.inr rfl
  | true => exact Or.inl (h htemp j hj)

/-- An interval comes into a register without a comparison of temporaries. -/
theorem StackedAt.seatable (h : StackedAt g y s)
    (hreload : (s.interval i).owner.isResultOf y = false →
      ∀ r ∈ (s.notes.tree y).restores.takeWhile (·.interval != i),
        Discerned T g s.notes r.interval i) : Seatable T g y s i where
  reload := hreload
  evict use v _ hvictim := by
    refine removable_of_first h.orderly (h.orderly.active_lt v (mem_active_of_victim hvictim)) ?_
    exact h.stacked.victim h.orderly h.awaited hvictim

/-- A tree gets its register without a comparison of temporaries. -/
theorem StackedAt.placeable (h : StackedAt g y s) (hsubtrees : ∀ u ∈ y.subtrees, 0 ≤ s.notes.reg u)
    (hstore : HoldsStored y s) : Placeable T g y s where
  load hkind i hslot := by
    have hi := h.orderly.slotOf_lt hslot
    have hlt := Nat.lt_of_lt_of_le hi h.orderly.slots_le
    refine h.seatable fun _ r hr => ?_
    have hri : r.interval ≠ i := by simpa using List.mem_takeWhile_imp hr
    refine discerned_of_slot h.orderly.toOwned ?_ hlt hri (Or.inr ?_)
    · exact h.orderly.restore_lt y r ((List.takeWhile_sublist _).subset hr)
    · rw [h.orderly.owner_slot i hi]
      rfl
  store hkind value rest k j hvalue hk hj := by
    have hj := Option.join_eq_some_iff.mp hj
    refine removable_of_first h.orderly (h.orderly.occupied_lt k j hj) ?_
    intro _ m hm
    by_contra htemp
    have hmj : m ≠ j := by simpa using List.mem_takeWhile_imp hm
    exact hmj (hstore hkind value rest k j m hvalue hk hj ((List.takeWhile_sublist _).subset hm)
      (by simpa using htemp)).symm
  result hload hstore p hparent := by
    refine (h.create hsubtrees hload hstore hparent).seatable fun hresult => ?_
    simp [Allocator.interval, Notes.interval_addInterval, tempOf, Owner.isResultOf] at hresult

/-! ## The scan -/

/-- A tree is scanned without a comparison of temporaries. -/
theorem StackedAfter.scanTree_mirrors (hg : g.Formed pending) {b : BlockId} {after : List Tree}
    (htrees : g.treesFrom 0 = (past ++ before) ++ y :: future)
    (hblock : g.treesOf b = before ++ y :: after) (hstacks : StackedAfter g past before s)
    (hrest : Rested g (past ++ before) s) (hregs : ∀ u ∈ y.subtrees, 0 ≤ s.notes.reg u) :
    Mirrors (Allocator.trim T) (scanTree g y) (scanTree (g.trim T) (y.trim T)) s := by
  have hstack := hstacks.stacked _ fun z hz => hrest.sorted.lt_of_mem_past htrees hz
  refine Alloc.scanTree_mirrors (recover_mirrors ?_ ?_) ?_
  · intro s₁ hrelease
    obtain ⟨-, -, hnone, -, -⟩ := release_stackedAt hg htrees hrest hregs hstack hrelease
    rw [hnone]
    exact mirrors_pure () s₁
  · intro s₁ s₂ hrelease hspills
    obtain ⟨hstackedAt, -, hnone, hserving, hcases⟩ :=
      release_stackedAt hg htrees hrest hregs hstack hrelease
    rw [hnone] at hspills
    obtain ⟨-, rfl⟩ := pure_cases hspills
    rcases hcases with hnil | ⟨r, u, w, hone, -⟩
    · rw [hnil]
      exact mirrors_pure () s₂
    · rw [hone]
      refine (carryRestore_mirrors fun _ => hstackedAt.seatable fun _ q hq => ?_).bind
        fun _ s₃ _ => mirrors_pure () s₃
      simp [hone] at hq
  · intro s₁ hrecover
    refine finish_mirrors fun s₂ hrelease => ?_
    obtain ⟨hstackedAt, hregs₂, hstore⟩ :=
      hstacks.stackedAt_of_recover hg htrees hblock hrest hregs hrecover hrelease
    exact hstackedAt.placeable hregs₂ hstore

/-- The trees of a block are scanned without a comparison of temporaries. -/
theorem scanTrees_mirrors_of_rested (hg : g.Formed pending) {b : BlockId} {rest : List Tree}
    (hall : g.treesFrom 0 = past ++ (g.treesOf b ++ rest)) (hscan : s.Scanning g [])
    (hstacks : StackedAfter g past [] s) (hrest : Rested g past s) :
    Mirrors (Allocator.trim T) (scanTrees g (g.treesOf b))
      (scanTrees (g.trim T) ((g.treesOf b).map (Tree.trim T))) s := by
  refine scanTrees_mirrors (P := fun ts s => ∃ before, g.treesOf b = before ++ ts ∧
    s.Scanning g before ∧ StackedAfter g past before s ∧ Rested g (past ++ before) s) ?_ ?_
    ⟨[], rfl, hscan, hstacks, by simpa⟩
  · rintro t ts s ⟨before, htrees, hscan, hstacks, hrest⟩
    exact hstacks.scanTree_mirrors hg (treesFrom_of_treesOf hall htrees) htrees hrest
      (Scanning.subtrees_reg hg hscan htrees)
  · rintro t ts s s₁ ⟨before, htrees, hscan, hstacks, hrest⟩ h
    have htrees' := treesFrom_of_treesOf hall htrees
    have hregs := Scanning.subtrees_reg hg hscan htrees
    refine ⟨before ++ [t], by simp [htrees], scanTree_scanning hg hscan htrees h,
      scanTree_stackedAfter hg htrees' hrest hregs hstacks h, ?_⟩
    rw [← List.append_assoc]
    exact (scanTree_rested hg htrees' hrest hregs h).1

/-- Blocks are scanned without a comparison of temporaries. -/
theorem scanBlocks_mirrors_of_rested (hg : g.Formed pending) {s₀ : Allocator}
    (hhas : HasScanned g s₀ [] s) (hrest : Rested g [] s) :
    Mirrors (Allocator.trim T) (scanBlocks g (g.blocksFrom 0))
      (scanBlocks (g.trim T) (g.blocksFrom 0)) s := by
  refine scanBlocks_mirrors hg (P := fun scanned s => Rested g (scanned.flatMap g.treesOf) s)
    ?_ ?_ (List.nil_append _).symm hhas hrest
  · intro scanned b bs s s₁ hsplit hhas hrest henter
    obtain ⟨hrest₁, hscan₁⟩ := enter_rested hg hhas hrest henter
    exact scanTrees_mirrors_of_rested hg (treesFrom_split hsplit) hscan₁
      (enter_stackedAfter hhas henter _) hrest₁
  · intro scanned b bs s s₁ hsplit hhas hrest h
    exact (scanBlock_rested hg hsplit hhas hrest h).1

end Alloc

/-! ## Programs -/

theorem Imported.ids_trim (T : Trim) (m : Imported) :
    ((m.trim T).ir.trees (m.trim T).graph).map Tree.id = (m.ir.trees m.graph).map Tree.id := by
  simp [Imported.trim, Ir.trees, Graph.treesFrom_trim]

namespace Program

open Alloc

variable {T : Trim} {p q : Program} {m : Imported}

/-- If every tree is reached once, operands that are left out do not matter. -/
theorem mirrored_of_once (h : p.import? = .ok m)
    (honce : ((m.ir.trees m.graph).map Tree.id).Nodup) (settings : Settings) :
    p.Mirrored T settings := by
  refine mirrored_of_blocks fun m' s h' hsurvey => ?_
  rw [h] at h'
  injection h' with h'
  subst h'
  obtain ⟨⟨pending, hg⟩, hfresh, -⟩ := import?_formed h
  exact scanBlocks_mirrors_of_rested hg (survey_hasScanned hfresh hsurvey).1
    (survey_rested hfresh (import?_sorted h honce) hsurvey)

/-- The programs differ only in what they push. -/
structure SameButPushed (p q : Program) : Prop where
  locals : p.locals = q.locals
  instrs : List.Forall₂ (fun a b : Instr => a.opcode = b.opcode ∧
    (a.opcode ≠ .push → a.operands = b.operands)) p.instrs q.instrs

theorem SameButPushed.trim_eq (h : p.SameButPushed q) : p.trim .constants = q.trim .constants := by
  have hinstr : ∀ a b : Instr, a.opcode = b.opcode ∧ (a.opcode ≠ .push → a.operands = b.operands) →
      a.trim .constants = b.trim .constants := by
    rintro ⟨op, os⟩ ⟨op', os'⟩ ⟨rfl, hoperands⟩
    by_cases hpush : op = .push
    · subst hpush
      rfl
    · rw [show os = os' from hoperands hpush]
  have hinstrs := h.instrs.imp hinstr
  rw [← List.forall₂_map_right_iff (f := Instr.trim .constants),
    ← List.forall₂_map_left_iff (f := Instr.trim .constants), List.forall₂_eq_eq_eq] at hinstrs
  rw [trim, trim, hinstrs, h.locals]

/-- Programs that differ only in what they push are read alike. -/
theorem SameButPushed.read_once (h : p.SameButPushed q) (hp : p.import? = .ok m)
    (honce : ((m.ir.trees m.graph).map Tree.id).Nodup) :
    ∃ m', q.import? = .ok m' ∧ ((m'.ir.trees m'.graph).map Tree.id).Nodup := by
  have hread := (import?_trim .constants p).symm.trans (h.trim_eq ▸ import?_trim .constants q)
  rw [hp] at hread
  cases hq : q.import? with
  | error fault =>
      rw [hq] at hread
      cases hread
  | ok m' =>
      rw [hq] at hread
      injection hread with hread
      refine ⟨m', rfl, ?_⟩
      rwa [← Imported.ids_trim .constants, ← hread, Imported.ids_trim]

/-- Registers do not depend on constants: if every tree is reached once, programs that differ
only in what they push are compiled with the same outcome, whatever the settings are.  Both
scans return, or both stop for the same reason; they show the same lines; and trees, blocks and
edges in the same places have the same registers, spills, restores, moves, entry sets and exit
sets. -/
theorem compile_sameOutcome_of_pushed (p q : Program) (settings : Settings) (m : Imported)
    (hp : p.import? = .ok m) (honce : ((m.ir.trees m.graph).map Tree.id).Nodup)
    (h : p.SameButPushed q) :
    ∃ c d, p.compile settings = .ok c ∧ q.compile settings = .ok d ∧ c.SameOutcome d := by
  obtain ⟨m', hq, honce'⟩ := h.read_once hp honce
  rcases sameOutcome_of_trim_eq h.trim_eq (mirrored_of_once hp honce settings)
      (mirrored_of_once hq honce' settings) with ⟨fault, hfault, -⟩ | hsame
  · rw [compile, hp] at hfault
    cases hfault
  · exact hsame

/-- A sum of three equal constants, with two registers, is compiled like that of three
different ones. -/
theorem compile_sameOutcome_of_pushed_nestedSum :
    ∃ (m : Imported) (q : Program), Samples.nestedSum.import? = .ok m ∧
      ((m.ir.trees m.graph).map Tree.id).Nodup ∧
      q.instrs.filter (fun a => a.opcode = .push) = List.replicate 3 (Samples.instr .push [0]) ∧
      ∃ c d, Samples.nestedSum.compile { registers := 2 } = .ok c ∧
        q.compile { registers := 2 } = .ok d ∧ c.SameOutcome d := by
  obtain ⟨m, hm, honce⟩ : ∃ m, Samples.nestedSum.import? = .ok m ∧
      ((m.ir.trees m.graph).map Tree.id).Nodup := by
    decide +kernel
  refine ⟨m, ⟨0, [Samples.instr .push [0], Samples.instr .push [0], Samples.instr .push [0],
    Samples.instr (.binary .add), Samples.instr (.binary .add), Samples.instr .ret]⟩, hm, honce,
    by decide, compile_sameOutcome_of_pushed _ _ _ m hm honce ⟨rfl, ?_⟩⟩
  simp [Samples.nestedSum, Samples.instr]

end Program
end LinearScan
