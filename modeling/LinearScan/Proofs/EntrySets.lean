import LinearScan.Proofs.EdgeResolution
import LinearScan.Proofs.Faults

/-!
# Where a block finds nothing to start with

A block that something jumps to starts with what the first of its predecessors that has
been scanned has left.  The blocks are scanned in the order of their offsets, and jumps go
anywhere, so there need not be one: a block may be reached only from itself and from blocks
behind it.  That is the one case in which the scan stops for want of an exit set, and it
does stop there whenever it gets that far.
-/

namespace LinearScan

/-- An edge leads from the block `b` to the block `c`. -/
def Graph.LeadsTo (g : Graph) (b c : BlockId) : Prop :=
  ∃ x ∈ g.exits b, x.2 = c

instance (g : Graph) (b c : BlockId) : Decidable (g.LeadsTo b c) :=
  inferInstanceAs (Decidable (∃ x ∈ g.exits b, x.2 = c))

/-- The sources of the edges that lead from `bs` to `c`, one for each edge. -/
def Graph.sourcesOf (g : Graph) (bs : List BlockId) (c : BlockId) : List BlockId :=
  bs.flatMap fun b => ((g.exits b).filter fun x => x.2 = c).map fun _ => b

theorem Graph.mem_sourcesOf {g : Graph} {bs : List BlockId} {b c : BlockId} :
    b ∈ g.sourcesOf bs c ↔ b ∈ bs ∧ g.LeadsTo b c := by
  simp only [sourcesOf, LeadsTo, List.mem_flatMap, List.mem_map, List.mem_filter,
    decide_eq_true_eq]
  constructor
  · rintro ⟨d, hd, x, ⟨hx, hxc⟩, rfl⟩
    exact ⟨hd, x, hx, hxc⟩
  · rintro ⟨hb, x, hx, hxc⟩
    exact ⟨b, hb, x, ⟨hx, hxc⟩, rfl⟩

/-! ## The predecessors of a block -/

namespace Ir

variable {g : Graph} {n n' : Notes}

theorem eachEdge_predecessors
    {b : BlockId} {operands : List Operand}
    (h : eachEdge (fun _ target => modify fun n => n.modifyBlock target fun note =>
      { note with predecessors := note.predecessors ++ [b] }) operands n = .ok () n')
    (c : BlockId) :
    (n'.block c).predecessors = (n.block c).predecessors ++
      ((operands.filterMap Operand.edge?).filter fun x => x.2 = c).map fun _ => b := by
  induction operands generalizing n with
  | nil =>
      obtain ⟨-, rfl⟩ := pure_cases h
      simp
  | cons o operands ih =>
      cases o with
      | edge e target =>
          obtain ⟨⟨⟩, n₁, hfirst, hrest⟩ := exists_of_bind_apply_eq_ok h
          injection hfirst with _ hfirst
          rw [ih hrest, ← hfirst, Notes.block_modifyBlock]
          by_cases htarget : target = c
          · simp [htarget, Operand.edge?]
          · simp [htarget, Operand.edge?]
      | literal l => cases h
      | operator op => cases h

/-- The blocks `bs` note themselves where their edges lead to. -/
theorem notePredecessors_predecessors
    {bs : List BlockId} (h : notePredecessors g bs n = .ok () n') (c : BlockId) :
    (n'.block c).predecessors = (n.block c).predecessors ++ g.sourcesOf bs c := by
  induction bs generalizing n with
  | nil =>
      obtain ⟨-, rfl⟩ := pure_cases h
      simp [Graph.sourcesOf]
  | cons b bs ih =>
      obtain ⟨⟨⟩, n₁, hfirst, hrest⟩ := exists_of_bind_apply_eq_ok h
      have hb : (n₁.block c).predecessors = (n.block c).predecessors ++
          ((g.exits b).filter fun x => x.2 = c).map fun _ => b := by
        obtain ⟨old, n₂, hget, hexit⟩ := exists_of_bind_apply_eq_ok hfirst
        injection hget with hold hstate
        subst hold hstate
        rw [eachExit] at hexit
        rw [Graph.exits]
        cases hlast : g.terminator b with
        | error fault =>
            simp only [hlast] at hexit
            cases hexit
        | ok t =>
            simp only [hlast] at hexit
            have hedges := eachEdge_predecessors hexit c
            rwa [Alloc.edges_operands] at hedges
      rw [ih hrest, hb, List.append_assoc]
      rfl

end Ir

theorem Notes.block_number (n : Notes) (start : Nat) (ts : List Tree) (b : BlockId) :
    (n.number start ts).block b = n.block b := by
  induction ts generalizing n start with
  | nil => rfl
  | cons t ts ih => exact ih _ _

/-- The predecessors of a block are the sources of the edges that lead to it, in the order
of the blocks. -/
theorem Program.import?_predecessors {p : Program} {m : Imported} (h : p.import? = .ok m)
    (c : BlockId) :
    (m.notes.block c).predecessors = m.graph.sourcesOf (m.ir.blocks m.graph) c := by
  obtain ⟨s, n, -, -, hgraph, hir, hpred, hnotes, -⟩ := Program.import?_cases h
  have hpreds := Ir.notePredecessors_predecessors hpred c
  rw [hnotes, Notes.block_number, hpreds, hgraph, hir]
  have hnone : (({} : Notes).block c).predecessors = [] :=
    congrArg BlockNote.predecessors (Table.get_empty c)
  rw [hnone, List.nil_append]
  rfl

/-! ## The start of a block -/

namespace Alloc

open Allocator

variable {g : Graph} {pending : List Tree} {b : BlockId} {s₀ s : Allocator}
  {scanned bs : List BlockId}

theorem firstExit_eq_none_iff {n : Notes} {ps : List BlockId} :
    n.firstExit ps = none ↔ ∀ p ∈ ps, (n.block p).exit = none := by
  induction ps with
  | nil => simp [Notes.firstExit]
  | cons p ps ih =>
      rw [Notes.firstExit]
      cases hexit : (n.block p).exit with
      | none => simp [hexit, ih]
      | some crossings => simp [hexit]

theorem enter_noExitSet_iff :
    (∃ s', enter b s = .error .noExitSet s') ↔
      (s.notes.block b).predecessors ≠ [] ∧
        s.notes.firstExit (s.notes.block b).predecessors = none := by
  have hblock := block_cleared s b
  rw [enter, bind_apply_of_ok (modify_apply _ s), bind_apply_of_ok (clear_apply _),
    bind_apply_of_ok (get_apply _)]
  simp only [hblock, firstExit_congr hblock]
  cases hpredecessors : (s.notes.block b).predecessors with
  | nil => simp
  | cons p ps =>
      dsimp only
      cases hexit : s.notes.firstExit (p :: ps) with
      | none => simp
      | some crossings =>
          simp only [reduceCtorEq, and_false, iff_false, not_exists]
          intro s' hstop
          have hcause : Fault.OfPosition .noExitSet := by
            refine Confined.cause ?_ hstop
            exact (confined_seat Fault.admits_self _).bind fun _ _ _ => confined_modify rfl
          exact hcause

/-- The scan of a block stops for want of an exit set only at its start. -/
theorem scanBlock_noExitSet_iff :
    (∃ s', scanBlock g b s = .error .noExitSet s') ↔ ∃ s', enter b s = .error .noExitSet s' := by
  refine exists_congr fun s' => ?_
  rw [scanBlock, bind_apply_eq_error_iff]
  refine or_iff_left ?_
  rintro ⟨-, s₁, -, hrest⟩
  have htree : ∀ v : Visit, Confined (fun _ => False) Fault.OfTree (scanTree g v.tree) v.before :=
    fun _ => confined_scanTree_of_tree (fun _ => id) nofun
  have hdepart : ∀ s₂, Confined (fun _ => False) Fault.OfTree (depart b) s₂ := fun _ =>
    confined_depart (fun _ h _ => h.ofMove.ofTree) b
  exact ((confined_scanTrees fun v _ => htree v).bind fun _ s₂ _ => hdepart s₂).cause hrest

/-- The scan of blocks stops for want of an exit set where it comes to a block that has
predecessors, none of which has been scanned. -/
theorem scanBlocks_noExitSet_iff (hg : g.Formed pending) (hs : HasScanned g s₀ scanned s)
    (hnodup : (scanned ++ bs).Nodup) :
    (∃ s', scanBlocks g bs s = .error .noExitSet s') ↔
      ∃ before b after s₁, bs = before ++ b :: after ∧ scanBlocks g before s = .ok () s₁ ∧
        (s₀.notes.block b).predecessors ≠ [] ∧
        ∀ c ∈ (s₀.notes.block b).predecessors, c ∉ scanned ++ before := by
  induction bs generalizing s scanned with
  | nil => simp [scanBlocks]
  | cons b bs ih =>
      have hb : b ∉ scanned :=
        fun hmem => (List.nodup_append.mp hnodup).2.2 b hmem b (by simp) rfl
      have hassoc : scanned ++ b :: bs = (scanned ++ [b]) ++ bs := by simp
      rw [hassoc] at hnodup
      -- Here and now: `b` has predecessors, and none of them is among those scanned.
      have hhere : (∃ s', scanBlock g b s = .error .noExitSet s') ↔
          (s₀.notes.block b).predecessors ≠ [] ∧
            ∀ c ∈ (s₀.notes.block b).predecessors, c ∉ scanned := by
        rw [scanBlock_noExitSet_iff, enter_noExitSet_iff, hs.continues.predecessors_eq,
          firstExit_eq_none_iff]
        refine and_congr_right fun _ => forall₂_congr fun c _ => ?_
        constructor
        · intro hnone hmem
          obtain ⟨crossings, hcrossings, -⟩ := hs.exit_fits c hmem
          rw [hnone] at hcrossings
          cases hcrossings
        · exact hs.exit_of_not_mem c
      constructor
      · rintro ⟨s', hstop⟩
        rcases bind_apply_eq_error_iff.mp hstop with hfirst | ⟨⟨⟩, s₁, hfirst, hrest⟩
        · obtain ⟨hne, hnone⟩ := hhere.mp ⟨s', hfirst⟩
          exact ⟨[], b, bs, s, rfl, rfl, hne, by simpa using hnone⟩
        · obtain ⟨before, c, after, s₂, rfl, hbefore, hne, hnone⟩ :=
            (ih (scanBlock_hasScanned hg hs hb hfirst) hnodup).mp ⟨s', hrest⟩
          refine ⟨b :: before, c, after, s₂, rfl, ?_, hne, by simpa using hnone⟩
          rw [scanBlocks, bind_apply_of_ok hfirst, hbefore]
      · rintro ⟨before, c, after, s₁, hsplit, hbefore, hne, hnone⟩
        cases before with
        | nil =>
            obtain ⟨rfl, rfl⟩ := List.cons.inj hsplit
            obtain ⟨s', hstop⟩ := hhere.mpr ⟨hne, by simpa using hnone⟩
            exact ⟨s', bind_apply_eq_error_iff.mpr (Or.inl hstop)⟩
        | cons d before =>
            obtain ⟨rfl, rfl⟩ := List.cons.inj hsplit
            obtain ⟨⟨⟩, s₂, hfirst, hrest⟩ := exists_of_bind_apply_eq_ok hbefore
            obtain ⟨s', hstop⟩ := (ih (scanBlock_hasScanned hg hs hb hfirst) hnodup).mpr
              ⟨before, c, after, s₁, rfl, hrest, hne, by simpa using hnone⟩
            exact ⟨s', bind_apply_eq_error_iff.mpr (Or.inr ⟨(), s₂, hfirst, hstop⟩)⟩

/-- A scan stops for want of an exit set only while it goes over the blocks. -/
theorem scan_noExitSet_iff {ir : Ir} :
    (∃ s', scan g ir s = .error .noExitSet s') ↔
      ∃ s₁, survey g ir s = .ok () s₁ ∧
        ∃ s', scanBlocks g (ir.blocks g) s₁ = .error .noExitSet s' := by
  constructor
  · rintro ⟨s', hstop⟩
    rcases bind_apply_eq_error_iff.mp hstop with hsurvey | ⟨⟨⟩, s₁, hsurvey, hrest⟩
    · exact ((confined_survey Fault.admits_self ir).cause hsurvey).elim
    · rcases bind_apply_eq_error_iff.mp hrest with hblocks | ⟨⟨⟩, s₂, -, hedges⟩
      · exact ⟨s₁, hsurvey, s', hblocks⟩
      · exact ((confined_resolveEdges Fault.admits_self _).cause hedges).elim
  · rintro ⟨s₁, hsurvey, s', hblocks⟩
    refine ⟨s', bind_apply_eq_error_iff.mpr (Or.inr ⟨(), s₁, hsurvey, ?_⟩)⟩
    exact bind_apply_eq_error_iff.mpr (Or.inl hblocks)

end Alloc

/-! ## The scan of a program -/

open Alloc

/-- What compiling a program gives when the scan stops. -/
theorem Program.compile_fault_iff {p : Program} {settings : Settings} {m : Imported}
    (h : p.import? = .ok m) {fault : Fault} :
    (∃ c, p.compile settings = .ok c ∧ c.fault = some fault) ↔
      ∃ s, scan m.graph m.ir
        (Allocator.create m.notes settings.registers settings.reuse) = .error fault s := by
  rw [compile, h]
  simp only [bind, Except.bind]
  cases scan m.graph m.ir (Allocator.create m.notes settings.registers settings.reuse) with
  | ok value alloc => simp [pure, Except.pure]
  | error cause alloc => simp [pure, Except.pure]

/-- The scan stops for want of an exit set if and only if it gets to a block that edges
lead to, but none from a block in front of it. -/
theorem Program.compile_noExitSet_iff
    (p : Program) (settings : Settings) (m : Imported) (h : p.import? = .ok m) :
    (∃ c, p.compile settings = .ok c ∧ c.fault = some .noExitSet) ↔
      ∃ before b after s, m.ir.blocks m.graph = before ++ b :: after ∧
        (∃ c ∈ m.ir.blocks m.graph, m.graph.LeadsTo c b) ∧
        (∀ c ∈ before, ¬ m.graph.LeadsTo c b) ∧
        (do survey m.graph m.ir; scanBlocks m.graph before)
          (Allocator.create m.notes settings.registers settings.reuse) = .ok () s := by
  obtain ⟨⟨pending, hg⟩, hfresh, hfirst⟩ := Program.import?_formed h
  have hnodup : (m.ir.blocks m.graph).Nodup := by
    rw [Ir.blocks, hfirst]
    exact hg.chained.nodup
  rw [Program.compile_fault_iff h, scan_noExitSet_iff]
  -- After the survey the predecessors of a block are still those that were read off the edges.
  have hpredecessors : ∀ {s}, survey m.graph m.ir
      (Allocator.create m.notes settings.registers settings.reuse) = .ok () s →
      ∀ b, (s.notes.block b).predecessors = m.graph.sourcesOf (m.ir.blocks m.graph) b := by
    intro s hs b
    rw [← Program.import?_predecessors h, Notes.block, (survey_hasScanned hfresh hs).2.blocks_eq]
    rfl
  constructor
  · rintro ⟨s, hs, hstop⟩
    have hhas := (survey_hasScanned hfresh hs).1
    obtain ⟨before, b, after, s₁, hsplit, hbefore, hne, hnone⟩ :=
      (scanBlocks_noExitSet_iff hg hhas (by simpa using hnodup)).mp hstop
    rw [hpredecessors hs] at hne hnone
    obtain ⟨c, hc⟩ := List.exists_mem_of_ne_nil _ hne
    refine ⟨before, b, after, s₁, hsplit, ⟨c, Graph.mem_sourcesOf.mp hc⟩, ?_, ?_⟩
    · intro d hd hleads
      refine hnone d (Graph.mem_sourcesOf.mpr ⟨?_, hleads⟩) (by simpa using hd)
      simp [hsplit, hd]
    · rw [bind_apply_of_ok hs, hbefore]
  · rintro ⟨before, b, after, s₁, hsplit, ⟨c, hc, hleads⟩, hnone, hreach⟩
    obtain ⟨⟨⟩, s, hs, hbefore⟩ := exists_of_bind_apply_eq_ok hreach
    have hhas := (survey_hasScanned hfresh hs).1
    refine ⟨s, hs, (scanBlocks_noExitSet_iff hg hhas (by simpa using hnodup)).mpr
      ⟨before, b, after, s₁, hsplit, hbefore, ?_, ?_⟩⟩
    · rw [hpredecessors hs]
      exact List.ne_nil_of_mem (Graph.mem_sourcesOf.mpr ⟨hc, hleads⟩)
    · intro d hd hmem
      rw [hpredecessors hs] at hd
      exact hnone d (by simpa using hmem) (Graph.mem_sourcesOf.mp hd).2

/-- A loop that is entered at its bottom: the block at offset 3 is only reached from the
block behind it. -/
def Samples.enteredBelow : Program where
  locals := 0
  instrs :=
    [instr .push [0], instr .pop, instr .jmp [5], instr .push [1], instr .ret, instr .jmp [3]]

/-- The blocks stand in the order of their numbers 0, 2 and 1, and only block 1 leads to block 2.
Block 0 can be scanned, so the scan stops behind it. -/
theorem Program.compile_noExitSet_enteredBelow :
    ∃ m, Samples.enteredBelow.import? = .ok m ∧
      ∃ c, Samples.enteredBelow.compile {} = .ok c ∧ c.fault = some .noExitSet := by
  obtain ⟨m, hm, hblocks, hlast, hfirst, s, hs, -⟩ :
      ∃ m, Samples.enteredBelow.import? = .ok m ∧ m.ir.blocks m.graph = [0, 2, 1] ∧
        m.graph.LeadsTo 1 2 ∧ ¬ m.graph.LeadsTo 0 2 ∧
        ∃ s, (do survey m.graph m.ir; scanBlocks m.graph [0]) (Allocator.create m.notes 4 true) =
          .ok () s ∧ True := by
    decide +kernel
  refine ⟨m, hm, (Program.compile_noExitSet_iff Samples.enteredBelow {} m hm).mpr
    ⟨[0], 2, [1], s, hblocks, ⟨1, by simp [hblocks], hlast⟩, ?_, hs⟩⟩
  intro c hc
  rwa [List.mem_singleton.mp hc]

/-- A jump of the first block to itself leaves it without a block to start from. -/
theorem Program.compile_jump_to_itself :
    ∃ c, (⟨0, [Samples.instr .jmp [0]]⟩ : Program).compile {} = .ok c ∧
      c.fault = some .noExitSet := by
  decide +kernel

end LinearScan
