import LinearScan.Proofs.Backing

/-!
# Allocation on straight-line code

A straight-line program is compiled into one block, which is entered with empty registers
and with the variables in memory.  If nothing went wrong when registers were given out, the
annotated trees return what the program returns on the stack machine.
-/

namespace LinearScan

open Allocator Alloc

/-! ## Variables of straight-line programs -/

section Variables

variable {code : List Instr} {locals : Int} {g : Graph} {i j : Nat}

/-- An instruction that reads or stores a variable names one that there is. -/
theorem Instr.head?_of_inRange {instr : Instr} (h : instr.inRange locals = true)
    (hop : instr.opcode = .ldLocal ∨ instr.opcode = .stLocal) :
    ∃ k : Nat, k < locals.toNat ∧
      (instr.operands.map Operand.literal).head? = some (.literal (.num k)) := by
  have hnamed : ∃ k : Int, instr.operands.head? = some (.num k) ∧ 0 ≤ k ∧ k < locals := by
    rw [inRange] at h
    split at h
    · next k _ hhead => exact ⟨k, hhead, by simpa using h⟩
    · next k _ hhead => exact ⟨k, hhead, by simpa using h⟩
    · cases h
    · cases h
    · rcases hop with hop | hop <;> simp_all
  obtain ⟨k, hhead, hpos, hlt⟩ := hnamed
  refine ⟨k.toNat, by omega, ?_⟩
  rw [List.head?_map, hhead, Int.toNat_of_nonneg hpos]
  rfl

section

variable (hrange : ∀ instr ∈ code, instr.inRange locals = true)
include hrange

/-- The trees that are put on the stack name variables that there are. -/
theorem Stacks.namesVariable {ts : List Tree} (h : Stacks code i ts j) :
    ∀ t ∈ ts, ∀ u ∈ t.postorder, u.NamesVariable locals.toNat := by
  induction h with
  | nil => simp
  | skip _ _ _ ih => exact ih
  | @ldLocal ts j instr id block _ hinstr hop ih =>
      refine List.forall_mem_cons.mpr ⟨?_, ih⟩
      intro u hu _
      obtain rfl : u = .node id .ldLocal (instr.operands.map .literal) block [] := by
        simpa [Tree.postorder_eq, Tree.subtrees] using hu
      exact Instr.head?_of_inRange (hrange instr (List.mem_of_getElem? hinstr)) (Or.inl hop)
  | @const ts j instr id block _ _ _ ih =>
      refine List.forall_mem_cons.mpr ⟨?_, ih⟩
      intro u hu hkind
      obtain rfl : u = .node id .const (instr.operands.map .literal) block [] := by
        simpa [Tree.postorder_eq, Tree.subtrees] using hu
      rcases hkind with hkind | hkind <;> cases hkind
  | @binOp t v ts j instr op id block _ _ _ ih =>
      obtain ⟨hv, ht, hts⟩ : _ ∧ _ ∧ _ := by simpa only [List.forall_mem_cons] using ih
      refine List.forall_mem_cons.mpr ⟨?_, hts⟩
      intro u hu hkind
      rw [Tree.postorder_eq, List.mem_append, List.mem_singleton] at hu
      rcases hu with hu | rfl
      · simp only [Tree.subtrees, List.flatMap_cons, List.flatMap_nil, List.append_nil,
          List.mem_append] at hu
        rcases hu with hu | hu
        · exact ht u hu hkind
        · exact hv u hu hkind
      · rcases hkind with hkind | hkind <;> cases hkind

/-- So do the statements. -/
theorem Statement.namesVariable {t : Tree} (h : Statement code g i t j) :
    ∀ u ∈ t.postorder, u.NamesVariable locals.toNat := by
  have hparts : (∀ v ∈ t.subtrees, ∀ u ∈ v.postorder, u.NamesVariable locals.toNat) →
      t.NamesVariable locals.toNat → ∀ u ∈ t.postorder, u.NamesVariable locals.toNat := by
    intro hsubtrees hself u hu
    rw [Tree.postorder_eq, List.mem_append, List.mem_singleton] at hu
    rcases hu with hu | rfl
    · obtain ⟨v, hv, huv⟩ := List.mem_flatMap.mp hu
      exact hsubtrees v hv u huv
    · exact hself
  cases h with
  | stLocal hstacks hinstr hop =>
      exact hparts (hstacks.namesVariable hrange)
        fun _ => Instr.head?_of_inRange (hrange _ (List.mem_of_getElem? hinstr)) (Or.inr hop)
  | discard hstacks =>
      refine hparts (hstacks.namesVariable hrange) ?_
      rintro (hkind | hkind) <;> cases hkind
  | jmp hstacks =>
      refine hparts (hstacks.namesVariable hrange) ?_
      rintro (hkind | hkind) <;> cases hkind
  | branch hstacks =>
      refine hparts (hstacks.namesVariable hrange) ?_
      rintro (hkind | hkind) <;> cases hkind
  | ret hstacks =>
      refine hparts (fun v hv => hstacks.namesVariable hrange v ?_) ?_
      · exact List.mem_cons.mpr (Or.inl (List.mem_singleton.mp hv))
      · rintro (hkind | hkind) <;> cases hkind

theorem Reads.namesVariable {ts : List Tree} (h : Reads code g i ts j) :
    ∀ u ∈ ts.flatMap Tree.postorder, u.NamesVariable locals.toNat := by
  induction h with
  | nil => simp
  | cons hfirst _ ih =>
      rw [List.flatMap_cons]
      exact List.forall_mem_append.mpr ⟨hfirst.namesVariable hrange, ih⟩

end

end Variables

/-- The trees of a straight-line program are those of its one block. -/
theorem Program.import?_trees {p : Program} {m : Imported} (h : p.import? = .ok m)
    (hp : p.StraightLine) :
    m.graph.blocksFrom 0 = [0] ∧ m.graph.treesFrom 0 = m.graph.treesOf 0 ∧
      m.graph.treesOf 0 = (m.graph.rootsOf 0).flatMap Tree.postorder ∧
      m.graph.NamesVariables p.locals.toNat := by
  obtain ⟨hblocks, j, hreads, -⟩ := Program.import?_straightLine h hp
  obtain ⟨-, -, hfirst⟩ := Program.import?_formed h
  rw [Ir.blocks, hfirst] at hblocks
  have htrees : m.graph.treesFrom 0 = m.graph.treesOf 0 := by
    rw [Graph.treesFrom, hblocks]
    simp
  have hroots : m.graph.treesOf 0 = (m.graph.rootsOf 0).flatMap Tree.postorder := by
    rw [Graph.treesOf, Graph.rootsOf, List.flatMap_map]
  refine ⟨hblocks, htrees, hroots, ?_⟩
  intro t ht
  rw [htrees, hroots] at ht
  exact hreads.namesVariable hp.2.2 t ht

/-! ## The scan of the only block -/

namespace Alloc

variable {g : Graph} {pending : List Tree} {b : BlockId} {s s' : Allocator}

/-- What the survey finds when every tree names a variable that there is. -/
theorem survey_charted {ir : Ir} {s₀ : Allocator} (hfirst : ir.first = 0)
    (h : survey g ir s₀ = .ok () s) (hlive : ∀ i, (s₀.interval i).liveIn = none)
    (hcount : s₀.notes.intervalCount = 0) (hblocks : ir.blocks g ≠ [])
    (hnamed : g.NamesVariables ir.locals.toNat) (hs : s.Owned g)
    (hindex : ∀ t ∈ g.treesFrom 0, s.notes.index t < ir.count) :
    s.Charted g ∧ g.NamesVariables s.slots.length := by
  obtain ⟨-, hlength, hlast, hlives⟩ := survey_listed h hlive hcount
  have htrees : (ir.blocks g).flatMap g.treesOf = g.treesFrom 0 := by
    rw [Ir.blocks, hfirst, Graph.treesFrom]
  rw [htrees] at hlives
  rw [← hlength] at hnamed
  have hnames : ∀ kind, kind = .ldLocal ∨ kind = .stLocal → ∀ i : Nat, ∀ t ∈ g.treesFrom 0,
      s.names kind i t = decide (t.Names kind i) := by
    intro kind hkind i t ht
    rw [Bool.eq_iff_iff, names_iff, decide_eq_true_iff]
    refine and_congr_right fun htkind => ?_
    obtain ⟨k, hk, hoperand⟩ := hnamed t ht (htkind ▸ hkind)
    rw [slotOf_of_names hs.slots_eq hk hoperand, literal?_of_names hoperand]
    simp only [Except.ok.injEq, Option.some.injEq, Literal.num.injEq, Int.ofNat_inj]
  refine ⟨⟨?_, ?_, ?_⟩, hnamed⟩
  · intro i hi
    rw [(hlives i hi).1]
    exact List.filter_congr (hnames .ldLocal (Or.inl rfl) i)
  · intro i hi
    rw [(hlives i hi).2]
    exact List.filter_congr (hnames .stLocal (Or.inr rfl) i)
  · intro i hi t ht
    rw [hlast hblocks i hi]
    exact Int.ofNat_lt.mpr (hindex t ht)

/-- The first block is entered with empty registers. -/
theorem enter_first (hs : HasScanned g s [] s) (h : enter b s = .ok () s') :
    s' = cleared { s with block := some b } := by
  rcases enter_cases h with ⟨-, rfl⟩ | ⟨crossings, s₁, -, hfirst, -, -⟩
  · rfl
  · obtain ⟨p, -, hexit⟩ := exists_exit_of_firstExit hfirst
    rw [hs.exit_of_not_mem p (by simp)] at hexit
    cases hexit

/-- If no block has an entry set, there are no edges to be resolved. -/
theorem Resolved.eq_self {xs : List (BlockId × EdgeId × BlockId)} (h : Resolved g xs s s')
    (hentry : ∀ b, (s.notes.block b).entry = none) : s' = s := by
  cases h with
  | nil => rfl
  | cons hfirst _ =>
      obtain ⟨after, log, hsome, -⟩ := resolveEdge_cases hfirst
      rw [hentry] at hsome
      cases hsome

/-- After the scan of the first block no block has an entry set. -/
theorem HasScanned.entry_first {s₀ : Allocator} (hs : HasScanned g s₀ [b] s) (c : BlockId) :
    (s.notes.block c).entry = none := by
  by_cases hc : c ∈ [b]
  · obtain rfl := List.mem_singleton.mp hc
    rw [(hs.entry_eq [] c [] rfl).1]
    simp [Notes.firstExit]
  · exact hs.entry_of_not_mem c hc

end Alloc

/-- What is known of a program apart from its trees. -/
theorem Program.import?_measures {p : Program} {m : Imported} (h : p.import? = .ok m) :
    m.ir.locals = p.locals ∧ ∀ t ∈ m.graph.treesFrom 0, m.notes.index t < m.ir.count := by
  obtain ⟨s, n, -, -, hgraph, hir, -, hnotes, -⟩ := Program.import?_cases h
  rw [hgraph, hir, hnotes]
  refine ⟨rfl, fun t ht => ?_⟩
  obtain ⟨b, hb, htb⟩ := List.mem_flatMap.mp ht
  exact Graph.Formed.index_lt_length n hb htb

/-- The survey of a program whose trees name variables that there are finds where each of them
is read and written. -/
theorem Program.survey_charted {p : Program} {m : Imported} (h : p.import? = .ok m)
    (hnamed : m.graph.NamesVariables p.locals.toNat) {size : Int} {reuse : Bool} {s : Allocator}
    (hsurvey : survey m.graph m.ir (Allocator.create m.notes size reuse) = .ok () s) :
    s.Charted m.graph ∧ m.graph.NamesVariables s.slots.length := by
  obtain ⟨⟨pending, hg⟩, hfresh, hfirst⟩ := Program.import?_formed h
  obtain ⟨hlocals, hindex⟩ := Program.import?_measures h
  obtain ⟨hhas, hlisted⟩ := survey_hasScanned hfresh hsurvey
  refine Alloc.survey_charted hfirst hsurvey hfresh.liveIn_eq hfresh.intervalCount_eq ?_
    (hlocals ▸ hnamed) hhas.orderly.toOwned ?_
  · obtain ⟨r, -, -, hwf, hgraph, -⟩ := Program.import?_cases h
    have hmem : r.block ∈ m.graph.blocksFrom 0 := by
      rw [hg.chained.mem_iff, hgraph]
      exact hwf.block_lt
    rw [Ir.blocks, hfirst]
    exact List.ne_nil_of_mem hmem
  · intro t ht
    rw [hlisted.index_eq]
    exact hindex t ht

/-- The scan of a straight-line program goes through its trees one after the other, from a
state in which all registers are empty. -/
theorem Program.compile_course {p : Program} {settings : Settings} {c : Compiled}
    (hp : p.StraightLine) (h : p.compile settings = .ok c) (hfault : c.fault = none) :
    ∃ pending s, c.graph.Formed pending ∧ Course c.graph c.alloc [] (c.ir.trees c.graph) s ∧
      p.steps settings = traceTrees c.graph (c.ir.trees c.graph) s ∧
      s.active = [] ∧ Filed s.registers s.active s.notes ∧ s.Charted c.graph ∧
      c.graph.NamesVariables s.slots.length ∧ c.alloc.Owned c.graph ∧ c.alloc.slots = s.slots := by
  obtain ⟨m, himport, hgraph, hir, hscan⟩ := Program.compile_cases h hfault
  rw [hgraph, hir]
  obtain ⟨⟨pending, hg⟩, hfresh, hfirst⟩ := Program.import?_formed himport
  obtain ⟨hblocks, htrees, -, hnamed⟩ := Program.import?_trees himport hp
  obtain ⟨s₁, s₂, hsurvey, hscanned, hedges⟩ := scan_cases hscan
  have hchain : m.ir.blocks m.graph = [0] := by
    rw [Ir.blocks, hfirst, hblocks]
  have hsteps : p.steps settings = traceBlocks m.graph [0] s₁ := by
    simp only [Program.steps, himport, hsurvey, hchain]
  have honce : ((m.ir.trees m.graph).map Tree.id).Nodup := by
    rw [Ir.trees, hfirst, htrees]
    exact hg.treesOf_ids_nodup 0
  rw [hchain] at hscanned hedges
  obtain ⟨⟨⟩, s₃, hblock, hend⟩ := exists_of_bind_apply_eq_ok hscanned
  obtain ⟨-, rfl⟩ := pure_cases hend
  obtain ⟨hhas, hlisted⟩ := survey_hasScanned hfresh hsurvey
  have hrested := survey_rested hfresh (Program.import?_sorted himport honce) hsurvey
  have hhas₂ := scanBlock_hasScanned hg hhas (by simp) hblock
  have hended := (resolveEdges_resolved hedges).eq_self (HasScanned.entry_first hhas₂)
  obtain ⟨s, s₄, henter, hrun, hdepart⟩ := scanBlock_cases hblock
  have hentered := enter_entered hhas.orderly (HasScanned.exits hhas) henter
  obtain ⟨hrest, hscanning⟩ := enter_rested hg hhas hrested henter
  have hdeparted := depart_departed (scanTrees_scanning hg hscanning (b := 0) rfl hrun).1.orderly
    hdepart
  obtain ⟨hcharted, hnamed₁⟩ := Program.survey_charted himport hnamed hsurvey
  refine ⟨pending, s, hg, ?_, ?_, ?_, ?_, ?_, ?_, ?_, ?_⟩
  · rw [Ir.trees, hfirst, htrees, hended]
    exact scanTrees_course hg htrees hscanning hrest rfl hrun hdeparted.continues
      fun x _ => (depart_notes hdepart).2 x
  · rw [hsteps, Ir.trees, hfirst, htrees, traceBlocks, henter, hblock]
    simp [traceBlocks]
  · rw [enter_first hhas henter]
    rfl
  · rw [enter_first hhas henter]
    exact cleared_filed _
  · exact hcharted.continues hhas.orderly.slots_le hentered.continues
  · rw [hentered.continues.slots_eq]
    exact hnamed₁
  · rw [hended]
    exact hhas₂.orderly.toOwned
  · rw [hended, hhas₂.continues.slots_eq, hentered.continues.slots_eq]

/-- The memory holds the variables, each in the place of its interval. -/
def RegisterMachine.Stores {V : Type} (m : RegisterMachine V) (s : Allocator)
    (locals : Locals V) : Prop :=
  ∀ i ∈ s.slots, ∀ k, (s.interval i).owner = .slot k → m.memory i = locals (some (.num k))

/-- Allocation is sound on straight-line code, if nothing goes wrong in one of four ways: no
request slips, nothing is spilled for a variable that is read, an operand that was spilled
comes back into the register in which it was produced, and the register of a variable that
was read is not filled again before the value is taken. -/
theorem Program.compile_sound {p : Program} {settings : Settings} {c : Compiled}
    (hp : p.StraightLine) (h : p.compile settings = .ok c) (hfault : c.fault = none)
    (hslips : ∀ x ∈ p.steps settings, ¬ x.Slips)
    (hcareful : c.alloc.notes.Careful c.graph (c.ir.trees c.graph))
    {V : Type} (M : Meaning V) (locals : Locals V) (m : RegisterMachine V)
    (hmemory : m.Stores c.alloc locals) :
    ∃ v, (∃ k, ((StackMachine.step M p.instrs)^[k] (StackMachine.start locals)).shown.status =
        .returned v) ∧
      RegisterMachine.run M c.alloc.notes (c.ir.trees c.graph) m = some v := by
  obtain ⟨pending, s, hg, hcourse, hsteps, hactive, hfiled, hcharted, hnamed, howned, hslots⟩ :=
    Program.compile_course hp h hfault
  obtain ⟨i, himport, hgraph, hir, -⟩ := Program.compile_cases h hfault
  obtain ⟨-, htrees, hroots, -⟩ := Program.import?_trees himport hp
  obtain ⟨-, j, hreads, hleaving⟩ := Program.import?_straightLine himport hp
  obtain ⟨-, -, hfirst⟩ := Program.import?_formed himport
  have hwhole : c.ir.trees c.graph = c.graph.treesFrom 0 := by
    rw [Ir.trees, hir, hfirst]
  have hflat : c.ir.trees c.graph = (c.graph.rootsOf 0).flatMap Tree.postorder := by
    rw [hwhole, hgraph, htrees, hroots]
  have hstocked : Stocked c.graph c.alloc.notes [] (fun _ => []) s := by
    refine ⟨hfiled, ?_, ?_⟩ <;> rw [hactive] <;> simp
  have hinPlace := hcourse.inPlace hg hnamed (hwhole ▸ hcareful) hstocked
    (fun u hu => by cases hu) (hsteps ▸ hslips)
  have hbacked := hcourse.backed hg hnamed hcharted
    (⟨by simp, fun i hi => Or.inr (Or.inl hi)⟩ :
      Preserved c.alloc.notes [] _ (fun i => i < s.slots.length) s)
  obtain ⟨v, hruns, k, hk⟩ := hreads.runs (M := M) (s := StackMachine.start locals) hp hleaving
    rfl rfl rfl
  refine ⟨v, ⟨k, hk⟩, ?_⟩
  rw [hflat] at hinPlace hbacked ⊢
  refine Runs.run_eq (hgraph ▸ hruns) ?_ hinPlace hbacked ?_
  · rw [← hflat, hwhole, hgraph, htrees, ← hgraph]
    exact hg.treesOf_ids_nodup 0
  · intro i hi
    rw [← hslots] at hi
    have howner := howned.owner_slot i hi
    refine ⟨_, by rw [Notes.content, ← Allocator.interval, howner]; rfl, hmemory i ?_ i howner⟩
    rw [howned.slots_eq]
    exact List.mem_range.mpr hi

/-- A sum for which two registers are too few: a constant goes through memory, and so does a
variable. -/
def Samples.crowdedSum : Program where
  locals := 2
  instrs :=
    [instr .push [4], instr .stLocal [1], instr .ldLocal [1], instr .push [1],
      instr (.binary .add), instr .push [5], instr .push [0], instr (.binary .add),
      instr .ldLocal [0], instr (.binary .add), instr (.binary .add), instr .ret]

theorem Program.compile_sound_crowdedSum :
    ∃ c, Samples.crowdedSum.compile { registers := 2 } = .ok c ∧ c.fault = none ∧
      (∃ t ∈ c.ir.trees c.graph, (c.alloc.notes.tree t).spills ≠ []) ∧
      ∀ locals : Locals Int, ∀ m : RegisterMachine Int, m.Stores c.alloc locals →
        ∃ v, (∃ k, ((StackMachine.step .integers Samples.crowdedSum.instrs)^[k]
            (StackMachine.start locals)).shown.status = .returned v) ∧
          RegisterMachine.run .integers c.alloc.notes (c.ir.trees c.graph) m = some v := by
  have hslips : ∀ x ∈ Samples.crowdedSum.steps { registers := 2 }, ¬ x.Slips := by
    decide +kernel
  obtain ⟨c, hc, hfault, hcareful, hspilled⟩ :
      ∃ c, Samples.crowdedSum.compile { registers := 2 } = .ok c ∧ c.fault = none ∧
        c.alloc.notes.Careful c.graph (c.ir.trees c.graph) ∧
        ∃ t ∈ c.ir.trees c.graph, (c.alloc.notes.tree t).spills ≠ [] := by
    decide +kernel
  exact ⟨c, hc, hfault, hspilled, fun locals m hmemory =>
    Program.compile_sound (by decide) hc hfault hslips hcareful .integers locals m hmemory⟩

/-- Two variables are read, one after the other. -/
def Samples.readBoth : Program where
  locals := 2
  instrs := [instr .ldLocal [0], instr .pop, instr .ldLocal [1], instr .ret]

/-- With one register the second variable is not read from memory: its register still holds
the first one. -/
theorem Program.compile_unsound :
    Samples.readBoth.StraightLine ∧
      ¬ ∀ settings c, Samples.readBoth.compile settings = .ok c → c.fault = none →
        ∀ (locals : Locals Int) (m : RegisterMachine Int), m.Stores c.alloc locals →
          ∃ v, (∃ k, ((StackMachine.step .integers Samples.readBoth.instrs)^[k]
              (StackMachine.start locals)).shown.status = .returned v) ∧
            RegisterMachine.run .integers c.alloc.notes (c.ir.trees c.graph) m = some v := by
  refine ⟨by decide, fun h => ?_⟩
  let locals : Locals Int := fun x => if x = some (.num 0) then 10 else 20
  let m : RegisterMachine Int := ⟨fun _ => 0, fun i => if i = 0 then 10 else 20⟩
  obtain ⟨c, hc, hfault, hslots, hrun⟩ :
      ∃ c, Samples.readBoth.compile { registers := 1 } = .ok c ∧ c.fault = none ∧
        (∀ i ∈ c.alloc.slots, (c.alloc.interval i).owner.sameSlot (.slot i) = true) ∧
        RegisterMachine.run .integers c.alloc.notes (c.ir.trees c.graph) m = some 10 := by
    decide +kernel
  have hmemory : m.Stores c.alloc locals := by
    intro i hi k howner
    have hslot := hslots i hi
    rw [howner] at hslot
    simp_all [Owner.sameSlot, m, locals]
  obtain ⟨v, ⟨k, hk⟩, hv⟩ := h _ c hc hfault locals m hmemory
  have hfour : ((StackMachine.step .integers Samples.readBoth.instrs)^[4]
      (StackMachine.start locals)).shown.status = .returned 20 := by
    decide +kernel
  obtain rfl := StackMachine.eq_of_returned hk hfour
  rw [hrun] at hv
  cases hv

end LinearScan
