import LinearScan.Proofs.Progress

/-!
# Code without nested operations

In flat code an operation takes variables only, and the value of a constant or an operation is
the only operand of the tree that takes it, which therefore follows at once.  Temporaries do not
pile up: where a value is produced no temporary is active, so only variables are ever spilled,
nothing has to be brought back, and the variable that is needed last makes room even for the only
register there is.  The preference for the register of an operand finds none, so that every
activation fills the register that it notes.
-/

namespace LinearScan

open Allocator

/-- The operands of the tree are variables that are read, unless there is only one. -/
def Tree.Flat (t : Tree) : Prop :=
  ∀ u ∈ t.subtrees, u.kind = .ldLocal ∨ t.subtrees = [u]

/-- All the trees are flat. -/
def Graph.Flat (g : Graph) : Prop :=
  ∀ t ∈ g.treesFrom 0, t.Flat

/-! ## The only operand -/

namespace Graph.Flat

variable {g : Graph} {pending past future : List Tree} {n : Notes} {u p x y : Tree}

section

variable (hflat : g.Flat) (hn : n.Sorted g) (hg : g.Formed pending) (hu : u ∈ g.treesFrom 0)
  (hkind : u.kind ≠ .ldLocal) (hparent : g.parent u = some p)
include hflat hn hg hu hkind hparent

theorem subtrees_of_parent : p.subtrees = [u] := by
  obtain ⟨hp, hmem, -⟩ := hn.parent_spec hg hu hparent
  exact (hflat p hp u hmem).resolve_left hkind

/-- The tree that takes a value which was computed follows at once. -/
theorem index_parent_le (hx : x ∈ g.treesFrom 0) (hux : n.index u < n.index x) :
    n.index p ≤ n.index x := by
  by_contra hlt
  obtain ⟨right, hsubtrees, -⟩ :=
    hn.left_of_between hg hu hparent hx hux (Nat.lt_of_not_le hlt)
  rw [hflat.subtrees_of_parent hn hg hu hkind hparent] at hsubtrees
  cases hsubtrees

end

/-- A value that was computed and is still to be taken at `y` or later is the only operand of
`y`. -/
theorem subtrees_eq (hflat : g.Flat) (hn : n.Sorted g) (hg : g.Formed pending)
    (htrees : g.treesFrom 0 = past ++ y :: future) (hu : u ∈ past) (hkind : u.kind ≠ .ldLocal)
    (hparent : g.parent u = some p) (hle : n.index y ≤ n.index p) : y.subtrees = [u] := by
  have hu' := Graph.mem_treesFrom_of_past htrees hu
  have hge := hflat.index_parent_le hn hg hu' hkind hparent (by simp [htrees])
    (hn.lt_of_mem_past htrees hu)
  obtain ⟨hp, -, -⟩ := hn.parent_spec hg hu' hparent
  obtain rfl := hn.eq_of_index_eq htrees hp (Nat.le_antisymm hge hle)
  exact hflat.subtrees_of_parent hn hg hu' hkind hparent

end Graph.Flat

namespace Alloc

variable {g : Graph} {pending past future ts rest : List Tree} {t y u p : Tree}
  {s s₁ s' : Allocator} {i j : Nat}

/-! ## Registers of other trees -/

theorem Move.reg_of_ne {phase : Phase} (h : Move g t phase s s') (hne : t.id ≠ u.id) :
    s'.notes.reg u = s.notes.reg u := by
  cases h with
  | turn _ tree reuse => rfl
  | release hsifted =>
      obtain ⟨registers, -, rfl⟩ := hsifted.state_eq
      simp [Notes.reg]
  | carrySpill sp reg k rest hsp hlive hrest hk => rfl
  | annotate f hindex hspills hrestores hreg =>
      rw [Notes.reg, Notes.tree_modifyTree, if_neg hne]
      rfl
  | create p hparent => rfl
  | settle i value rest hkind hslot hvalue hlive hsettle => exact reg_settle hsettle u

theorem Moves.reg_of_ne {phase : Phase} {rs : List (Allocator × IntervalId)}
    (h : Moves g t phase rs s s') (hne : t.id ≠ u.id) : s'.notes.reg u = s.notes.reg u := by
  induction h with
  | nil s => rfl
  | move hmove _ ih => rw [ih, hmove.reg_of_ne hne]
  | activate _ hactivated _ ih => rw [ih, hactivated.reg_eq]

/-! ## Placing a tree -/

/-- There is room for a result that is taken at once: no variable is read before. -/
theorem Asking.result_has_room (h : Asking g past y s) (hg : g.Formed pending)
    (htrees : g.treesFrom 0 = past ++ y :: future) (hsize : 0 < s.registers.length)
    (hslots : ∀ j ∈ s.active, j < s.slots.length) (hi : i < s.notes.intervalCount)
    (howner : (s.interval i).owner = .temp y) (hkind : y.kind ≠ .ldLocal)
    (hparent : g.parent y = some p) (honly : p.subtrees = [y]) :
    ¬ s.NoRoom (s.notes.index y) i := by
  rintro ⟨-, hfree, use, huse, hpassed⟩
  have hy : y ∈ g.treesFrom 0 := by simp [htrees]
  obtain ⟨-, -, hyp⟩ := h.sorted.parent_spec hg hy hparent
  rw [nextUse_temp h.orderly.toOwned hi howner hparent (Nat.le_of_lt hyp)] at huse
  obtain rfl := Option.some.inj huse
  obtain ⟨j, hj, -⟩ := exists_occupant h.filed hfree hsize
  obtain ⟨z, hz, hle⟩ := hpassed j hj
  obtain ⟨hz', hge, ⟨-, hnames⟩ | ⟨u, -, hu, -⟩⟩ := h.use_cases hg htrees hj hz
  · obtain ⟨right, hsubtrees, -⟩ := h.read_between hg htrees hparent hkind hz' hnames hge hle
    rw [honly] at hsubtrees
    cases hsubtrees
  · rw [h.orderly.owner_slot j (hslots j hj)] at hu
    cases hu

/-- The tree `y` is about to get its register; its operands have theirs. -/
structure Ready (g : Graph) (past : List Tree) (y : Tree) (s : Allocator) : Prop where
  placing : Placing g past y s
  filed : Filed s.registers s.active s.notes
  charted : s.Charted g
  named : g.NamesVariables s.slots.length
  size_pos : 0 < s.registers.length
  restores_eq : (s.notes.tree y).restores = []
  operand_reg : ∀ u ∈ y.subtrees, 0 ≤ s.notes.reg u ∧ s.notes.reg u < s.registers.length
  reg_eq : s.notes.reg y = -1

namespace Ready

variable (hflat : g.Flat) (hg : g.Formed pending) (htrees : g.treesFrom 0 = past ++ y :: future)
  (h : Ready g past y s)
include hflat hg htrees h

/-- An active temporary is the only operand of the tree. -/
theorem exists_operand (hj : j ∈ s.active) (htemp : s.slots.length ≤ j) :
    ∃ u, (s.interval j).owner = .temp u ∧ y.subtrees = [u] := by
  have hlt := h.placing.orderly.active_lt j hj
  obtain ⟨u, p, howner, hparent, -⟩ := h.placing.orderly.owner_temp j htemp hlt
  refine ⟨u, howner, ?_⟩
  exact hflat.subtrees_eq h.placing.sorted hg htrees (h.placing.temps.owner_mem j u hlt howner)
    (h.placing.temps.kind_ne j u hlt howner) hparent (h.placing.current j hj u p howner hparent)

/-- Where a value is produced, all active intervals are variables. -/
theorem lt_slots (hvalue : y.kind.isValue = true) : ∀ j ∈ s.active, j < s.slots.length := by
  intro j hj
  by_contra hge
  obtain ⟨u, -, hsubtrees⟩ := h.exists_operand hflat hg htrees hj (Nat.le_of_not_lt hge)
  have hlength := hg.subtrees_length (t := y) (by simp [htrees])
  rw [hsubtrees] at hlength
  cases hkind : y.kind <;> rw [hkind] at hvalue hlength <;> cases hvalue <;> cases hlength

theorem eq_of_temps : ∀ i ∈ s.active, ∀ j ∈ s.active, s.slots.length ≤ i → s.slots.length ≤ j →
    i = j := by
  intro i hi j hj hti htj
  obtain ⟨u, hu, hsubtrees⟩ := h.exists_operand hflat hg htrees hi hti
  obtain ⟨v, hv, hsubtrees'⟩ := h.exists_operand hflat hg htrees hj htj
  obtain rfl : u = v := by simpa [hsubtrees] using hsubtrees'
  exact h.placing.temps.owner_inj i j u (h.placing.orderly.active_lt i hi)
    (h.placing.orderly.active_lt j hj) hu hv

theorem load (hkind : y.kind = .ldLocal) :
    Returns (place g y) s ∧ ∀ q ∈ placeRequests g y s, ¬ Slips y q := by
  have hy : y ∈ g.treesFrom 0 := by simp [htrees]
  obtain ⟨i, hi, hoperand⟩ := h.named y hy (Or.inl hkind)
  have hslot := slotOf_of_names h.placing.orderly.slots_eq hi hoperand
  have hnames : y.Names .ldLocal i := ⟨hkind, literal?_of_names hoperand⟩
  have huse := h.charted.nextUse_of_names h.placing.sorted htrees hi hnames
  constructor
  · simp only [place, hkind]
    refine returns_scanLoad hslot (returns_activate h.placing.orderly ?_ huse ?_ ?_)
    · exact h.lt_slots hflat hg htrees (by rw [hkind]; rfl)
    · exact (h.placing.asking h.filed h.charted).load_has_room hg htrees h.size_pos hi hnames
    · exact Or.inr h.restores_eq
  · intro q hq
    simp only [placeRequests, hkind, hslot, List.mem_singleton] at hq
    subst hq
    apply not_slips (q := (s, i)) huse
    rw [subtrees_eq_nil_of_ldLocal hg hy hkind]
    simp

theorem result (hvalue : y.kind.isValue = true) (hkind : y.kind ≠ .ldLocal) :
    Returns (place g y) s ∧ ∀ q ∈ placeRequests g y s, ¬ Slips y q := by
  have hy : y ∈ g.treesFrom 0 := by simp [htrees]
  have hstore : y.kind ≠ .stLocal := by
    intro heq
    rw [heq] at hvalue
    cases hvalue
  obtain ⟨b, -, hb⟩ := List.mem_flatMap.mp hy
  obtain ⟨p, -, -, hparent⟩ := hg.exists_parent hb hvalue
  have honly := hflat.subtrees_of_parent h.placing.sorted hg hy hkind hparent
  have hslots := h.lt_slots hflat hg htrees hvalue
  have hlater : ∀ j ∈ s.active, ∀ u p, (s.interval j).owner = .temp u → g.parent u = some p →
      s.notes.index y < s.notes.index p := by
    intro j hj u q howner
    rw [h.placing.orderly.owner_slot j (hslots j hj)] at howner
    cases howner
  obtain ⟨hasking, -, -⟩ := h.placing.asks_result htrees (fun u hu => (h.operand_reg u hu).1)
    h.filed h.charted hlater hparent hkind hstore
  have hi : s.notes.intervalCount < (s.notes.addInterval (tempOf s.notes y p)).intervalCount :=
    Nat.lt_succ_self _
  have howner : ((s.notes.addInterval (tempOf s.notes y p)).interval
      s.notes.intervalCount).owner = .temp y := by
    rw [Notes.interval_addInterval, if_pos rfl]
    rfl
  have hroom := hasking.result_has_room hg htrees h.size_pos hslots hi howner hkind hparent honly
  obtain ⟨-, -, hlt⟩ := hasking.sorted.parent_spec hg hy hparent
  have huse := nextUse_temp hasking.orderly.toOwned hi howner hparent (Nat.le_of_lt hlt)
  constructor
  · rw [place_of_parent hkind hstore hparent]
    refine returns_scanTemp (returns_activate hasking.orderly hslots huse hroom (Or.inl ?_))
    rw [Allocator.interval, howner]
    simp [Owner.isResultOf]
  · intro q hq
    rw [placeRequests_of_parent hkind hstore hparent, List.mem_singleton] at hq
    subst hq
    apply not_slips huse
    rw [honly]
    intro v hv k _
    obtain rfl := List.mem_singleton.mp hv
    have hreg : (s.notes.addInterval (tempOf s.notes v p)).reg v = -1 := h.reg_eq
    rw [hreg]
    omega

theorem store (hkind : y.kind = .stLocal) :
    Returns (place g y) s ∧ ∀ q ∈ placeRequests g y s, ¬ Slips y q := by
  have hy : y ∈ g.treesFrom 0 := by simp [htrees]
  obtain ⟨i, hi, hoperand⟩ := h.named y hy (Or.inr hkind)
  have hslot := slotOf_of_names h.placing.orderly.slots_eq hi hoperand
  have hlength := hg.subtrees_length hy
  rw [hkind] at hlength
  obtain ⟨value, hvalue⟩ := List.length_eq_one_iff.mp hlength
  constructor
  · simp only [place, hkind]
    refine returns_scanStore hslot hvalue (returns_settle h.placing.orderly h.filed ?_ ?_)
    · exact h.operand_reg value (by simp [hvalue])
    · exact h.eq_of_temps hflat hg htrees
  · intro q hq
    simp only [placeRequests, hkind] at hq
    cases hq

/-- A tree that is about to get its register gets it, and the register is the one that is
noted. -/
theorem returns_place : Returns (place g y) s ∧ ∀ q ∈ placeRequests g y s, ¬ Slips y q := by
  have hy : y ∈ g.treesFrom 0 := by simp [htrees]
  obtain ⟨b, -, hb⟩ := List.mem_flatMap.mp hy
  by_cases hload : y.kind = .ldLocal
  · exact h.load hflat hg htrees hload
  by_cases hstore : y.kind = .stLocal
  · exact h.store hflat hg htrees hstore
  cases hvalue : y.kind.isValue with
  | true => exact h.result hflat hg htrees hvalue hload
  | false =>
      have hparent : g.parent y = none := by
        by_contra hne
        obtain ⟨p, hp⟩ := Option.ne_none_iff_exists'.mp hne
        rw [hg.isValue_of_parent hb hp] at hvalue
        cases hvalue
      constructor
      · rw [place_of_root hload hstore hparent]
        exact returns_pure _ _
      · intro q hq
        rw [placeRequests_of_root hload hstore hparent] at hq
        cases hq

end Ready

/-! ## The scan -/

/-- In flat code no operand has to be brought back: nothing comes between a value that was
computed and the tree that takes it. -/
theorem Serving.restores_eq_nil (hflat : g.Flat) (hg : g.Formed pending)
    (htrees : g.treesFrom 0 = past ++ y :: future)
    (h : Serving g past y [] ((s.notes.tree y).restores.map Restore.interval) s) :
    (s.notes.tree y).restores = [] := by
  by_contra hne
  obtain ⟨r, hr⟩ := List.exists_mem_of_ne_nil _ hne
  have hmem : r.interval ∈ (s.notes.tree y).restores.map Restore.interval := List.mem_map_of_mem hr
  obtain ⟨u, right, howner, hsubtrees⟩ := h.subtrees_eq hg htrees hmem
  rcases hflat y (by simp [htrees]) u (by simp [hsubtrees]) with hload | hone
  · exact h.temps.kind_ne r.interval u (h.outside hg htrees hmem).1 howner hload
  · rw [hsubtrees] at hone
    cases hone

/-- The trees `past` of flat code have been scanned with `size` registers: those that produce
values have registers, and the others have none yet. -/
structure Advancing (g : Graph) (size : Int) (past : List Tree) (s : Allocator) : Prop where
  rested : Rested g past s
  filed : Filed s.registers s.active s.notes
  charted : s.Charted g
  named : g.NamesVariables s.slots.length
  size_eq : s.registers.length = size.toNat
  assigned : ∀ u ∈ past, u.kind.isValue = true →
    0 ≤ s.notes.reg u ∧ s.notes.reg u < s.registers.length
  reg_eq : ∀ u ∈ g.treesFrom 0, u ∉ past → s.notes.reg u = -1

namespace Advancing

variable {size : Int}

theorem consistent (h : Advancing g size past s) : s.Consistent size :=
  (h.rested.orderly.consistent_iff h.size_eq).mpr h.filed

section Step

variable (hflat : g.Flat) (hg : g.Formed pending) (hsize : 0 < size)
  (htrees : g.treesFrom 0 = past ++ y :: future) (h : Advancing g size past s)
include hg htrees h

theorem operand_reg :
    ∀ u ∈ y.subtrees, 0 ≤ s.notes.reg u ∧ s.notes.reg u < s.registers.length := by
  intro u hu
  have hy : y ∈ g.treesFrom 0 := by simp [htrees]
  obtain ⟨b, -, hyb⟩ := List.mem_flatMap.mp hy
  exact h.assigned u (subtree_mem_past hg h.rested.sorted htrees hu).1 (hg.subtree_isValue hyb hu)

include hflat hsize

/-- In flat code nothing has to be brought back before a tree gets its register. -/
theorem exists_ready :
    ∃ s₁, scanTree g y s = place g y s₁ ∧ requests g y s = placeRequests g y s₁ ∧
      Ready g past y s₁ := by
  have hy : y ∈ g.treesFrom 0 := by simp [htrees]
  have hregs := h.operand_reg hg htrees
  have hturned := h.rested.orderly.turn (some y) false
  obtain ⟨⟨⟩, s₀, hrelease⟩ := returns_release (t := y) hturned
  have hserving := release_serving hg htrees h.rested (fun u hu => (hregs u hu).1) hrelease
  have hnone : (s.notes.tree y).restores = [] := by
    have htree := (release_unmoved hturned h.filed hrelease).2.2 y
    rw [← hserving.restores_eq_nil hflat hg htrees, htree]
  obtain ⟨s₁, hprepared⟩ := exists_prepared hg htrees h.rested h.filed
    (fun u hu => (hregs u hu).1) hnone
  refine ⟨s₁, hprepared.scan_eq, hprepared.requests_eq, ?_⟩
  exact
    { placing := hprepared.placing
      filed := hprepared.filed
      charted := h.charted.continues h.rested.orderly.slots_le hprepared.continues
      named := by
        rw [hprepared.continues.slots_eq]
        exact h.named
      size_pos := by
        rw [hprepared.continues.size_eq, h.size_eq]
        omega
      restores_eq := by
        rw [hprepared.tree_eq]
        exact hnone
      operand_reg := by
        intro u hu
        rw [hprepared.reg_eq, hprepared.continues.size_eq]
        exact hregs u hu
      reg_eq := by
        rw [hprepared.reg_eq]
        exact h.reg_eq y hy (not_mem_past h.rested.sorted htrees) }

/-- A tree of flat code is scanned, and the three records of the registers agree again. -/
theorem step : ∃ s', scanTree g y s = .ok () s' ∧ Advancing g size (past ++ [y]) s' := by
  have hy : y ∈ g.treesFrom 0 := by simp [htrees]
  have hregs := fun u hu => (h.operand_reg hg htrees u hu).1
  obtain ⟨s₁, hscan, hrequests, hready⟩ := h.exists_ready hflat hg hsize htrees
  obtain ⟨⟨⟨⟩, s', hplace⟩, hslips⟩ := hready.returns_place hflat hg htrees
  rw [← hscan] at hplace
  rw [← hrequests] at hslips
  have hmoves := scanTree_moves hg.twins_eq hplace
  have hext := hmoves.extends.toContinues
  have hother : ∀ u ∈ g.treesFrom 0, u ≠ y → s'.notes.reg u = s.notes.reg u := by
    intro u hu hne
    refine hmoves.reg_of_ne (id_ne_of_index_ne (n := s.notes) ?_)
    exact fun heq => hne (h.rested.sorted.eq_of_index_eq htrees hu heq.symm)
  refine ⟨s', hplace, ?_⟩
  exact
    { rested := (scanTree_rested hg htrees h.rested hregs hplace).1
      filed := hmoves.filed h.rested.orderly hregs hslips h.filed
      charted := h.charted.continues h.rested.orderly.slots_le hext
      named := by
        rw [hext.slots_eq]
        exact h.named
      size_eq := hext.size_eq.trans h.size_eq
      assigned := by
        intro u hu hvalue
        by_cases huy : u = y
        · subst huy
          obtain ⟨b, -, hb⟩ := List.mem_flatMap.mp hy
          obtain ⟨p, -, -, hparent⟩ := hg.exists_parent hb hvalue
          exact scanTree_reg h.rested.orderly hregs hplace hvalue hparent
        · have hpast : u ∈ past := by simpa [huy] using hu
          have hu' := Graph.mem_treesFrom_of_past htrees hpast
          rw [hother u hu' huy, hext.size_eq]
          exact h.assigned u hpast hvalue
      reg_eq := by
        intro u hu hnot
        rw [List.mem_append, List.mem_singleton, not_or] at hnot
        rw [hother u hu hnot.2]
        exact h.reg_eq u hu hnot.1 }

end Step

theorem run (hflat : g.Flat) (hg : g.Formed pending) (hsize : 0 < size)
    (htrees : g.treesFrom 0 = past ++ (ts ++ rest)) (h : Advancing g size past s) :
    (∃ s', scanTrees g ts s = .ok () s' ∧ Advancing g size (past ++ ts) s') ∧
      ∀ x ∈ traceTrees g ts s, x.after.Consistent size := by
  induction ts generalizing past s with
  | nil =>
      refine ⟨⟨s, rfl, ?_⟩, ?_⟩
      · rwa [List.append_nil]
      · intro x hx
        cases hx
  | cons t ts ih =>
      obtain ⟨s₁, hfirst, h₁⟩ := h.step hflat hg hsize htrees
      obtain ⟨⟨s', hrest, h'⟩, htrace⟩ := ih (by simp [htrees]) h₁
      constructor
      · refine ⟨s', (bind_apply_of_ok hfirst).trans hrest, ?_⟩
        rwa [List.append_cons]
      · intro x hx
        rw [traceTrees, hfirst] at hx
        rcases List.mem_cons.mp hx with rfl | hx
        · exact h₁.consistent
        · exact htrace x hx

/-- A block without predecessors starts with empty registers. -/
theorem enter {s₀ : Allocator} {b : BlockId} (hg : g.Formed pending) (hhas : HasScanned g s₀ [] s)
    (hrested : Rested g [] s) (hcharted : s.Charted g) (hnamed : g.NamesVariables s.slots.length)
    (hsize : s.registers.length = size.toNat) (hreg : ∀ u, s.notes.reg u = -1)
    (hpredecessors : (s.notes.block b).predecessors = []) :
    ∃ s', enter b s = .ok () s' ∧ Advancing g size [] s' := by
  obtain ⟨⟨⟩, s', henter⟩ := returns_enter hpredecessors
  have hext := (enter_entered hhas.orderly (HasScanned.exits hhas) henter).continues
  refine ⟨s', henter, ?_⟩
  exact
    { rested := (enter_rested hg hhas hrested henter).1
      filed := by
        rcases enter_cases henter with ⟨-, rfl⟩ | ⟨crossings, s₁, hne, -⟩
        · exact cleared_filed _
        · exact absurd hpredecessors hne
      charted := hcharted.continues hrested.orderly.slots_le hext
      named := by
        rw [hext.slots_eq]
        exact hnamed
      size_eq := hext.size_eq.trans hsize
      assigned := by
        intro u hu
        cases hu
      reg_eq := by
        intro u _ _
        rw [Notes.reg, (enter_notes henter).2]
        exact hreg u }

end Advancing

/-- A block of flat code is scanned. -/
theorem scanBlock_of_flat {size : Int} {b : BlockId} (hflat : g.Flat) (hg : g.Formed pending)
    (hsize : 0 < size) (htrees : g.treesFrom 0 = g.treesOf b) (henter : enter b s = .ok () s₁)
    (h : Advancing g size [] s₁) :
    ∃ s', scanBlocks g [b] s = .ok () s' ∧
      (traceBlocks g [b] s).map Step.tree = g.treesOf b ∧
      ∀ x ∈ traceBlocks g [b] s, x.after.Consistent size := by
  have hall : g.treesFrom 0 = [] ++ (g.treesOf b ++ []) := by
    rw [htrees, List.append_nil, List.nil_append]
  obtain ⟨⟨s₂, hscan, h₂⟩, hconsistent⟩ := h.run hflat hg hsize hall
  obtain ⟨⟨⟩, s', hdepart⟩ := returns_depart (b := b) h₂.rested.orderly
  have hblock : scanBlock g b s = .ok () s' := by
    rw [scanBlock, bind_apply_of_ok henter, bind_apply_of_ok hscan, hdepart]
  have htrace : traceBlocks g [b] s = traceTrees g (g.treesOf b) s₁ := by
    simp only [traceBlocks, henter, hblock, List.append_nil]
  refine ⟨s', ?_, ?_, ?_⟩
  · rw [scanBlocks, bind_apply_of_ok hblock]
    rfl
  · rw [htrace, traceTrees_map hscan]
  · rwa [htrace]

/-- A tree that was made without operands has none after the blocks were scanned. -/
theorem operands_scanBlocks {bs : List BlockId} (hg : g.Formed pending)
    (ht : t ∈ g.allTrees pending) (hoperands : t.operands = [])
    (hstored : ∀ u, (s.notes.tree u).stored = []) (h : scanBlocks g bs s = .ok () s') :
    s'.notes.operands t = [] := by
  have hscan : Confined (fun id => id = t.id) (fun _ => True) (scanBlocks g bs) s := by
    refine confined_scanBlocks (fun _ _ _ => trivial) fun v hv =>
      confined_of_mem_visitBlocks hg.twins_eq ?_ hv
    intro b u hu hid
    rwa [hg.planted.eq_of_id_eq (hg.mem_allTrees hu) ht hid]
  have hstart : s.Untouched (fun id => id = t.id) := by
    rintro id rfl
    exact hstored t
  have hnil : (s'.notes.tree t).stored = [] :=
    hscan.untouched hstart (Or.inl ⟨(), h⟩) t.id rfl
  rw [Notes.operands, hoperands, hnil]
  rfl

end Alloc

open Alloc

theorem Graph.Formed.mem_allTrees_of_terminator {g : Graph} {pending : List Tree} {b : BlockId}
    {t : Tree} (hg : g.Formed pending) (h : g.terminator b = .ok t) : t ∈ g.allTrees pending := by
  rw [Graph.terminator] at h
  split at h
  · next r hr =>
      injection h with h
      subst h
      apply Graph.mem_allTrees_of_root
      exact List.mem_append_left _ (Graph.mem_statementTrees (hg.linked.last_lt hr))
  · cases h

section Exits

variable {p : Program} {m : Imported} (h : p.import? = .ok m)
  (hexits : ∀ b ∈ m.ir.blocks m.graph, ∃ t, m.graph.terminator b = .ok t ∧ t.operands = [])
include h hexits

/-- If no edge leaves any block, no block has a predecessor. -/
theorem Program.import?_predecessors_eq_nil (c : BlockId) :
    (m.notes.block c).predecessors = [] := by
  rw [Program.import?_predecessors h, List.eq_nil_iff_forall_not_mem]
  intro b hb
  obtain ⟨hb', x, hx, -⟩ := Graph.mem_sourcesOf.mp hb
  obtain ⟨t, hlast, hoperands⟩ := hexits b hb'
  rw [Graph.exits, hlast] at hx
  simp [Tree.edges, hoperands] at hx

/-- If no edge leaves any block, there is nothing left to do when the blocks have been scanned. -/
theorem Program.compile_of_scanBlocks {settings : Settings} {s₀ s₁ : Allocator}
    (hsurvey : survey m.graph m.ir
      (Allocator.create m.notes settings.registers settings.reuse) = .ok () s₀)
    (hscan : scanBlocks m.graph (m.ir.blocks m.graph) s₀ = .ok () s₁) :
    p.compile settings = .ok ⟨m.graph, m.ir, s₁, none, p.refresh s₁.notes m.stores⟩ := by
  obtain ⟨⟨pending, hg⟩, hfresh, -⟩ := Program.import?_formed h
  have hstored : ∀ u, (s₀.notes.tree u).stored = [] := by
    intro u
    rw [(survey_hasScanned hfresh hsurvey).2.tree_eq]
    exact hfresh.stored_eq u
  have hedges : resolveEdges m.graph (m.ir.blocks m.graph) s₁ = .ok () s₁ := by
    apply resolveEdges_eq_self
    intro b hb
    obtain ⟨t, hlast, hoperands⟩ := hexits b hb
    exact ⟨t, hlast,
      operands_scanBlocks hg (hg.mem_allTrees_of_terminator hlast) hoperands hstored hscan⟩
  have hall : scan m.graph m.ir
      (Allocator.create m.notes settings.registers settings.reuse) = .ok () s₁ := by
    rw [scan, bind_apply_of_ok hsurvey, bind_apply_of_ok hscan, hedges]
  simp only [Program.compile, h, bind, Except.bind, hall]
  rfl

end Exits

/-- Flat code of one block, from which no edge leaves, is scanned with any number of registers,
and the three records of the registers agree after each tree. -/
theorem Program.compile_of_flat {p : Program} {m : Imported} (h : p.import? = .ok m)
    (hblocks : m.ir.blocks m.graph = [0]) (hflat : m.graph.Flat)
    (hnamed : m.graph.NamesVariables p.locals.toNat)
    (honce : ((m.ir.trees m.graph).map Tree.id).Nodup) {t : Tree}
    (hlast : m.graph.terminator 0 = .ok t) (hoperands : t.operands = []) {settings : Settings}
    (hsize : 0 < settings.registers) :
    ∃ c, p.compile settings = .ok c ∧ c.fault = none ∧
      (p.steps settings).map Step.tree = c.ir.trees c.graph ∧
      ∀ x ∈ p.steps settings, x.after.Consistent settings.registers := by
  obtain ⟨⟨pending, hg⟩, hfresh, hfirst⟩ := Program.import?_formed h
  have htrees : m.graph.treesFrom 0 = m.graph.treesOf 0 := by
    rw [Ir.blocks, hfirst] at hblocks
    rw [Graph.treesFrom, hblocks, List.flatMap_singleton]
  have hexits : ∀ b ∈ m.ir.blocks m.graph,
      ∃ t, m.graph.terminator b = .ok t ∧ t.operands = [] := by
    intro b hb
    rw [hblocks, List.mem_singleton] at hb
    exact ⟨t, hb ▸ hlast, hoperands⟩
  -- The survey.
  obtain ⟨⟨⟩, s₀, hsurvey⟩ : Returns (survey m.graph m.ir)
      (Allocator.create m.notes settings.registers settings.reuse) :=
    returns_survey hg hfirst ((Program.import?_measures h).1 ▸ hnamed) hfresh.liveIn_eq
      hfresh.intervalCount_eq
  obtain ⟨hhas, hlisted⟩ := survey_hasScanned hfresh hsurvey
  obtain ⟨hcharted, hnamed₀⟩ := Program.survey_charted h hnamed hsurvey
  have hrested := survey_rested hfresh (Program.import?_sorted h honce) hsurvey
  have hreg : ∀ u, s₀.notes.reg u = -1 := by
    intro u
    rw [Notes.reg, hlisted.tree_eq]
    exact hfresh.reg_eq u
  have hpredecessors : (s₀.notes.block 0).predecessors = [] := by
    rw [Notes.block, hlisted.blocks_eq]
    exact Program.import?_predecessors_eq_nil h hexits 0
  have hlength : s₀.registers.length = settings.registers.toNat := by
    rw [hlisted.registers_eq]
    exact List.length_replicate
  -- The block, and the edges of which there are none.
  obtain ⟨s₁, henter, hadvancing⟩ := Advancing.enter hg hhas hrested hcharted hnamed₀ hlength
    hreg hpredecessors
  obtain ⟨s₂, hscan, hmap, hconsistent⟩ :=
    scanBlock_of_flat hflat hg hsize htrees henter hadvancing
  have hcompile := Program.compile_of_scanBlocks h hexits hsurvey (hblocks ▸ hscan)
  have hsteps : p.steps settings = traceBlocks m.graph [0] s₀ := by
    simp only [Program.steps, h, hsurvey, hblocks]
  refine ⟨_, hcompile, rfl, ?_, ?_⟩
  · rw [hsteps, hmap, ← htrees, Ir.trees, hfirst]
  · rwa [hsteps]

end LinearScan
