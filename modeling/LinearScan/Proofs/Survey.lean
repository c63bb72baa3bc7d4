import LinearScan.Proofs.Boundaries

/-!
# What the survey finds

The survey gives every local variable an interval, numbered like the variable, and
collects the trees that read and that write it, in execution order.  Registers and all
other notes stay as they were.
-/

namespace LinearScan

namespace Allocator

/-- Whether the tree `t` is of the given kind and names the variable with interval `i`. -/
def names (s : Allocator) (kind : TreeKind) (i : IntervalId) (t : Tree) : Bool :=
  t.kind == kind &&
    match s.slotOf t with
    | .ok j => j == i
    | .error _ => false

theorem names_iff {s : Allocator} {kind : TreeKind} {i : IntervalId} {t : Tree} :
    s.names kind i t = true ↔ t.kind = kind ∧ s.slotOf t = .ok i := by
  rw [names, Bool.and_eq_true, beq_iff_eq]
  refine and_congr_right fun _ => ?_
  cases s.slotOf t with
  | error fault => simp
  | ok j => simp

/-- In `s` the variables have their intervals, and nothing else has changed since `s₀`. -/
structure Listed (s₀ s : Allocator) : Prop where
  slots_eq : s.slots = List.range s.slots.length
  count_eq : s.notes.intervalCount = s.slots.length
  owner_eq : ∀ i : Nat, i < s.slots.length → (s.interval i).owner = .slot i
  liveIn_eq : ∀ i, (s.interval i).liveIn = none
  trees_eq : s.notes.trees = s₀.notes.trees
  edges_eq : s.notes.edges = s₀.notes.edges
  blocks_eq : s.notes.blocks = s₀.notes.blocks
  registers_eq : s.registers = s₀.registers
  active_eq : s.active = s₀.active
  reuse_eq : s.reuse = s₀.reuse

namespace Listed

variable {s₀ s : Allocator}

section

variable (hs : s₀.Listed s)
include hs

theorem tree_eq (t : Tree) : s.notes.tree t = s₀.notes.tree t := by
  rw [Notes.tree, Notes.tree, hs.trees_eq]

theorem index_eq (t : Tree) : s.notes.index t = s₀.notes.index t := by
  rw [Notes.index, Notes.index, hs.tree_eq]

theorem slotOf_eq {s' : Allocator} (hs' : s₀.Listed s') (hslots : s'.slots = s.slots) (t : Tree) :
    s'.slotOf t = s.slotOf t := by
  simp only [slotOf, Notes.operands, hs.tree_eq, hs'.tree_eq, hslots]

/-- No interval is that of a result yet. -/
theorem owner_ne_temp (i : IntervalId) (u : Tree) (hi : i < s.notes.intervalCount) :
    (s.interval i).owner ≠ .temp u := by
  rw [hs.count_eq] at hi
  rw [hs.owner_eq i hi]
  exact Owner.noConfusion

/-- A change of the lives of intervals alone. -/
theorem modifyInterval (i : IntervalId) {f : Interval → Interval}
    (howner : ∀ iv, (f iv).owner = iv.owner) (hlive : ∀ iv, (f iv).liveIn = iv.liveIn) :
    s₀.Listed { s with notes := s.notes.modifyInterval i f } where
  slots_eq := hs.slots_eq
  count_eq := hs.count_eq
  owner_eq j hj := by
    rw [interval, Notes.interval_modifyInterval]
    split
    · rw [howner]
      exact hs.owner_eq j hj
    · exact hs.owner_eq j hj
  liveIn_eq j := by
    rw [interval, Notes.interval_modifyInterval]
    split
    · rw [hlive]
      exact hs.liveIn_eq j
    · exact hs.liveIn_eq j
  trees_eq := hs.trees_eq
  edges_eq := hs.edges_eq
  blocks_eq := hs.blocks_eq
  registers_eq := hs.registers_eq
  active_eq := hs.active_eq
  reuse_eq := hs.reuse_eq

/-- One more variable. -/
theorem create {iv : Interval} (howner : iv.owner = .slot s.slots.length)
    (hlive : iv.liveIn = none) :
    s₀.Listed { s with
      slots := s.slots ++ [s.notes.intervalCount]
      notes := s.notes.addInterval iv } where
  slots_eq := by
    rw [List.length_append, List.length_singleton, List.range_succ, ← hs.slots_eq, hs.count_eq]
  count_eq := by
    rw [List.length_append, List.length_singleton, ← hs.count_eq]
    rfl
  owner_eq j hj := by
    rw [interval, Notes.interval_addInterval]
    split
    · next hcount => rw [howner, ← hs.count_eq, hcount]
    · next hcount =>
        refine hs.owner_eq j ?_
        rw [List.length_append, List.length_singleton, ← hs.count_eq] at hj
        rw [← hs.count_eq]
        omega
  liveIn_eq j := by
    rw [interval, Notes.interval_addInterval]
    split
    · exact hlive
    · exact hs.liveIn_eq j
  trees_eq := hs.trees_eq
  edges_eq := hs.edges_eq
  blocks_eq := hs.blocks_eq
  registers_eq := hs.registers_eq
  active_eq := hs.active_eq
  reuse_eq := hs.reuse_eq

/-- Before the first tree is scanned all is in order. -/
theorem orderly (g : Graph) (hactive : s₀.active = [])
    (hregisters : ∀ k : Nat, (s₀.registers[k]?).join = none)
    (hspills : ∀ u, (s₀.notes.tree u).spills = [])
    (hrestores : ∀ u, (s₀.notes.tree u).restores = []) : s.Orderly g where
  slots_eq := hs.slots_eq
  slots_le := Nat.le_of_eq hs.count_eq.symm
  owner_slot := hs.owner_eq
  owner_temp i hle hlt := by
    rw [hs.count_eq] at hlt
    exact absurd hlt (Nat.not_lt_of_le hle)
  active_nodup := by rw [hs.active_eq, hactive]; exact List.nodup_nil
  active_lt i hi := by rw [hs.active_eq, hactive] at hi; cases hi
  active_live i hi := by rw [hs.active_eq, hactive] at hi; cases hi
  slot_active i r _ hr := by rw [hs.liveIn_eq] at hr; cases hr
  live_range i r hr := by rw [hs.liveIn_eq] at hr; cases hr
  occupied_lt k j hj := by
    have hnone := hregisters k
    rw [hs.registers_eq] at hj
    rw [hj] at hnone
    cases hnone
  spill_lt u sp hsp := by
    rw [hs.tree_eq, hspills] at hsp
    cases hsp
  restore_lt u r hr := by
    rw [hs.tree_eq, hrestores] at hr
    cases hr

end

end Listed
end Allocator

namespace Alloc

open Allocator

variable {g : Graph} {ir : Ir} {s₀ s s' : Allocator}

theorem createSlots_listed {k count : Nat} (hs : s₀.Listed s) (hk : s.slots.length = k)
    (hempty : ∀ i : Nat, i < k → (s.interval i).uses = [] ∧ (s.interval i).writes = [])
    (h : createSlots ir k count s = .ok () s') :
    s₀.Listed s' ∧ s'.slots.length = k + count ∧
      ∀ i : Nat, i < k + count → (s'.interval i).uses = [] ∧ (s'.interval i).writes = [] := by
  induction count generalizing k s with
  | zero =>
      obtain ⟨-, rfl⟩ := pure_cases h
      exact ⟨hs, hk, hempty⟩
  | succ count ih =>
      rw [createSlots, bind_apply_of_ok (modify_apply _ s)] at h
      have howner : ({ owner := .slot k, firstWrite := ir.count, lastRead := -1 } :
          Interval).owner = .slot s.slots.length := by rw [hk]
      have hcreated := hs.create howner rfl
      have hlists : ∀ i : Nat, i < k + 1 →
          ((s.notes.addInterval
            { owner := .slot k, firstWrite := ir.count, lastRead := -1 }).interval i).uses = [] ∧
          ((s.notes.addInterval
            { owner := .slot k, firstWrite := ir.count, lastRead := -1 }).interval i).writes =
          [] := by
        intro i hi
        rw [Notes.interval_addInterval]
        split
        · exact ⟨rfl, rfl⟩
        · next hcount =>
            rw [hs.count_eq, hk] at hcount
            exact hempty i (by omega)
      obtain ⟨hs', hlength, hlists'⟩ := ih hcreated (by simp [hk]) hlists h
      refine ⟨hs', by omega, ?_⟩
      intro i hi
      exact hlists' i (by omega)

/-- What the survey of some trees adds to the lists of the variables. -/
structure Surveyed (s₀ : Allocator) (ts : List Tree) (s s' : Allocator) : Prop where
  listed : s₀.Listed s'
  slots_eq : s'.slots = s.slots
  uses_eq : ∀ i : Nat, (s'.interval i).uses =
    (s.interval i).uses ++ ts.filter (s.names .ldLocal i)
  writes_eq : ∀ i : Nat, (s'.interval i).writes =
    (s.interval i).writes ++ ts.filter (s.names .stLocal i)

theorem names_eq (hs : s₀.Listed s) (hs' : s₀.Listed s') (hslots : s'.slots = s.slots)
    (kind : TreeKind) (i : IntervalId) : s'.names kind i = s.names kind i := by
  funext t
  simp only [names, hs.slotOf_eq hs' hslots]

theorem Surveyed.trans {ts us : List Tree} {s₁ : Allocator} (hs : s₀.Listed s)
    (h : Surveyed s₀ ts s s₁) (h' : Surveyed s₀ us s₁ s') : Surveyed s₀ (ts ++ us) s s' where
  listed := h'.listed
  slots_eq := h'.slots_eq.trans h.slots_eq
  uses_eq i := by
    rw [h'.uses_eq, h.uses_eq, names_eq hs h.listed h.slots_eq, List.filter_append,
      List.append_assoc]
  writes_eq i := by
    rw [h'.writes_eq, h.writes_eq, names_eq hs h.listed h.slots_eq, List.filter_append,
      List.append_assoc]

theorem Surveyed.refl (hs : s₀.Listed s) : Surveyed s₀ [] s s :=
  ⟨hs, rfl, fun _ => by simp, fun _ => by simp⟩

/-- The survey of one tree notes a write, notes a read or does nothing. -/
theorem surveyTree_cases {t : Tree} (h : surveyTree g t s = .ok () s') :
    (∃ j, t.kind = .stLocal ∧ s.slotOf t = .ok j ∧
      s' = { s with notes := s.notes.addWrite j t }) ∨
    (∃ j p, t.kind = .ldLocal ∧ s.slotOf t = .ok j ∧
      s' = { s with notes := s.notes.addRead j t (s.notes.index p) }) ∨
    (t.kind ≠ .stLocal ∧ t.kind ≠ .ldLocal ∧ s' = s) := by
  by_cases hstore : t.kind = .stLocal
  · simp only [surveyTree, hstore] at h
    obtain ⟨j, s₁, hslot, hadd⟩ := exists_of_bind_apply_eq_ok (get_bind_cases h)
    obtain ⟨hslot, rfl⟩ := ofExcept_cases hslot
    exact Or.inl ⟨j, hstore, hslot, modifyNotes_cases hadd⟩
  · by_cases hload : t.kind = .ldLocal
    · simp only [surveyTree, hload] at h
      obtain ⟨j, s₁, hslot, hadd⟩ := exists_of_bind_apply_eq_ok (get_bind_cases h)
      obtain ⟨hslot, rfl⟩ := ofExcept_cases hslot
      cases hparent : g.parent t with
      | none =>
          simp only [hparent] at hadd
          cases hadd
      | some p =>
          simp only [hparent] at hadd
          exact Or.inr (Or.inl ⟨j, p, hload, hslot, modifyNotes_cases hadd⟩)
    · refine Or.inr (Or.inr ⟨hstore, hload, ?_⟩)
      cases hkind : t.kind <;> simp_all [surveyTree]

theorem surveyTree_surveyed {t : Tree} (hs : s₀.Listed s) (h : surveyTree g t s = .ok () s') :
    Surveyed s₀ [t] s s' := by
  rcases surveyTree_cases h with ⟨j, hstore, hslot, rfl⟩ | ⟨j, p, hload, hslot, rfl⟩ |
    ⟨hstore, hload, rfl⟩
  · refine ⟨hs.modifyInterval j (fun _ => rfl) (fun _ => rfl), rfl, ?_, ?_⟩
    · intro i
      simp only [Allocator.interval, Notes.addWrite, Notes.interval_modifyInterval]
      split <;> simp [names, hstore]
    · intro i
      simp only [Allocator.interval, Notes.addWrite, Notes.interval_modifyInterval]
      by_cases hij : j = i
      · simp [names, hstore, hslot, hij]
      · simp [names, hstore, hslot, hij]
  · refine ⟨hs.modifyInterval j (fun _ => rfl) (fun _ => rfl), rfl, ?_, ?_⟩
    · intro i
      simp only [Allocator.interval, Notes.addRead, Notes.interval_modifyInterval]
      by_cases hij : j = i
      · simp [names, hload, hslot, hij]
      · simp [names, hload, hslot, hij]
    · intro i
      simp only [Allocator.interval, Notes.addRead, Notes.interval_modifyInterval]
      split <;> simp [names, hload]
  · exact ⟨hs, rfl, fun i => by simp [names, hload], fun i => by simp [names, hstore]⟩

theorem surveyTrees_surveyed {ts : List Tree} (hs : s₀.Listed s)
    (h : surveyTrees g ts s = .ok () s') : Surveyed s₀ ts s s' := by
  induction ts generalizing s with
  | nil =>
      obtain ⟨-, rfl⟩ := pure_cases h
      exact .refl hs
  | cons t ts ih =>
      obtain ⟨⟨⟩, s₁, hfirst, hrest⟩ := exists_of_bind_apply_eq_ok h
      have hfirst' := surveyTree_surveyed hs hfirst
      exact hfirst'.trans hs (ih hfirst'.listed hrest)

theorem lastRead_extendReads (n : Notes) (last : Nat) (is : List IntervalId) (i : IntervalId) :
    ((n.extendReads last is).interval i).lastRead =
      if i ∈ is then (last : Int) else (n.interval i).lastRead := by
  induction is generalizing n with
  | nil => simp [Notes.extendReads]
  | cons j is ih =>
      have hfirst := n.interval_modifyInterval j i fun iv => { iv with lastRead := last }
      simp only [Notes.extendReads, List.foldl_cons] at ih ⊢
      rw [ih, hfirst]
      by_cases hij : j = i
      · simp [hij]
      · simp [hij, Ne.symm hij]

theorem extendReads_surveyed (hs : s₀.Listed s) (last : Nat) (is : List IntervalId) :
    Surveyed s₀ [] s { s with notes := s.notes.extendReads last is } := by
  induction is generalizing s with
  | nil => exact .refl hs
  | cons j is ih =>
      have hfirst : Surveyed s₀ [] s { s with
          notes := s.notes.modifyInterval j fun iv => { iv with lastRead := last } } := by
        refine ⟨hs.modifyInterval j (fun _ => rfl) (fun _ => rfl), rfl, ?_, ?_⟩
        · intro i
          simp only [Allocator.interval, Notes.interval_modifyInterval]
          split <;> simp
        · intro i
          simp only [Allocator.interval, Notes.interval_modifyInterval]
          split <;> simp
      exact hfirst.trans hs (ih hfirst.listed)

theorem surveyBlocks_surveyed {bs : List BlockId} (hs : s₀.Listed s)
    (h : surveyBlocks g ir bs s = .ok () s') :
    Surveyed s₀ (bs.flatMap g.treesOf) s s' ∧
      (bs ≠ [] → ∀ i : Nat, i < s.slots.length → (s'.interval i).lastRead = ir.count) := by
  induction bs generalizing s with
  | nil =>
      obtain ⟨-, rfl⟩ := pure_cases h
      exact ⟨.refl hs, fun hne => absurd rfl hne⟩
  | cons b bs ih =>
      obtain ⟨⟨⟩, s₁, htrees, hrest⟩ := exists_of_bind_apply_eq_ok h
      rw [bind_apply_of_ok (modify_apply _ s₁)] at hrest
      have hfirst := surveyTrees_surveyed hs htrees
      have hextend := extendReads_surveyed hfirst.listed ir.count s₁.slots
      obtain ⟨hblocks, hlast⟩ := ih hextend.listed hrest
      have hstep := hfirst.trans hs hextend
      rw [List.append_nil] at hstep
      refine ⟨?_, ?_⟩
      · rw [List.flatMap_cons]
        exact hstep.trans hs hblocks
      · intro _ i hi
        cases bs with
        | nil =>
            obtain ⟨-, rfl⟩ := pure_cases hrest
            rw [Allocator.interval, lastRead_extendReads, if_pos]
            rw [hfirst.listed.slots_eq, hfirst.slots_eq]
            exact List.mem_range.mpr hi
        | cons c bs => exact hlast (by simp) i (by rw [hfirst.slots_eq]; exact hi)

/-- What the survey finds. -/
theorem survey_listed (h : survey g ir s₀ = .ok () s) (hlive : ∀ i, (s₀.interval i).liveIn = none)
    (hcount : s₀.notes.intervalCount = 0) :
    s₀.Listed s ∧ s.slots.length = ir.locals.toNat ∧
      (ir.blocks g ≠ [] → ∀ i : Nat, i < s.slots.length → (s.interval i).lastRead = ir.count) ∧
      ∀ i : Nat, i < s.slots.length →
        (s.interval i).uses = ((ir.blocks g).flatMap g.treesOf).filter (s.names .ldLocal i) ∧
        (s.interval i).writes = ((ir.blocks g).flatMap g.treesOf).filter (s.names .stLocal i) := by
  rw [survey, bind_apply_of_ok (modify_apply _ s₀)] at h
  obtain ⟨⟨⟩, s₁, hcreate, hblocks⟩ := exists_of_bind_apply_eq_ok h
  have hstart : s₀.Listed { s₀ with slots := [] } :=
    ⟨rfl, hcount, by simp, hlive, rfl, rfl, rfl, rfl, rfl, rfl⟩
  obtain ⟨hs₁, hlength, hempty⟩ := createSlots_listed hstart rfl (by simp) hcreate
  obtain ⟨hsurveyed, hlast⟩ := surveyBlocks_surveyed hs₁ hblocks
  have hslots := hsurveyed.slots_eq
  refine ⟨hsurveyed.listed, by rw [hslots, hlength]; exact Nat.zero_add _, ?_, ?_⟩
  · intro hne i hi
    exact hlast hne i (by rwa [hslots] at hi)
  · intro i hi
    rw [hslots, hlength] at hi
    rw [hsurveyed.uses_eq, hsurveyed.writes_eq, (hempty i hi).1, (hempty i hi).2,
      names_eq hs₁ hsurveyed.listed hslots, names_eq hs₁ hsurveyed.listed hslots]
    exact ⟨rfl, rfl⟩

end Alloc
end LinearScan
