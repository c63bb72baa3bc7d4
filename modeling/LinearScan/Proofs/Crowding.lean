import LinearScan.Proofs.JumpFree
import LinearScan.Proofs.Victims

/-!
# Registers that are full of variables

When two registers or more are there and results may go into the registers of operands, an
operation always finds room for its operands and a read for its variable.  A result does not:
while it waits as the left operand of an operation, the right one is still to be computed, and
variables that are read there are not spilled for it.  `Crowded` says that all registers are
taken by such variables, and `Program.compile_noVictim_iff` that this is the only way in which
the scan of a program without jumps can lack a victim, as long as the records of the registers
agree.
-/

namespace LinearScan

open Allocator

namespace Alloc

variable {g : Graph} {pending past future : List Tree} {t y u z p : Tree}
  {back : List IntervalId} {s s₁ s' : Allocator} {i j k : Nat}

/-- The tree `t`, whose result asks for a register, is the left operand of an operation, and
every register is occupied by a variable that is read next within the right operand. -/
def Crowded (g : Graph) (t : Tree) (q : Allocator × IntervalId) : Prop :=
  (q.1.interval q.2).owner = .temp t ∧
    ∃ p right, g.parent t = some p ∧ p.subtrees = [t, right] ∧
      ∀ content ∈ q.1.registers, ∃ j k z, content = some j ∧ (q.1.interval j).owner = .slot k ∧
        q.1.notes.nextUse j (q.1.notes.index t) = some z ∧ z ∈ right.postorder

/-! ## The state of a request -/

/-- The tree `y` asks for a register: the active temporaries were born in `past`, each in an
interval of its own, and the file agrees with what lives in it. -/
structure Asking (g : Graph) (past : List Tree) (y : Tree) (s : Allocator) : Prop where
  orderly : s.Orderly g
  sorted : s.notes.Sorted g
  born : ∀ j ∈ s.active, ∀ u, (s.interval j).owner = .temp u → u ∈ past
  owner_inj : ∀ (i j : Nat) u, i < s.notes.intervalCount → j < s.notes.intervalCount →
    (s.interval i).owner = .temp u → (s.interval j).owner = .temp u → i = j
  filed : Filed s.registers s.active s.notes
  charted : s.Charted g

/-- What the tree `y` asks for: an operand, the variable it reads, or its result. -/
inductive Wanted (g : Graph) (y : Tree) (s : Allocator) (i : Nat) : Prop
  | operand (u : Tree) (hi : i < s.notes.intervalCount) (howner : (s.interval i).owner = .temp u)
      (hu : u ∈ y.subtrees) (hparent : g.parent u = some y)
  | load (hi : i < s.slots.length) (hnames : y.Names .ldLocal i)
  | result (p : Tree) (hi : i < s.notes.intervalCount) (howner : (s.interval i).owner = .temp y)
      (hparent : g.parent y = some p) (hkind : y.kind ≠ .ldLocal)
      (hlive : (s.interval i).liveIn = none)
      (hlater : ∀ j ∈ s.active, ∀ u p, (s.interval j).owner = .temp u → g.parent u = some p →
        s.notes.index y < s.notes.index p)

/-- The interval `j` is a variable that is read next in the right operand of the tree `p`, of
which `y` is the left one. -/
def ReadAside (p y : Tree) (s : Allocator) (j : IntervalId) : Prop :=
  ∃ z, s.notes.nextUse j (s.notes.index y) = some z ∧ j < s.slots.length ∧
    ∃ right, p.subtrees = [y, right] ∧ z ∈ right.postorder

theorem subtrees_eq_nil_of_ldLocal (hg : g.Formed pending) (ht : t ∈ g.treesFrom 0)
    (hkind : t.kind = .ldLocal) : t.subtrees = [] := by
  have hlength := hg.subtrees_length ht
  rw [hkind] at hlength
  exact List.eq_nil_of_length_eq_zero hlength

/-- If no register is empty, each one is occupied by an active interval. -/
theorem exists_occupant (h : Filed s.registers s.active s.notes)
    (hfree : s.freeRegisters = []) (hk : k < s.registers.length) :
    ∃ j : Nat, j ∈ s.active ∧ s.registers[k]? = some (some j) := by
  have hsome : s.registers[k]? = some s.registers[k] := List.getElem?_eq_getElem hk
  cases hcontent : s.registers[k] with
  | none =>
      rw [hcontent, ← mem_freeRegisters, hfree] at hsome
      cases hsome
  | some j =>
      rw [hcontent] at hsome
      exact ⟨j, ((h k j).mp hsome).1, hsome⟩

namespace Asking

/-- If there are two registers, and both are full, then there are two active intervals. -/
theorem exists_two (h : Asking g past y s) (hfree : s.freeRegisters = [])
    (hsize : 2 ≤ s.registers.length) : ∃ i j : Nat, i ∈ s.active ∧ j ∈ s.active ∧ i ≠ j := by
  obtain ⟨i, hi, hzero⟩ := exists_occupant h.filed hfree (Nat.lt_of_lt_of_le Nat.zero_lt_two hsize)
  obtain ⟨j, hj, hone⟩ := exists_occupant h.filed hfree (Nat.lt_of_lt_of_le Nat.one_lt_two hsize)
  refine ⟨i, j, hi, hj, ?_⟩
  rintro rfl
  have hlive := ((h.filed _ _).mp hzero).2
  rw [((h.filed _ _).mp hone).2] at hlive
  cases hlive

section Uses

variable (hg : g.Formed pending) (htrees : g.treesFrom 0 = past ++ y :: future)
  (h : Asking g past y s)
include hg htrees h

/-- Where an active interval is used next: a variable where it is read, a temporary where its
value is taken. -/
theorem use_cases (hj : j ∈ s.active) (huse : s.notes.nextUse j (s.notes.index y) = some z) :
    z ∈ g.treesFrom 0 ∧ s.notes.index y ≤ s.notes.index z ∧
      (j < s.slots.length ∧ z.Names .ldLocal j ∨
        ∃ u ∈ past, (s.interval j).owner = .temp u ∧ g.parent u = some z) := by
  obtain ⟨hmem, hle⟩ := index_of_nextUse huse
  have hlt := h.orderly.active_lt j hj
  by_cases hslot : j < s.slots.length
  · have huses : (s.notes.interval j).uses =
        (g.treesFrom 0).filter fun t => t.Names .ldLocal j := h.charted.uses_eq j hslot
    rw [huses, List.mem_filter, decide_eq_true_iff] at hmem
    exact ⟨hmem.1, hle, Or.inl ⟨hslot, hmem.2⟩⟩
  · obtain ⟨u, p, howner, hparent, huses, -⟩ :=
      h.orderly.owner_temp j (Nat.le_of_not_lt hslot) hlt
    have huses' : (s.notes.interval j).uses = [p] := huses
    rw [huses', List.mem_singleton] at hmem
    subst hmem
    have hu := h.born j hj u howner
    have hu' := Graph.mem_treesFrom_of_past htrees hu
    exact ⟨(h.sorted.parent_spec hg hu' hparent).1, hle, Or.inr ⟨u, hu, howner, hparent⟩⟩

/-- An active interval that is used at `y` and not later is an operand of `y`, or the variable
that `y` reads. -/
theorem used_here (hj : j ∈ s.active) (huse : s.notes.nextUse j (s.notes.index y) = some z)
    (hle : s.notes.index z ≤ s.notes.index y) :
    y.Names .ldLocal j ∨ ∃ u ∈ past, (s.interval j).owner = .temp u ∧ g.parent u = some y := by
  obtain ⟨hz, hge, hcases⟩ := h.use_cases hg htrees hj huse
  obtain rfl := h.sorted.eq_of_index_eq htrees hz (Nat.le_antisymm hle hge)
  rcases hcases with ⟨-, hnames⟩ | htemp
  · exact Or.inl hnames
  · exact Or.inr htemp

/-- There is room for an operand: only the other one has to stay. -/
theorem operand_has_room (hsize : 2 ≤ s.registers.length) (hi : i < s.notes.intervalCount)
    (howner : (s.interval i).owner = .temp u) (hu : u ∈ y.subtrees)
    (hparent : g.parent u = some y) : ¬ s.NoRoom (s.notes.index y) i := by
  rintro ⟨hlive, hfree, use, huse, hpassed⟩
  have hy : y ∈ g.treesFrom 0 := by simp [htrees]
  rw [nextUse_temp h.orderly.toOwned hi howner hparent (Nat.le_refl _)] at huse
  obtain rfl : y = use := Option.some.inj huse
  have hoperand : ∀ j ∈ s.active, ∃ v ∈ y.subtrees, (s.interval j).owner = .temp v := by
    intro j hj
    obtain ⟨z, hz, hle⟩ := hpassed j hj
    rcases h.used_here hg htrees hj hz hle with ⟨hkind, -⟩ | ⟨v, hv, howner', hparent'⟩
    · rw [subtrees_eq_nil_of_ldLocal hg hy hkind] at hu
      cases hu
    · have hv' := Graph.mem_treesFrom_of_past htrees hv
      exact ⟨v, (h.sorted.parent_spec hg hv' hparent').2.1, howner'⟩
  obtain ⟨j, j', hj, hj', hne⟩ := h.exists_two hfree hsize
  obtain ⟨v, hv, hvowner⟩ := hoperand j hj
  obtain ⟨w, hw, hwowner⟩ := hoperand j' hj'
  have hactive := h.orderly.active_lt
  have hinactive := not_mem_active h.orderly hlive
  have hvw : v ≠ w := by
    rintro rfl
    exact hne (h.owner_inj j j' v (hactive j hj) (hactive j' hj') hvowner hwowner)
  have huv : u ≠ v := by
    rintro rfl
    exact hinactive (h.owner_inj i j u hi (hactive j hj) howner hvowner ▸ hj)
  have huw : u ≠ w := by
    rintro rfl
    exact hinactive (h.owner_inj i j' u hi (hactive j' hj') howner hwowner ▸ hj')
  -- Three operands are one too many.
  have hthree : [u, v, w].Subperm y.subtrees := by
    refine List.subperm_of_subset (by simp [huv, huw, hvw]) ?_
    simp [hu, hv, hw]
  have hlength := hthree.length_le
  have hle := hg.subtrees_length_le hy
  simp only [List.length_cons, List.length_nil] at hlength
  omega

/-- There is room for a variable that is read: no other interval has to stay. -/
theorem load_has_room (hsize : 0 < s.registers.length) (hi : i < s.slots.length)
    (hnames : y.Names .ldLocal i) : ¬ s.NoRoom (s.notes.index y) i := by
  rintro ⟨hlive, hfree, use, huse, hpassed⟩
  have hy : y ∈ g.treesFrom 0 := by simp [htrees]
  rw [h.charted.nextUse_of_names h.sorted htrees hi hnames] at huse
  obtain rfl := Option.some.inj huse
  obtain ⟨j, hj, -⟩ := exists_occupant h.filed hfree hsize
  obtain ⟨z, hz, hzuse⟩ := hpassed j hj
  rcases h.used_here hg htrees hj hz hzuse with ⟨-, hname⟩ | ⟨v, hv, -, hparent⟩
  · have hij : some (Literal.num i) = some (Literal.num j) := hnames.2.symm.trans hname
    simp only [Option.some.injEq, Literal.num.injEq] at hij
    obtain rfl : i = j := by omega
    exact not_mem_active h.orderly hlive hj
  · have hv' := Graph.mem_treesFrom_of_past htrees hv
    have hmem := (h.sorted.parent_spec hg hv' hparent).2.1
    rw [subtrees_eq_nil_of_ldLocal hg hy hnames.1] at hmem
    cases hmem

/-- A temporary that has to stay when `y` asks for a register for its result is the left operand
of the operation of which `y` is the right one. -/
theorem right_of_temp (hparent : g.parent y = some p) (hu : u ∈ past)
    (hparent' : g.parent u = some z) (hlater : s.notes.index y < s.notes.index z)
    (hle : s.notes.index z ≤ s.notes.index p) : z = p ∧ p.subtrees = [u, y] := by
  have hy : y ∈ g.treesFrom 0 := by simp [htrees]
  have hu' := Graph.mem_treesFrom_of_past htrees hu
  have huy := h.sorted.lt_of_mem_past htrees hu
  obtain ⟨hz, -, -⟩ := h.sorted.parent_spec hg hu' hparent'
  obtain ⟨hp, hmem, -⟩ := h.sorted.parent_spec hg hy hparent
  obtain ⟨right, hsubtrees, hright⟩ := h.sorted.left_of_between hg hu' hparent' hy huy hlater
  -- The tree `y` lies below `z`, so the tree that takes its value does not lie above `z`.
  have hbelow : p ∈ z.postorder := by
    have hpost := h.sorted.mem_postorder_of_between hg hu' hparent' hy huy hlater
    rcases Tree.eq_or_mem_subtrees hpost with rfl | ⟨w, hw, hyw⟩
    · exact absurd hlater (Nat.lt_irrefl _)
    · obtain ⟨b, -, hzb⟩ := List.mem_flatMap.mp hz
      obtain ⟨r, hr, hzr⟩ := Graph.Formed.mem_treesOf.mp hzb
      have hwall := hg.mem_allTrees
        (Graph.Formed.mem_treesOf.mpr ⟨r, hr, Tree.mem_postorder_trans hzr hw⟩)
      have hparent'' := hg.planted.parent_subtree w hwall y hyw
      rw [hparent] at hparent''
      obtain rfl := Option.some.inj hparent''
      exact hw
  have heq : s.notes.index p = s.notes.index z :=
    Nat.le_antisymm (h.sorted.index_le_of_mem_postorder hz hbelow) hle
  obtain ⟨before, after, hsplit⟩ := List.append_of_mem hz
  obtain rfl := h.sorted.eq_of_index_eq hsplit hp heq
  refine ⟨rfl, ?_⟩
  rw [hsubtrees, List.mem_cons, List.mem_singleton] at hmem
  rcases hmem with rfl | rfl
  · exact absurd huy (Nat.lt_irrefl _)
  · exact hsubtrees

/-- A variable that has to stay when `y` asks for a register for its result is read between `y`
and the tree that takes the result. -/
theorem read_between (hparent : g.parent y = some p) (hkind : y.kind ≠ .ldLocal)
    (hz : z ∈ g.treesFrom 0) (hnames : z.Names .ldLocal j)
    (hyz : s.notes.index y ≤ s.notes.index z) (hzp : s.notes.index z ≤ s.notes.index p) :
    ∃ right, p.subtrees = [y, right] ∧ z ∈ right.postorder := by
  have hy : y ∈ g.treesFrom 0 := by simp [htrees]
  obtain ⟨hp, hmem, -⟩ := h.sorted.parent_spec hg hy hparent
  have hne : s.notes.index z ≠ s.notes.index y := by
    intro heq
    obtain rfl := h.sorted.eq_of_index_eq htrees hz heq
    exact hkind hnames.1
  have hne' : s.notes.index z ≠ s.notes.index p := by
    intro heq
    obtain ⟨before, after, hsplit⟩ := List.append_of_mem hp
    obtain rfl := h.sorted.eq_of_index_eq hsplit hz heq
    rw [subtrees_eq_nil_of_ldLocal hg hp hnames.1] at hmem
    cases hmem
  exact h.sorted.left_of_between hg hy hparent hz (by omega) (by omega)

/-- What has to stay when `y` asks for a register for its result: variables that are read in the
right operand, or the left operand. -/
theorem stays_cases (hparent : g.parent y = some p) (hkind : y.kind ≠ .ldLocal)
    (hlater : ∀ j ∈ s.active, ∀ u p, (s.interval j).owner = .temp u → g.parent u = some p →
      s.notes.index y < s.notes.index p)
    (hj : j ∈ s.active) (huse : s.notes.nextUse j (s.notes.index y) = some z)
    (hle : s.notes.index z ≤ s.notes.index p) :
    ReadAside p y s j ∨ ∃ u ∈ past, (s.interval j).owner = .temp u ∧ p.subtrees = [u, y] := by
  obtain ⟨hz, hge, ⟨hslot, hnames⟩ | ⟨u, hu, howner, hparent'⟩⟩ := h.use_cases hg htrees hj huse
  · left
    exact ⟨z, huse, hslot, h.read_between hg htrees hparent hkind hz hnames hge hle⟩
  · right
    have hlt := hlater j hj u z howner hparent'
    exact ⟨u, hu, howner, (h.right_of_temp hg htrees hparent hu hparent' hlt hle).2⟩

omit hg in
/-- If all registers are full and nothing can go, then they are full of variables: the left
operand would be alone in the registers. -/
theorem readAside_of_full (hsize : 2 ≤ s.registers.length) (hfree : s.freeRegisters = [])
    (hstays : ∀ j ∈ s.active, ReadAside p y s j ∨
      ∃ u ∈ past, (s.interval j).owner = .temp u ∧ p.subtrees = [u, y]) :
    ∀ j ∈ s.active, ReadAside p y s j := by
  intro j hj
  refine (hstays j hj).resolve_right ?_
  rintro ⟨u, hu, howner, hsubtrees⟩
  have hother : ∃ j' ∈ s.active, j' ≠ j := by
    obtain ⟨a, b, ha, hb, hab⟩ := h.exists_two hfree hsize
    by_cases haj : a = j
    · exact ⟨b, hb, fun hbj => hab (haj.trans hbj.symm)⟩
    · exact ⟨a, ha, haj⟩
  obtain ⟨j', hj', hne⟩ := hother
  rcases hstays j' hj' with ⟨-, -, -, right, hright, -⟩ | ⟨u', -, howner', hright⟩
  · rw [hsubtrees] at hright
    obtain ⟨rfl, -⟩ := List.cons.inj hright
    exact absurd (h.sorted.lt_of_mem_past htrees hu) (Nat.lt_irrefl _)
  · rw [hsubtrees] at hright
    obtain ⟨rfl, -⟩ := List.cons.inj hright
    apply hne
    exact h.owner_inj j' j u (h.orderly.active_lt j' hj') (h.orderly.active_lt j hj) howner' howner

/-- There is no room for a result if and only if the registers are crowded. -/
theorem result_noRoom_iff (hsize : 2 ≤ s.registers.length) (hi : i < s.notes.intervalCount)
    (howner : (s.interval i).owner = .temp y) (hparent : g.parent y = some p)
    (hkind : y.kind ≠ .ldLocal) (hlive : (s.interval i).liveIn = none)
    (hlater : ∀ j ∈ s.active, ∀ u p, (s.interval j).owner = .temp u → g.parent u = some p →
      s.notes.index y < s.notes.index p) :
    s.NoRoom (s.notes.index y) i ↔ Crowded g y (s, i) := by
  have hy : y ∈ g.treesFrom 0 := by simp [htrees]
  obtain ⟨hp, hmem, hyp⟩ := h.sorted.parent_spec hg hy hparent
  have huse := nextUse_temp h.orderly.toOwned hi howner hparent (Nat.le_of_lt hyp)
  constructor
  · rintro ⟨-, hfree, use, huse', hpassed⟩
    rw [huse] at huse'
    obtain rfl := Option.some.inj huse'
    have hread : ∀ j ∈ s.active, ReadAside p y s j := by
      apply h.readAside_of_full htrees hsize hfree
      intro j hj
      obtain ⟨z, hz, hle⟩ := hpassed j hj
      exact h.stays_cases hg htrees hparent hkind hlater hj hz hle
    obtain ⟨j, hj, -⟩ := exists_occupant h.filed hfree (Nat.lt_of_lt_of_le Nat.zero_lt_two hsize)
    obtain ⟨-, -, -, right, hsubtrees, -⟩ := hread j hj
    refine ⟨howner, p, right, hparent, hsubtrees, ?_⟩
    intro content hcontent
    obtain ⟨k, hk, rfl⟩ := List.mem_iff_getElem.mp hcontent
    obtain ⟨j, hj, hoccupied⟩ := exists_occupant h.filed hfree hk
    obtain ⟨z, hz, hslot, right', hsubtrees', hpost⟩ := hread j hj
    rw [hsubtrees] at hsubtrees'
    obtain rfl : right = right' := by simpa using hsubtrees'
    rw [List.getElem?_eq_getElem hk] at hoccupied
    exact ⟨j, j, z, Option.some.inj hoccupied, h.orderly.owner_slot j hslot, hz, hpost⟩
  · rintro ⟨-, p', right, hparent', hsubtrees, hfull⟩
    rw [hparent] at hparent'
    obtain rfl := Option.some.inj hparent'
    refine ⟨hlive, ?_, p, huse, ?_⟩
    · rw [List.eq_nil_iff_forall_not_mem]
      intro k hk
      obtain ⟨j, k', z, hcontent, -⟩ := hfull none (List.mem_of_getElem? (mem_freeRegisters.mp hk))
      cases hcontent
    · intro j hj
      obtain ⟨k, hk⟩ := exists_liveIn_natCast h.orderly hj
      obtain ⟨j', k', z, hcontent, -, hz, hpost⟩ :=
        hfull (some j) (List.mem_of_getElem? ((h.filed k j).mpr ⟨hj, hk⟩))
      obtain rfl := Option.some.inj hcontent
      refine ⟨z, hz, h.sorted.index_le_of_mem_postorder hp ?_⟩
      refine Tree.mem_postorder_trans (Tree.mem_postorder_of_mem_subtrees (u := right) ?_) hpost
      simp [hsubtrees]

/-- A request finds no room if and only if it is that of a result, and the registers are
crowded. -/
theorem unmet_iff (hsize : 2 ≤ s.registers.length) (hwanted : Wanted g y s i) :
    Unmet y (s, i) ↔ Crowded g y (s, i) := by
  have hy : y ∈ g.treesFrom 0 := by simp [htrees]
  cases hwanted with
  | operand u hi howner hu hparent =>
      refine iff_of_false (h.operand_has_room hg htrees hsize hi howner hu hparent) ?_
      rintro ⟨hresult, -⟩
      rw [howner] at hresult
      injection hresult with hresult
      subst hresult
      exact Nat.lt_irrefl _ (h.sorted.parent_spec hg hy hparent).2.2
  | load hi hnames =>
      refine iff_of_false (h.load_has_room hg htrees
        (Nat.lt_of_lt_of_le Nat.zero_lt_two hsize) hi hnames) ?_
      rintro ⟨hresult, -⟩
      rw [h.orderly.owner_slot i hi] at hresult
      cases hresult
  | result p hi howner hparent hkind hlive hlater =>
      exact h.result_noRoom_iff hg htrees hsize hi howner hparent hkind hlive hlater

end Uses
end Asking

/-! ## The requests of a visit -/

theorem Serving.asking {todo : List IntervalId} (h : Serving g past y back todo s)
    (hfiled : Filed s.registers s.active s.notes) (hcharted : s.Charted g) :
    Asking g past y s where
  orderly := h.orderly
  sorted := h.sorted
  born j hj u := h.temps.owner_mem j u (h.orderly.active_lt j hj)
  owner_inj := h.temps.owner_inj
  filed := hfiled
  charted := hcharted

theorem Placing.asking (h : Placing g past y s) (hfiled : Filed s.registers s.active s.notes)
    (hcharted : s.Charted g) : Asking g past y s where
  orderly := h.orderly
  sorted := h.sorted
  born j hj u := h.temps.owner_mem j u (h.orderly.active_lt j hj)
  owner_inj := h.temps.owner_inj
  filed := hfiled
  charted := hcharted

/-- The request `q` is made in a state that continues `s`, and asks for what it may ask for. -/
def Asks (g : Graph) (past : List Tree) (y : Tree) (s : Allocator) (q : Allocator × IntervalId) :
    Prop :=
  Asking g past y q.1 ∧ Wanted g y q.1 q.2 ∧ s.Continues q.1

theorem Asks.after {q : Allocator × IntervalId} (h : Asks g past y s₁ q)
    (hext : s.Continues s₁) : Asks g past y s q :=
  ⟨h.1, h.2.1, hext.trans h.2.2⟩

section Requests

variable (hg : g.Formed pending) (htrees : g.treesFrom 0 = past ++ y :: future)
include hg htrees

theorem restoreRequests_asks {rs : List Restore}
    (h : Serving g past y back (rs.map Restore.interval) s)
    (hfiled : Filed s.registers s.active s.notes) (hcharted : s.Charted g)
    (hslips : ∀ q ∈ restoreRequests g y k rs s, ¬ Slips y q) :
    (∀ q ∈ restoreRequests g y k rs s, Asks g past y s q) ∧
      ∀ s', carryRestores g y k rs s = .ok () s' →
        (∃ back', Serving g past y back' [] s') ∧ Filed s'.registers s'.active s'.notes ∧
          s.Continues s' := by
  induction rs generalizing k back s with
  | nil =>
      refine ⟨by simp [restoreRequests], ?_⟩
      intro s' hcarry
      obtain ⟨-, rfl⟩ := pure_cases hcarry
      exact ⟨⟨back, h⟩, hfiled, .refl _⟩
  | cons r rs ih =>
      obtain ⟨hlt, -, u, howner, hparent⟩ := h.next hg htrees
      have hu : u ∈ g.treesFrom 0 := by
        rw [htrees]
        exact List.mem_append_left _ (h.temps.owner_mem r.interval u hlt howner)
      have hfirst : Asks g past y s (s, r.interval) :=
        ⟨h.asking hfiled hcharted,
          .operand u hlt howner (h.sorted.parent_spec hg hu hparent).2.1 hparent, .refl s⟩
      rw [restoreRequests] at hslips ⊢
      cases hcarry : carryRestore g y k r s with
      | error fault s₂ =>
          refine ⟨by simpa using hfirst, ?_⟩
          intro s' hall
          obtain ⟨⟨⟩, s₁, hok, -⟩ := exists_of_bind_apply_eq_ok hall
          rw [hcarry] at hok
          cases hok
      | ok value s₂ =>
          rw [hcarry] at hslips
          obtain ⟨-, s₁, hactivated, rfl⟩ := carryRestore_cases hcarry
          have hmove : Move g y .preparing s₁ { s₁ with
              notes := noteRestored s₁.notes y k (s₁.interval r.interval).liveIn } :=
            noteRestored_move s₁ k _
          have hext := (hactivated.extends.trans hmove.extends).toContinues
          have hserving := (h.activated hg htrees hactivated).noteRestored k
            (s₁.interval r.interval).liveIn
          have hfiled₁ : Filed s₁.registers s₁.active s₁.notes :=
            hactivated.filed h.orderly (hslips _ (List.mem_cons_self ..)) hfiled
          obtain ⟨hasks, hend⟩ := ih hserving hfiled₁ (hcharted.continues h.orderly.slots_le hext)
            fun q hq => hslips q (List.mem_cons_of_mem _ hq)
          refine ⟨?_, ?_⟩
          · intro q hq
            rcases List.mem_cons.mp hq with rfl | hq
            · exact hfirst
            · exact (hasks q hq).after hext
          · intro s' hall
            obtain ⟨⟨⟩, s₃, hok, hrest⟩ := exists_of_bind_apply_eq_ok hall
            rw [hcarry] at hok
            cases hok
            obtain ⟨hserving', hfiled', hext'⟩ := hend s' hrest
            exact ⟨hserving', hfiled', hext.trans hext'⟩

omit hg in
/-- Where operands have been released, every temporary is used later. -/
theorem Placing.later (h : Placing g past y s) (hreuse : s.reuse = true)
    (hrelease : Alloc.release y s = .ok () s') :
    ∀ j ∈ s'.active, ∀ u p, (s'.interval j).owner = .temp u → g.parent u = some p →
      s'.notes.index y < s'.notes.index p := by
  intro j hj u p howner hparent
  have hmove : Move g y .preparing s s' := release_move hrelease
  have hext := hmove.extends.toContinues
  obtain ⟨kept, s₂, hsifted, rfl⟩ := release_cases hrelease
  have hkept : j ∈ kept := hj
  rw [hsifted.kept_eq, List.mem_filter] at hkept
  obtain ⟨hactive, hexpired⟩ := hkept
  have hlt := h.orderly.active_lt j hactive
  rw [hext.owner_eq hlt] at howner
  have hu := h.sorted.lt_of_mem_past htrees (h.temps.owner_mem j u hlt howner)
  have hnot : ¬ s.expired (s.notes.index y) j = true := by simpa using hexpired
  rw [expired_temp h.orderly.toOwned h.temps hlt howner hparent hu, not_or] at hnot
  rw [hext.index_eq, hext.index_eq]
  have hne : s.notes.index p ≠ s.notes.index y := fun heq => hnot.2 ⟨hreuse, heq⟩
  omega

omit hg in
/-- A result asks for a register when its interval has been made. -/
theorem Placing.asks_result (h : Placing g past y s)
    (hregs : ∀ u ∈ y.subtrees, 0 ≤ s.notes.reg u)
    (hfiled : Filed s.registers s.active s.notes) (hcharted : s.Charted g)
    (hlater : ∀ j ∈ s.active, ∀ u p, (s.interval j).owner = .temp u → g.parent u = some p →
      s.notes.index y < s.notes.index p)
    (hparent : g.parent y = some p) (hload : y.kind ≠ .ldLocal) (hstore : y.kind ≠ .stLocal) :
    Asks g past y s ({ s with notes := s.notes.addInterval (tempOf s.notes y p) },
      s.notes.intervalCount) := by
  have hmove : Move g y .placing s
      { s with notes := s.notes.addInterval (tempOf s.notes y p) } :=
    .create p hparent hload hstore
  have hext := hmove.extends.toContinues
  have hold : ∀ {j : Nat}, j ∈ s.active →
      (s.notes.addInterval (tempOf s.notes y p)).interval j = s.interval j :=
    fun hj => s.notes.interval_addInterval_of_lt _ (h.orderly.active_lt _ hj)
  have hnew := s.notes.interval_addInterval_self (tempOf s.notes y p)
  have htemps := h.temps.create (not_mem_past h.sorted htrees) hload p
  have howner_old : ∀ j ∈ s.active, ∀ u,
      ((s.notes.addInterval (tempOf s.notes y p)).interval j).owner = .temp u →
      (s.interval j).owner = .temp u := by
    intro j hj u howner
    rwa [hold hj] at howner
  refine ⟨⟨hmove.orderly h.orderly hregs, h.sorted.congr hext.index_eq, ?_, htemps.owner_inj,
    ?_, hcharted.continues h.orderly.slots_le hext⟩, .result p (Nat.lt_succ_self _) ?_ hparent
    hload ?_ ?_, hext⟩
  · intro j hj u howner
    exact h.temps.owner_mem j u (h.orderly.active_lt j hj) (howner_old j hj u howner)
  · refine hfiled.congr (fun _ => rfl) (fun _ => Iff.rfl) ?_
    intro j hj
    rw [hold hj]
    rfl
  · rw [Allocator.interval, hnew]
    rfl
  · rw [Allocator.interval, hnew]
    rfl
  · intro j hj u p' howner hparent'
    exact hlater j hj u p' (howner_old j hj u howner) hparent'

omit hg in
theorem placeRequests_asks (h : Placing g past y s)
    (hregs : ∀ u ∈ y.subtrees, 0 ≤ s.notes.reg u)
    (hfiled : Filed s.registers s.active s.notes) (hcharted : s.Charted g)
    (hnamed : g.NamesVariables s.slots.length)
    (hlater : ∀ j ∈ s.active, ∀ u p, (s.interval j).owner = .temp u → g.parent u = some p →
      s.notes.index y < s.notes.index p) :
    ∀ q ∈ placeRequests g y s, Asks g past y s q := by
  have hy : y ∈ g.treesFrom 0 := by simp [htrees]
  intro q hq
  rw [placeRequests] at hq
  cases hkind : y.kind with
  | ldLocal =>
      obtain ⟨i, hi, hoperand⟩ := hnamed y hy (Or.inl hkind)
      simp only [hkind, slotOf_of_names h.orderly.slots_eq hi hoperand, List.mem_singleton] at hq
      subst hq
      exact ⟨h.asking hfiled hcharted, .load hi ⟨hkind, literal?_of_names hoperand⟩, .refl s⟩
  | stLocal =>
      rw [hkind] at hq
      cases hq
  | _ =>
      rw [hkind] at hq
      dsimp only at hq
      cases hparent : g.parent y with
      | none =>
          rw [hparent] at hq
          cases hq
      | some p =>
          rw [hparent, List.mem_singleton] at hq
          subst hq
          exact h.asks_result htrees hregs hfiled hcharted hlater hparent (by simp [hkind])
            (by simp [hkind])

/-- Every request of a scan in which no activation slips asks for what it may ask for. -/
theorem requests_asks (hrest : Rested g past s) (hregs : ∀ u ∈ y.subtrees, 0 ≤ s.notes.reg u)
    (hfiled : Filed s.registers s.active s.notes) (hcharted : s.Charted g)
    (hnamed : g.NamesVariables s.slots.length) (hreuse : s.reuse = true)
    (hslips : ∀ q ∈ requests g y s, ¬ Slips y q) :
    ∀ q ∈ requests g y s, Asks g past y s q := by
  rw [requests_phases hrest htrees] at hslips ⊢
  cases hrelease : release y { s with tree := some y, reuse := false } with
  | error fault s₁ => exact fun q hq => nomatch hq
  | ok value s₁ =>
      simp only [hrelease, List.mem_append] at hslips ⊢
      have hturn : s.Extends { s with tree := some y, reuse := false } :=
        .of_notes_eq rfl rfl rfl rfl
      have hmove : Move g y .preparing { s with tree := some y, reuse := false } s₁ :=
        release_move hrelease
      have hext₁ := (hturn.trans hmove.extends).toContinues
      have hserving := release_serving hg htrees hrest hregs hrelease
      have hfiled₁ := (release_unmoved (hrest.orderly.turn (some y) false) hfiled hrelease).1
      have hcharted₁ := hcharted.continues hrest.orderly.slots_le hext₁
      obtain ⟨hasks, hend⟩ := restoreRequests_asks hg htrees hserving hfiled₁ hcharted₁
        fun q hq => hslips q (Or.inl hq)
      rintro q (hq | hq)
      · exact (hasks q hq).after hext₁
      · cases hcarry : carryRestores g y 0 (s₁.notes.tree y).restores s₁ with
        | error fault s₂ =>
            simp only [hcarry] at hq
            cases hq
        | ok value s₂ =>
            obtain ⟨⟨back, hserving₂⟩, hfiled₂, hext₂⟩ := hend s₂ hcarry
            simp only [hcarry, hreuse, if_true] at hq
            cases hyield : release y { s₂ with reuse := true } with
            | error fault s₃ =>
                simp only [hyield] at hq
                cases hq
            | ok value s₃ =>
                simp only [hyield] at hq
                have hplacing₂ := hserving₂.placing.turn true
                have hmove₃ : Move g y .preparing { s₂ with reuse := true } s₃ :=
                  release_move hyield
                have hturn₂ : s₂.Extends { s₂ with reuse := true } := .of_notes_eq rfl rfl rfl rfl
                have hext₃ := (hturn₂.trans hmove₃.extends).toContinues
                have hext := hext₁.trans (hext₂.trans hext₃)
                have hfiled₃ := (release_unmoved hplacing₂.orderly hfiled₂ hyield).1
                refine (placeRequests_asks htrees (hplacing₂.release hg htrees hyield) ?_ hfiled₃
                  (hcharted.continues hrest.orderly.slots_le hext) ?_
                  (hplacing₂.later htrees rfl hyield) q hq).after hext
                · intro u hu
                  exact hmove₃.reg_nonneg hplacing₂.orderly (hserving₂.subtrees_reg u hu)
                · rw [hext.slots_eq]
                  exact hnamed

end Requests
end Alloc

/-! ## The scan of a program -/

open Alloc

/-- In a program whose trees are reached once each and name variables that there are, the scan
lacks a victim exactly when some result asks for a register while the registers are crowded. -/
theorem Program.scan_lacksVictim_iff {p : Program} {settings : Settings} {m : Imported}
    (h : p.import? = .ok m) (honce : ((m.ir.trees m.graph).map Tree.id).Nodup)
    (hnamed : m.graph.NamesVariables p.locals.toNat) (hsize : 2 ≤ settings.registers)
    (hreuse : settings.reuse = true) (hslips : ∀ v ∈ p.visits settings, ¬ v.Slips m.graph) :
    LacksVictim (scan m.graph m.ir)
        (Allocator.create m.notes settings.registers settings.reuse) ↔
      ∃ v ∈ p.visits settings, ∃ q ∈ v.requests m.graph, Crowded m.graph v.tree q := by
  obtain ⟨⟨pending, hg⟩, hfresh, hfirst⟩ := Program.import?_formed h
  -- In each visit, the requests that find no room are those for which the registers are crowded.
  have hunmet : ∀ v ∈ p.visits settings, ∀ q ∈ v.requests m.graph,
      (Unmet v.tree q ↔ Crowded m.graph v.tree q) := by
    intro v hv q hq
    obtain ⟨s₀, past, before, hsurvey, hbegun⟩ :=
      Program.visits_begun h honce (N := True) (fun _ => hslips) v hv
    obtain ⟨hhas, hlisted⟩ := survey_hasScanned hfresh hsurvey
    obtain ⟨hcharted, hnamed₀⟩ := Program.survey_charted h hnamed hsurvey
    obtain ⟨future, htrees⟩ := hbegun.trees
    obtain ⟨hasking, hwanted, hext⟩ := requests_asks hg htrees hbegun.rested hbegun.subtrees_reg
      (hbegun.filed trivial) (hcharted.continues hhas.orderly.slots_le hbegun.continues)
      (hbegun.continues.slots_eq ▸ hnamed₀)
      (hbegun.reuse_eq.trans (hlisted.reuse_eq.trans hreuse))
      (fun q hq hslip => hslips v hv ⟨q, hq, hslip⟩) q hq
    refine hasking.unmet_iff hg htrees ?_ hwanted
    rw [hext.size_eq, hbegun.continues.size_eq, hlisted.registers_eq]
    simp only [Allocator.create, List.length_replicate]
    omega
  rw [Alloc.scan_lacksVictim_iff]
  simp only [Program.visits, h] at hunmet ⊢
  constructor
  · rintro ⟨s₁, hsurvey, v, hv, q, hq, hroom⟩
    rw [hsurvey] at hunmet ⊢
    exact ⟨v, hv, q, hq, (hunmet v hv q hq).mp hroom⟩
  · rintro ⟨v, hv, q, hq, hcrowded⟩
    have hroom := (hunmet v hv q hq).mpr hcrowded
    split at hv
    · next s₀ hsurvey => exact ⟨s₀, hsurvey, v, hv, q, hq, hroom⟩
    · cases hv

/-- Let a program without jumps, all of whose loads and stores name variables it has, be scanned
with at least two registers, where results may go into the registers of operands.  As long as
each activation fills the register that it notes, the scan stops for want of an interval to
spill if and only if some result, which is the left operand of an operation, asks for a register
while every register is occupied by a variable that is read next within the right operand. -/
theorem Program.compile_noVictim_iff (p : Program) (settings : Settings) (c : Compiled)
    (hp : p.JumpFree) (hrange : ∀ instr ∈ p.instrs, instr.inRange p.locals = true)
    (hsize : 2 ≤ settings.registers) (hreuse : settings.reuse = true)
    (h : p.compile settings = .ok c) (hslips : ∀ v ∈ p.visits settings, ¬ v.Slips c.graph) :
    (∃ pos registers active, c.fault = some (.noVictim pos registers active)) ↔
      ∃ v ∈ p.visits settings, ∃ q ∈ v.requests c.graph, Crowded c.graph v.tree q := by
  obtain ⟨m, himport, hgraph, -⟩ := Program.compile_imported h
  rw [hgraph] at hslips ⊢
  rw [← Program.scan_lacksVictim_iff himport (hp.ids_nodup himport)
    (Program.import?_namesVariables hrange himport) hsize hreuse hslips]
  constructor
  · rintro ⟨pos, registers, active, hfault⟩
    obtain ⟨s, hs⟩ := (Program.compile_fault_iff himport).mp ⟨c, h, hfault⟩
    exact ⟨pos, registers, active, s, hs⟩
  · rintro ⟨pos, registers, active, s, hs⟩
    obtain ⟨c', hc', hfault⟩ := (Program.compile_fault_iff himport).mpr ⟨s, hs⟩
    rw [h] at hc'
    obtain rfl := Except.ok.inj hc'
    exact ⟨pos, registers, active, hfault⟩

/-- Three variables are read one after the other, and then again in the right operand of a sum
whose left operand is a constant. -/
def Samples.readAgain : Program where
  locals := 3
  instrs := [instr .ldLocal [0], instr .pop, instr .ldLocal [1], instr .pop, instr .ldLocal [2],
    instr .pop, instr .push [5], instr .ldLocal [0], instr .ldLocal [1], instr (.binary .add),
    instr .ldLocal [2], instr (.binary .add), instr (.binary .add), instr .ret]

/-- With three registers, the constant finds them full of the variables. -/
theorem Program.compile_noVictim_readAgain :
    ∃ c, Samples.readAgain.compile { registers := 3 } = .ok c ∧ Samples.readAgain.JumpFree ∧
      (∀ instr ∈ Samples.readAgain.instrs, instr.inRange Samples.readAgain.locals = true) ∧
      (∀ v ∈ Samples.readAgain.visits { registers := 3 }, ¬ v.Slips c.graph) ∧
      ∃ v ∈ Samples.readAgain.visits { registers := 3 }, ∃ q ∈ v.requests c.graph,
        Crowded c.graph v.tree q := by
  obtain ⟨c, hc, hslips, hfault⟩ : ∃ c, Samples.readAgain.compile { registers := 3 } = .ok c ∧
      (∀ v ∈ Samples.readAgain.visits { registers := 3 }, ¬ v.Slips c.graph) ∧
      c.fault = some (.noVictim 6 ["local 0", "local 1", "local 2"]
        ["local 0", "local 1", "local 2"]) := by
    decide +kernel
  have hjumps : Samples.readAgain.JumpFree := by decide +kernel
  have hrange : ∀ instr ∈ Samples.readAgain.instrs,
      instr.inRange Samples.readAgain.locals = true := by decide +kernel
  exact ⟨c, hc, hjumps, hrange, hslips, (Program.compile_noVictim_iff _ _ c hjumps hrange
    (by decide) rfl hc hslips).mp ⟨_, _, _, hfault⟩⟩

/-- Three registers do not suffice for every program without jumps. -/
theorem Program.compile_fault_readAgain :
    ∃ c, Samples.readAgain.compile { registers := 3 } = .ok c ∧ Samples.readAgain.JumpFree ∧
      (∀ instr ∈ Samples.readAgain.instrs, instr.inRange Samples.readAgain.locals = true) ∧
      c.fault.map Fault.message = some "No intervals elligible for spilling at 6" := by
  decide +kernel

end LinearScan
