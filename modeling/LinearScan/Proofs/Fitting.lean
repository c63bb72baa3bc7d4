import LinearScan.Proofs.Expressions
import LinearScan.Proofs.Flat

/-!
# Expressions that fit into the registers

While an expression is scanned, the active intervals are the values that wait to be taken, and
they wait where the reader had them on its stack.  If there are registers for all of them, a new
value finds an empty register, so nothing is ever spilled, and each value stays in its register
until it is taken.  Where operands are not released before the result gets its register, they
wait a little longer, and the result takes another register than they.
-/

namespace LinearScan

open Allocator

/-! ## What waits -/

/-- The values of the trees `past` that other trees are still to take are those of `stack`. -/
def Graph.Waiting (g : Graph) (past stack : List Tree) : Prop :=
  ∀ u ∈ past, ∀ p, g.parent u = some p → p ∉ past → u ∈ stack

namespace Graph.Waiting

variable {g : Graph} {past stack : List Tree} {y : Tree}

section

variable (h : g.Waiting past (y.subtrees ++ stack))
include h

theorem take (hsubtrees : ∀ u ∈ y.subtrees, g.parent u = some y) {u p : Tree} (hu : u ∈ past)
    (hparent : g.parent u = some p) (hp : p ∉ past ++ [y]) : u ∈ stack := by
  rw [List.mem_append, List.mem_singleton, not_or] at hp
  rcases List.mem_append.mp (h u hu p hparent hp.1) with hu | hu
  · rw [hsubtrees u hu] at hparent
    exact absurd (Option.some.inj hparent).symm hp.2
  · exact hu

/-- A tree takes its operands, and its own value waits in their place. -/
theorem push (hsubtrees : ∀ u ∈ y.subtrees, g.parent u = some y) :
    g.Waiting (past ++ [y]) (y :: stack) := by
  intro u hu p hparent hp
  rcases List.mem_append.mp hu with hu | hu
  · exact List.mem_cons_of_mem _ (h.take hsubtrees hu hparent hp)
  · rw [List.mem_singleton.mp hu]
    exact List.mem_cons_self

/-- A statement takes its operands and has no value. -/
theorem finish (hsubtrees : ∀ u ∈ y.subtrees, g.parent u = some y) (hroot : g.parent y = none) :
    g.Waiting (past ++ [y]) stack := by
  intro u hu p hparent hp
  rcases List.mem_append.mp hu with hu | hu
  · exact h.take hsubtrees hu hparent hp
  · rw [List.mem_singleton.mp hu, hroot] at hparent
    cases hparent

end

end Graph.Waiting

namespace Notes

/-- Nothing is spilled or restored at any tree. -/
def Unspilled (n : Notes) : Prop :=
  ∀ t, (n.tree t).spills = [] ∧ (n.tree t).restores = []

/-- When `x` gets its register, the operands of `p` are still in theirs. -/
def Retains (n : Notes) (reuse : Bool) (x p : Tree) : Prop :=
  n.index x < n.index p ∨ reuse = false ∧ n.index x = n.index p

/-- No tree of `past` takes the register of a value that is still there. -/
def Apart (n : Notes) (g : Graph) (reuse : Bool) (past : List Tree) : Prop :=
  ∀ u ∈ past, ∀ x ∈ past, ∀ p, g.parent u = some p → x.kind.isValue = true →
    n.index u < n.index x → n.Retains reuse x p → n.reg x ≠ n.reg u

theorem Unspilled.congr {n n' : Notes} (h : n.Unspilled) (htree : ∀ t, n'.tree t = n.tree t) :
    n'.Unspilled := by
  intro t
  rw [htree]
  exact h t

/-- Where nothing is spilled no interval goes on a detour. -/
theorem Unspilled.detour_eq_none {n : Notes} (h : n.Unspilled) {i : IntervalId} {p : Tree}
    {out : Option Tree} (hdetour : n.Detour i p out) : out = none := by
  cases out with
  | none => rfl
  | some x =>
      have hone := (hdetour x).1
      rw [spillCount, (h x).1, if_pos rfl] at hone
      cases hone

section

variable {n n' : Notes} {g : Graph} {reuse : Bool} {past : List Tree} (h : n.Apart g reuse past)
include h

theorem Apart.congr (htree : ∀ t, n'.tree t = n.tree t) : n'.Apart g reuse past := by
  have hindex : ∀ t, n'.index t = n.index t := fun t => by rw [index, htree]; rfl
  have hreg : ∀ t, n'.reg t = n.reg t := fun t => by rw [reg, htree]; rfl
  intro u hu x hx p hparent hvalue hlt hretains
  rw [Retains, hindex, hindex] at hretains
  rw [hindex, hindex] at hlt
  rw [hreg, hreg]
  exact h u hu x hx p hparent hvalue hlt hretains

/-- One more tree is scanned, and if it has a value that does not take the register of a value that
is still there. -/
theorem Apart.concat {y : Tree} (hindex : ∀ x, n'.index x = n.index x)
    (hreg : ∀ x ∈ past, n'.reg x = n.reg x) (hlast : ∀ x ∈ past, n.index x < n.index y)
    (hnew : y.kind.isValue = true → ∀ u ∈ past, ∀ p, g.parent u = some p →
      n.Retains reuse y p → n'.reg y ≠ n.reg u) :
    n'.Apart g reuse (past ++ [y]) := by
  intro u hu x hx p hparent hvalue hlt hretains
  rw [Retains, hindex, hindex] at hretains
  rw [hindex, hindex] at hlt
  rcases List.mem_append.mp hu with hu | hu
  · rw [hreg u hu]
    rcases List.mem_append.mp hx with hx | hx
    · rw [hreg x hx]
      exact h u hu x hx p hparent hvalue hlt hretains
    · rw [List.mem_singleton.mp hx] at hvalue hretains ⊢
      exact hnew hvalue u hu p hparent hretains
  · rw [List.mem_singleton.mp hu] at hlt
    rcases List.mem_append.mp hx with hx | hx
    · exact absurd (hlast x hx) (Nat.lt_asymm hlt)
    · rw [List.mem_singleton.mp hx] at hlt
      exact absurd hlt (Nat.lt_irrefl _)

end

end Notes

/-- The value of `y`, which `p` is to take, comes into the register `k`. -/
def Allocator.seatResult (s : Allocator) (y p : Tree) (k : Nat) : Allocator :=
  { s with
    notes := Alloc.withReg ((s.notes.addInterval (Alloc.tempOf s.notes y p)).place
      s.notes.intervalCount (some (k : Int))) y s.notes.intervalCount
    registers := s.registers.set k (some s.notes.intervalCount)
    active := s.active ++ [s.notes.intervalCount] }

namespace Alloc

variable {g : Graph} {pending past future rest stack ts : List Tree} {t x y u p : Tree}
  {s s₁ s' : Allocator} {i j k size : Nat} {reuse : Bool}

section SeatResult

theorem active_seatResult :
    (s.seatResult y p k).active = s.active ++ [s.notes.intervalCount] := rfl

theorem reuse_seatResult : (s.seatResult y p k).reuse = s.reuse := by
  dsimp only [seatResult]

theorem reg_seatResult_self : (s.seatResult y p k).notes.reg y = k := by
  dsimp only [seatResult]
  exact reg_withReg (Notes.liveIn_place_self _ _ _)

theorem reg_seatResult_of_ne (hid : y.id ≠ x.id) :
    (s.seatResult y p k).notes.reg x = s.notes.reg x := by
  dsimp only [seatResult]
  rw [reg_withReg_of_ne hid, Notes.reg, Notes.tree_place, Notes.tree_addInterval, Notes.reg]

theorem interval_seatResult_self :
    ((s.seatResult y p k).interval s.notes.intervalCount).owner = .temp y ∧
      ((s.seatResult y p k).interval s.notes.intervalCount).liveIn = some (k : Int) := by
  dsimp only [Allocator.interval, seatResult]
  rw [interval_withReg, Notes.owner_place, Notes.interval_addInterval, if_pos rfl,
    Notes.liveIn_place_self]
  exact ⟨rfl, rfl⟩

theorem interval_seatResult_of_ne (hj : j ≠ s.notes.intervalCount) :
    (s.seatResult y p k).interval j = s.interval j := by
  dsimp only [Allocator.interval, seatResult]
  rw [interval_withReg, Notes.interval_place, if_neg (Ne.symm hj), Notes.interval_addInterval,
    if_neg (Ne.symm hj)]

theorem unspilled_seatResult (h : s.notes.Unspilled) : (s.seatResult y p k).notes.Unspilled := by
  intro x
  dsimp only [seatResult]
  rw [spills_withReg, restores_withReg, Notes.tree_place, Notes.tree_addInterval]
  exact h x

end SeatResult

/-! ## Empty registers -/

/-- If no register is empty, there are as many active intervals as registers. -/
theorem length_registers_le (hfiled : Filed s.registers s.active s.notes)
    (hfull : s.freeRegisters = []) : s.registers.length ≤ s.active.length := by
  have hsub : List.range s.registers.length ⊆
      s.active.map fun j => ((s.interval j).liveIn.getD 0).toNat := by
    intro k hk
    obtain ⟨j, hj, hoccupied⟩ := exists_occupant hfiled hfull (List.mem_range.mp hk)
    have hlive : (s.interval j).liveIn = some (k : Int) := ((hfiled k j).mp hoccupied).2
    refine List.mem_map.mpr ⟨j, hj, ?_⟩
    rw [hlive]
    rfl
  have hle := (List.nodup_range.subperm hsub).length_le
  rwa [List.length_range, List.length_map] at hle

/-- If all active intervals are temporaries of the trees `stack`, there are no more of them. -/
theorem length_active_le (hs : s.Orderly g) (htemps : s.Temporaries g past)
    (hstack : ∀ j ∈ s.active, ∃ u ∈ stack, (s.interval j).owner = .temp u) :
    s.active.length ≤ stack.length := by
  have hnodup : (s.active.map fun j => (s.interval j).owner).Nodup := by
    refine hs.active_nodup.map_on ?_
    intro i hi j hj heq
    obtain ⟨u, -, howner⟩ := hstack j hj
    exact htemps.owner_inj i j u (hs.active_lt i hi) (hs.active_lt j hj) (heq.trans howner) howner
  have hsub : (s.active.map fun j => (s.interval j).owner) ⊆ stack.map Owner.temp := by
    intro o ho
    obtain ⟨j, hj, rfl⟩ := List.mem_map.mp ho
    obtain ⟨u, hu, howner⟩ := hstack j hj
    exact List.mem_map.mpr ⟨u, hu, howner.symm⟩
  have hle := (hnodup.subperm hsub).length_le
  rwa [List.length_map, List.length_map] at hle

/-- The result of `t` goes into an empty register, if there is one. -/
theorem Activated.result_of_free (h : Activated g t i s s') (hlive : (s.interval i).liveIn = none)
    (hresult : (s.interval i).owner.isResultOf t = true) (hfree : s.freeRegisters ≠ [])
    (hslips : ¬ Slips t (s, i)) :
    ∃ k ∈ s.freeRegisters, s' = { s with
      notes := s.notes.place i (some (k : Int))
      registers := s.registers.set k (some i)
      active := s.active ++ [i] } := by
  cases h with
  | already reg hsome =>
      rw [hlive] at hsome
      cases hsome
  | free number filled n _ hchoose hreload _ =>
      have hnumber : number = filled := by
        by_contra hne
        exact hslips ⟨hlive, number, filled, hchoose, hne⟩
      rw [Reloaded, ← Allocator.interval, if_pos hresult] at hreload
      rw [hreload, ← hnumber]
      exact ⟨number, (mem_of_choose hchoose).1, rfl⟩
  | evicted use v reg k s₁ _ hchoose => exact absurd (choose_eq_none_iff.mp hchoose) hfree

/-! ## The scan -/

theorem scanTrees_append (h : scanTrees g ts s = .ok () s₁) (us : List Tree) :
    scanTrees g (ts ++ us) s = scanTrees g us s₁ := by
  induction ts generalizing s with
  | nil =>
      obtain ⟨-, rfl⟩ := pure_cases h
      rfl
  | cons t ts ih =>
      obtain ⟨⟨⟩, s₂, hfirst, hrest⟩ := exists_of_bind_apply_eq_ok h
      rw [List.cons_append, scanTrees, bind_apply_of_ok hfirst]
      exact ih hrest

theorem scanTrees_singleton (h : scanTree g t s = .ok () s') : scanTrees g [t] s = .ok () s' :=
  bind_apply_of_ok h

/-- The trees `past` have been scanned and nothing was spilled. -/
structure Computed (g : Graph) (size : Nat) (reuse : Bool) (past : List Tree) (s : Allocator) :
    Prop where
  rested : Rested g past s
  size_eq : s.registers.length = size
  reuse_eq : s.reuse = reuse
  unspilled : s.notes.Unspilled
  apart : s.notes.Apart g reuse past
  assigned : ∀ u ∈ past, u.kind.isValue = true → 0 ≤ s.notes.reg u
  reg_eq : ∀ u ∈ g.treesFrom 0, u ∉ past → s.notes.reg u = -1

theorem Computed.congr (h : Computed g size reuse past s) (hrested : Rested g past s')
    (hsize : s'.registers.length = s.registers.length) (hreuse : s'.reuse = s.reuse)
    (htree : ∀ x, s'.notes.tree x = s.notes.tree x) : Computed g size reuse past s' := by
  have hreg : ∀ u, s'.notes.reg u = s.notes.reg u := fun u => by rw [Notes.reg, htree]; rfl
  exact
    { rested := hrested
      size_eq := hsize.trans h.size_eq
      reuse_eq := hreuse.trans h.reuse_eq
      unspilled := h.unspilled.congr htree
      apart := h.apart.congr htree
      assigned := by
        intro u hu hvalue
        rw [hreg]
        exact h.assigned u hu hvalue
      reg_eq := by
        intro u hu hnot
        rw [hreg]
        exact h.reg_eq u hu hnot }

/-- The trees `past` have been scanned, and the active intervals are values that are still where
they were produced. -/
structure Computing (g : Graph) (size : Nat) (reuse : Bool) (past : List Tree) (s : Allocator) :
    Prop extends Computed g size reuse past s where
  filed : Filed s.registers s.active s.notes
  home : ∀ j ∈ s.active, ∃ u, (s.interval j).owner = .temp u ∧
    (s.interval j).liveIn = some (s.notes.reg u)

namespace Computing

section Step

variable (hg : g.Formed pending) (htrees : g.treesFrom 0 = past ++ y :: future)
  (h : Computing g size reuse past s)
include hg htrees h

theorem operand_reg : ∀ u ∈ y.subtrees, 0 ≤ s.notes.reg u := by
  intro u hu
  have hy : y ∈ g.treesFrom 0 := by simp [htrees]
  obtain ⟨b, -, hyb⟩ := List.mem_flatMap.mp hy
  exact h.assigned u (subtree_mem_past hg h.rested.sorted htrees hu).1 (hg.subtree_isValue hyb hu)

theorem exists_prepared : ∃ s₁, Prepared g past y s s₁ :=
  Alloc.exists_prepared hg htrees h.rested h.filed (h.operand_reg hg htrees) (h.unspilled y).2

variable (hprepared : Prepared g past y s s₁)
include hprepared

omit hg htrees in
theorem home_of_prepared (hj : j ∈ s₁.active) :
    ∃ u, (s₁.interval j).owner = .temp u ∧ (s₁.interval j).liveIn = some (s.notes.reg u) := by
  have hunmoved := hprepared.unmoved j hj
  obtain ⟨u, howner, hlive⟩ := h.home j hunmoved.active
  exact ⟨u, hunmoved.owner_eq.trans howner, hunmoved.liveIn_eq.trans hlive⟩

section

variable (hkind : u.kind ≠ .ldLocal) (hu : u ∈ past) (hparent : g.parent u = some p)
  (hretains : s.notes.Retains reuse y p)
include hkind hu hparent hretains

/-- A value that is to be taken later is in the register in which it was produced. -/
theorem exists_home : ∃ j ∈ s₁.active, (s₁.interval j).liveIn = some (s.notes.reg u) := by
  have hu' := Graph.mem_treesFrom_of_past htrees hu
  obtain ⟨b, -, hub⟩ := List.mem_flatMap.mp hu'
  obtain ⟨j, hj, howner⟩ := hprepared.placing.temps.created u hu
    (const_or_binOp (hg.isValue_of_parent hub hparent) hkind)
  have hactive : j ∈ s₁.active := by
    rcases hretains with hlt | ⟨hreuse, heq⟩
    · obtain ⟨out, hdetour, -, hplace⟩ := hprepared.placing.kept j u p hj howner hparent
      have hout := (h.unspilled.congr hprepared.tree_eq).detour_eq_none hdetour
      have hp : p ∉ past ++ [y] := by
        rw [List.mem_append, List.mem_singleton, not_or]
        constructor
        · exact fun hp => Nat.lt_asymm hlt (h.rested.sorted.lt_of_mem_past htrees hp)
        · rintro rfl
          exact Nat.lt_irrefl _ hlt
      simpa [hout] using hplace hp
    · have hp := (h.rested.sorted.parent_spec hg hu' hparent).1
      obtain rfl := h.rested.sorted.eq_of_index_eq htrees hp heq.symm
      exact hprepared.operands (h.reuse_eq.trans hreuse) j u hj howner hparent
  obtain ⟨v, hv, hlive⟩ := h.home_of_prepared hprepared hactive
  rw [howner] at hv
  injection hv with hv
  subst hv
  exact ⟨j, hactive, hlive⟩

/-- The register of a value that is to be taken later is not empty. -/
theorem reg_ne_of_mem_free (hk : k ∈ s₁.freeRegisters) : s.notes.reg u ≠ (k : Nat) := by
  intro hreg
  obtain ⟨j, hj, hlive⟩ := h.exists_home hg htrees hprepared hkind hu hparent hretains
  rw [hreg] at hlive
  have hoccupied := (hprepared.filed k j).mpr ⟨hj, hlive⟩
  rw [mem_freeRegisters.mp hk] at hoccupied
  cases hoccupied

end

/-- There is an empty register if what waits leaves one. -/
theorem free_ne_nil (hwaiting : g.Waiting past (y.subtrees ++ stack))
    (hroom : stack.length + (if reuse then 0 else y.subtrees.length) < size) :
    s₁.freeRegisters ≠ [] := by
  intro hfull
  have hle := length_registers_le hprepared.filed hfull
  rw [hprepared.continues.size_eq, h.size_eq] at hle
  have hsubtrees := fun u hu => (subtree_mem_past hg h.rested.sorted htrees (u := u) hu).2
  have hs₁ := hprepared.placing
  -- Where the tree that takes an active interval comes.
  have howned : ∀ j ∈ s₁.active, ∃ u p, (s₁.interval j).owner = .temp u ∧ u ∈ past ∧
      g.parent u = some p ∧ s₁.notes.index y ≤ s₁.notes.index p := by
    intro j hj
    have hlt := hs₁.orderly.active_lt j hj
    obtain ⟨u, howner, -⟩ := h.home_of_prepared hprepared hj
    obtain ⟨p, hparent, -, -⟩ := temp_spec hs₁.orderly.toOwned hlt howner
    exact ⟨u, p, howner, hs₁.temps.owner_mem j u hlt howner, hparent,
      hs₁.current j hj u p howner hparent⟩
  cases reuse with
  | true =>
      have hactive : s₁.active.length ≤ stack.length := by
        refine length_active_le hs₁.orderly hs₁.temps fun j hj => ?_
        obtain ⟨u, p, howner, hu, hparent, -⟩ := howned j hj
        have hlt := hprepared.later h.reuse_eq j hj u p howner hparent
        refine ⟨u, hwaiting.take hsubtrees hu hparent ?_, howner⟩
        rw [List.mem_append, List.mem_singleton, not_or]
        constructor
        · exact fun hp => Nat.lt_asymm hlt (hs₁.sorted.lt_of_mem_past htrees hp)
        · rintro rfl
          exact Nat.lt_irrefl _ hlt
      simp only [if_true] at hroom
      omega
  | false =>
      have hactive : s₁.active.length ≤ (y.subtrees ++ stack).length := by
        refine length_active_le hs₁.orderly hs₁.temps fun j hj => ?_
        obtain ⟨u, p, howner, hu, hparent, hge⟩ := howned j hj
        refine ⟨u, hwaiting u hu p hparent fun hp => ?_, howner⟩
        exact Nat.not_lt_of_le hge (hs₁.sorted.lt_of_mem_past htrees hp)
      rw [List.length_append] at hactive
      simp only [Bool.false_eq_true, if_false] at hroom
      omega

/-- The operands of the tree that takes the value next are in no empty register. -/
theorem reg_ne_of_free (hloads : ∀ t ∈ g.treesFrom 0, t.kind ≠ .ldLocal)
    (hparent : g.parent y = some p) {k : Nat} (hk : k ∈ s₁.freeRegisters) :
    ∀ v ∈ p.subtrees, s₁.notes.reg v ≠ (k : Nat) := by
  intro v hv hreg
  rw [hprepared.reg_eq] at hreg
  have hy : y ∈ g.treesFrom 0 := by simp [htrees]
  obtain ⟨hp, -, hlt⟩ := h.rested.sorted.parent_spec hg hy hparent
  obtain ⟨c, hc, hpc⟩ := List.mem_flatMap.mp hp
  obtain ⟨before, after, hsplit⟩ := List.append_of_mem hpc
  have hvc : v ∈ g.treesOf c := by
    rw [hsplit]
    exact List.mem_append_left _ (hg.subtree_mem_before hsplit hv)
  have hv' : v ∈ g.treesFrom 0 := List.mem_flatMap.mpr ⟨c, hc, hvc⟩
  by_cases hpast : v ∈ past
  · have hparent' := hg.planted.parent_subtree p (hg.mem_allTrees hpc) v hv
    exact h.reg_ne_of_mem_free hg htrees hprepared (hloads v hv') hpast hparent' (Or.inl hlt) hk
      hreg
  · rw [h.reg_eq v hv' hpast] at hreg
    omega

/-- A value finds an empty register. -/
theorem exists_seat (hloads : ∀ t ∈ g.treesFrom 0, t.kind ≠ .ldLocal)
    (hvalue : y.kind.isValue = true) (hfree : s₁.freeRegisters ≠ []) :
    ∃ k ∈ s₁.freeRegisters, ∃ p, scanTree g y s = .ok () (s₁.seatResult y p k) ∧
      Filed (s₁.seatResult y p k).registers (s₁.seatResult y p k).active
        (s₁.seatResult y p k).notes := by
  have hy : y ∈ g.treesFrom 0 := by simp [htrees]
  have hload := hloads y hy
  have hstore : y.kind ≠ .stLocal := by
    intro heq
    rw [heq] at hvalue
    cases hvalue
  obtain ⟨b, -, hyb⟩ := List.mem_flatMap.mp hy
  obtain ⟨p, -, -, hparent⟩ := hg.exists_parent hyb hvalue
  -- The interval of the value.
  have hnew := s₁.notes.interval_addInterval_self (tempOf s₁.notes y p)
  have hmove : Move g y .placing s₁
      { s₁ with notes := s₁.notes.addInterval (tempOf s₁.notes y p) } :=
    .create p hparent hload hstore
  have hregs : ∀ u ∈ y.subtrees, 0 ≤ s₁.notes.reg u := by
    intro u hu
    rw [hprepared.reg_eq]
    exact h.operand_reg hg htrees u hu
  have horderly := hmove.orderly hprepared.placing.orderly hregs
  have hlt : s₁.notes.index y < s₁.notes.index p :=
    (hprepared.placing.sorted.parent_spec hg hy hparent).2.2
  have huse : (s₁.notes.addInterval (tempOf s₁.notes y p)).nextUse s₁.notes.intervalCount
      (s₁.notes.index y) = some p :=
    nextUse_temp horderly.toOwned (Nat.lt_succ_self _)
      (by rw [Allocator.interval, hnew]; rfl) hparent (Nat.le_of_lt hlt)
  have hresult : ((s₁.notes.addInterval (tempOf s₁.notes y p)).interval
      s₁.notes.intervalCount).owner.isResultOf y = true := by
    rw [hnew]
    simp [tempOf, Owner.isResultOf]
  have hslips : ¬ Slips y ({ s₁ with notes := s₁.notes.addInterval (tempOf s₁.notes y p) },
      s₁.notes.intervalCount) :=
    not_slips huse fun v hv k hk => h.reg_ne_of_free hg htrees hprepared hloads hparent hk v hv
  obtain ⟨⟨⟩, s', hscan⟩ := returns_scanTemp
    (returns_activate_of_free (g := g) hfree huse (Or.inl hresult))
  obtain ⟨s₂, hactivated, rfl⟩ := scanTemp_cases hscan
  have hcreated : Filed s₁.registers s₁.active (s₁.notes.addInterval (tempOf s₁.notes y p)) := by
    refine hprepared.filed.congr (fun _ => rfl) (fun _ => Iff.rfl) ?_
    intro j hj
    rw [Notes.interval_addInterval,
      if_neg (Nat.ne_of_gt (hprepared.placing.orderly.active_lt j hj))]
  have hfiled : Filed s₂.registers s₂.active (withReg s₂.notes y s₁.notes.intervalCount) :=
    Filed.withReg (hactivated.filed horderly hslips hcreated)
  obtain ⟨k, hk, hs₂⟩ := hactivated.result_of_free (by rw [Allocator.interval, hnew]; rfl) hresult
    hfree hslips
  refine ⟨k, hk, p, ?_, ?_⟩
  · rw [hprepared.scan_eq, place_of_parent hload hstore hparent, hscan, hs₂]
    dsimp only [seatResult]
  · rw [hs₂] at hfiled
    dsimp only [seatResult] at hfiled ⊢
    exact hfiled

omit hprepared in
/-- A value is computed, and waits in the place of its operands. -/
theorem step_value (hloads : ∀ t ∈ g.treesFrom 0, t.kind ≠ .ldLocal)
    (hvalue : y.kind.isValue = true) (hwaiting : g.Waiting past (y.subtrees ++ stack))
    (hroom : stack.length + (if reuse then 0 else y.subtrees.length) < size) :
    ∃ s', scanTree g y s = .ok () s' ∧ Computing g size reuse (past ++ [y]) s' := by
  obtain ⟨s₁, hprepared⟩ := h.exists_prepared hg htrees
  have hfree := h.free_ne_nil hg htrees hprepared hwaiting hroom
  obtain ⟨k, hk, p, hscan, hfiled⟩ := h.exists_seat hg htrees hprepared hloads hvalue hfree
  have hself : (s₁.seatResult y p k).notes.reg y = k := reg_seatResult_self
  have hother : ∀ x ∈ g.treesFrom 0, x ≠ y →
      (s₁.seatResult y p k).notes.reg x = s.notes.reg x := by
    intro x hx hne
    rw [reg_seatResult_of_ne, hprepared.reg_eq]
    refine id_ne_of_index_ne (n := s.notes) ?_
    exact fun heq => hne (h.rested.sorted.eq_of_index_eq htrees hx heq.symm)
  have hindex : ∀ x, (s₁.seatResult y p k).notes.index x = s.notes.index x :=
    fun x => (scanTree_moves hg.twins_eq hscan).extends.index_eq x
  have hmem : ∀ x ∈ past, x ∈ g.treesFrom 0 ∧ x ≠ y := by
    intro x hx
    refine ⟨htrees ▸ List.mem_append_left _ hx, ?_⟩
    rintro rfl
    exact not_mem_past h.rested.sorted htrees hx
  refine ⟨_, hscan, ?_⟩
  exact
    { rested := (scanTree_rested hg htrees h.rested (h.operand_reg hg htrees) hscan).1
      size_eq := by
        rw [seatResult, List.length_set, hprepared.continues.size_eq]
        exact h.size_eq
      reuse_eq := by
        rw [reuse_seatResult, hprepared.reuse_eq]
        exact h.reuse_eq
      unspilled := unspilled_seatResult (h.unspilled.congr hprepared.tree_eq)
      apart := by
        refine h.apart.concat hindex (fun x hx => hother x (hmem x hx).1 (hmem x hx).2)
          (fun x hx => h.rested.sorted.lt_of_mem_past htrees hx) ?_
        intro _ u hu q hparent hretains
        rw [hself]
        exact (h.reg_ne_of_mem_free hg htrees hprepared (hloads u (hmem u hu).1) hu hparent
          hretains hk).symm
      assigned := by
        intro u hu huvalue
        rcases List.mem_append.mp hu with hu | hu
        · rw [hother u (hmem u hu).1 (hmem u hu).2]
          exact h.assigned u hu huvalue
        · rw [List.mem_singleton.mp hu, hself]
          exact Int.natCast_nonneg k
      reg_eq := by
        intro u hu hnot
        rw [List.mem_append, List.mem_singleton, not_or] at hnot
        rw [hother u hu hnot.2]
        exact h.reg_eq u hu hnot.1
      filed := hfiled
      home := by
        intro j hj
        rw [active_seatResult] at hj
        rcases List.mem_append.mp hj with hj | hj
        · have hlt := hprepared.placing.orderly.active_lt j hj
          obtain ⟨u, howner, hlive⟩ := h.home_of_prepared hprepared hj
          obtain ⟨hu, huy⟩ := hmem u (hprepared.placing.temps.owner_mem j u hlt howner)
          refine ⟨u, ?_⟩
          rw [interval_seatResult_of_ne (Nat.ne_of_lt hlt), hother u hu huy]
          exact ⟨howner, hlive⟩
        · obtain rfl := List.mem_singleton.mp hj
          refine ⟨y, ?_⟩
          rw [hself]
          exact interval_seatResult_self }

omit hprepared in
/-- A statement takes its operand. -/
theorem step_root (hroot : g.parent y = none) (hvalue : y.kind.isValue = false)
    (hstore : y.kind ≠ .stLocal) :
    ∃ s', scanTree g y s = .ok () s' ∧ Computing g size reuse (past ++ [y]) s' := by
  obtain ⟨s₁, hprepared⟩ := h.exists_prepared hg htrees
  have hload : y.kind ≠ .ldLocal := by
    intro heq
    rw [heq] at hvalue
    cases hvalue
  have hscan : scanTree g y s = .ok () s₁ := by
    rw [hprepared.scan_eq, place_of_root hload hstore hroot]
    rfl
  refine ⟨s₁, hscan, ?_⟩
  exact
    { rested := (scanTree_rested hg htrees h.rested (h.operand_reg hg htrees) hscan).1
      size_eq := hprepared.continues.size_eq.trans h.size_eq
      reuse_eq := hprepared.reuse_eq.trans h.reuse_eq
      unspilled := h.unspilled.congr hprepared.tree_eq
      apart := by
        refine h.apart.concat hprepared.continues.index_eq (fun x _ => hprepared.reg_eq x)
          (fun x hx => h.rested.sorted.lt_of_mem_past htrees hx) fun hyvalue => ?_
        rw [hvalue] at hyvalue
        cases hyvalue
      assigned := by
        intro u hu huvalue
        rcases List.mem_append.mp hu with hu | hu
        · rw [hprepared.reg_eq]
          exact h.assigned u hu huvalue
        · rw [List.mem_singleton.mp hu, hvalue] at huvalue
          cases huvalue
      reg_eq := by
        intro u hu hnot
        rw [hprepared.reg_eq]
        exact h.reg_eq u hu fun hpast => hnot (List.mem_append_left _ hpast)
      filed := hprepared.filed
      home := by
        intro j hj
        obtain ⟨u, howner, hlive⟩ := h.home_of_prepared hprepared hj
        exact ⟨u, howner, by rw [hlive, hprepared.reg_eq]⟩ }

end Step

section Run

variable (hg : g.Formed pending) (hloads : ∀ t ∈ g.treesFrom 0, t.kind ≠ .ldLocal)
include hg hloads

/-- An expression is computed, and its value waits on top of what waited before. -/
theorem expression {n : Nat} (hneeds : t.Needs n)
    (htrees : g.treesFrom 0 = past ++ (t.postorder ++ rest)) (h : Computing g size reuse past s)
    (hwaiting : g.Waiting past stack)
    (hroom : stack.length + n + (if reuse then 0 else 1) ≤ size) :
    ∃ s', scanTrees g t.postorder s = .ok () s' ∧
      Computing g size reuse (past ++ t.postorder) s' ∧
      g.Waiting (past ++ t.postorder) (t :: stack) := by
  induction hneeds generalizing past rest stack s with
  | const id operands block =>
      rw [Tree.postorder_eq] at htrees ⊢
      have hsubtrees := fun u hu => (subtree_mem_past hg h.rested.sorted htrees (u := u) hu).2
      obtain ⟨s', hscan, h'⟩ := h.step_value hg htrees hloads rfl hwaiting (by
        simp only [Tree.subtrees, List.length_nil, ite_self]
        omega)
      exact ⟨s', scanTrees_singleton hscan, h', hwaiting.push hsubtrees⟩
  | @binOp id op block a b m n ha hb iha ihb =>
      rw [Tree.postorder_eq] at htrees ⊢
      simp only [Tree.subtrees, List.flatMap_cons, List.flatMap_nil, List.append_nil,
        List.append_assoc] at htrees ⊢
      -- The left operand waits while the right one is computed.
      obtain ⟨s₁, hleft, h₁, hwaiting₁⟩ := iha htrees h hwaiting (by omega)
      obtain ⟨s₂, hright, h₂, hwaiting₂⟩ := ihb (by rw [htrees, List.append_assoc]) h₁ hwaiting₁ (by
        rw [List.length_cons]
        omega)
      have htrees₂ : g.treesFrom 0 = (past ++ a.postorder ++ b.postorder) ++
          Tree.node id .binOp [.operator op] block [a, b] :: rest := by simp [htrees]
      have hsubtrees := fun u hu => (subtree_mem_past hg h₂.rested.sorted htrees₂ (u := u) hu).2
      have hwaiting₂' : g.Waiting (past ++ a.postorder ++ b.postorder)
          ([a, b] ++ stack) := fun u hu p hparent hp => by
        simpa [or_left_comm] using hwaiting₂ u hu p hparent hp
      have hpos := hb.pos
      obtain ⟨s₃, hscan, h₃⟩ := h₂.step_value hg htrees₂ hloads rfl hwaiting₂' (by
        simp only [Tree.subtrees, List.length_cons, List.length_nil]
        cases reuse <;> simp only [Bool.false_eq_true, if_true, if_false] at hroom ⊢ <;> omega)
      refine ⟨s₃, ?_, ?_, ?_⟩
      · rw [scanTrees_append hleft, scanTrees_append hright, scanTrees_singleton hscan]
      · simpa using h₃
      · simpa using hwaiting₂'.push hsubtrees

variable {d : Nat} (hroom : d + (if reuse then 0 else 1) ≤ size)
include hroom

/-- A statement is executed, and nothing waits any more. -/
theorem statement (hroot : t ∈ g.statementTrees) (hfits : t.FitsStatement d)
    (htrees : g.treesFrom 0 = past ++ (t.postorder ++ rest)) (h : Computing g size reuse past s)
    (hwaiting : g.Waiting past []) :
    ∃ s', scanTrees g t.postorder s = .ok () s' ∧
      Computing g size reuse (past ++ t.postorder) s' ∧ g.Waiting (past ++ t.postorder) [] := by
  obtain ⟨hkind, -, u, n, hsubtrees, hneeds, hn⟩ := hfits
  have hpostorder : t.postorder = u.postorder ++ [t] := by
    rw [Tree.postorder_eq, hsubtrees, List.flatMap_singleton]
  rw [hpostorder] at htrees ⊢
  rw [List.append_assoc] at htrees
  obtain ⟨s₁, hvalue, h₁, hwaiting₁⟩ :=
    h.expression hg hloads hneeds htrees hwaiting (by rw [List.length_nil]; omega)
  have htrees₁ : g.treesFrom 0 = (past ++ u.postorder) ++ t :: rest := by simp [htrees]
  have hparent := fun v hv => (subtree_mem_past hg h₁.rested.sorted htrees₁ (u := v) hv).2
  have hnone : g.parent t = none := hg.planted.parent_root t (List.mem_append_left _ hroot)
  obtain ⟨s₂, hscan, h₂⟩ := h₁.step_root hg htrees₁ hnone
    (by rcases hkind with hkind | hkind <;> rw [hkind] <;> rfl)
    (by rcases hkind with hkind | hkind <;> rw [hkind] <;> exact TreeKind.noConfusion)
  refine ⟨s₂, ?_, ?_, ?_⟩
  · rw [scanTrees_append hvalue, scanTrees_singleton hscan]
  · rwa [← List.append_assoc]
  · rw [← List.append_assoc]
    refine Graph.Waiting.finish (y := t) ?_ hparent hnone
    rwa [hsubtrees]

theorem statements {roots : List Tree}
    (hroots : ∀ t ∈ roots, t ∈ g.statementTrees ∧ t.FitsStatement d)
    (htrees : g.treesFrom 0 = past ++ (roots.flatMap Tree.postorder ++ rest))
    (h : Computing g size reuse past s) (hwaiting : g.Waiting past []) :
    ∃ s', scanTrees g (roots.flatMap Tree.postorder) s = .ok () s' ∧
      Computing g size reuse (past ++ roots.flatMap Tree.postorder) s' := by
  induction roots generalizing past s with
  | nil =>
      refine ⟨s, rfl, ?_⟩
      rwa [List.flatMap_nil, List.append_nil]
  | cons t roots ih =>
      rw [List.flatMap_cons, List.append_assoc] at htrees
      obtain ⟨hroot, hfits⟩ := hroots t List.mem_cons_self
      obtain ⟨s₁, hfirst, h₁, hwaiting₁⟩ := h.statement hg hloads hroom hroot hfits htrees hwaiting
      obtain ⟨s₂, hrest, h₂⟩ := ih (fun u hu => hroots u (List.mem_cons_of_mem _ hu))
        (by rw [htrees, List.append_assoc]) h₁ hwaiting₁
      refine ⟨s₂, ?_, ?_⟩
      · rw [List.flatMap_cons, scanTrees_append hfirst, hrest]
      · rwa [List.flatMap_cons, ← List.append_assoc]

end Run
end Computing

/-! ## Blocks -/

/-- A block without predecessors starts with empty registers. -/
theorem Computed.enter {s₀ : Allocator} {scanned : List BlockId} {b : BlockId}
    (hg : g.Formed pending) (hhas : HasScanned g s₀ scanned s)
    (h : Computed g size reuse (scanned.flatMap g.treesOf) s)
    (hpredecessors : (s.notes.block b).predecessors = []) :
    ∃ s', Alloc.enter b s = .ok () s' ∧
      Computing g size reuse (scanned.flatMap g.treesOf) s' := by
  obtain ⟨⟨⟩, s', henter⟩ := returns_enter hpredecessors
  have hrested := (enter_rested hg hhas h.rested henter).1
  have hsize := (enter_entered hhas.orderly (HasScanned.exits hhas) henter).continues.size_eq
  have htree := (enter_notes henter).2
  rcases enter_cases henter with ⟨-, hs'⟩ | ⟨crossings, s₁, hne, -⟩
  · have hreuse : s'.reuse = s.reuse := by rw [hs']; rfl
    refine ⟨s', henter, { h.congr hrested hsize hreuse htree with filed := ?_, home := ?_ }⟩
    · rw [hs']
      exact cleared_filed _
    · rw [hs']
      intro j hj
      cases hj
  · exact absurd hpredecessors hne

/-- At the end of a block nothing is noted at the trees. -/
theorem Computing.depart {b : BlockId} (h : Computing g size reuse past s)
    (htaken : ∀ u ∈ past, ∀ p, g.parent u = some p → p ∈ past) :
    ∃ s', Alloc.depart b s = .ok () s' ∧ Computed g size reuse past s' := by
  obtain ⟨⟨⟩, s', hdepart⟩ := returns_depart (b := b) h.rested.orderly
  obtain ⟨hcount, htree⟩ := depart_notes hdepart
  have hdeparted := depart_departed h.rested.orderly hdepart
  have hreuse : s'.reuse = s.reuse := by
    obtain ⟨kept, s₁, hsifted, rfl⟩ := depart_cases hdepart
    obtain ⟨registers, -, rfl⟩ := hsifted.state_eq
    rfl
  refine ⟨s', hdepart, h.toComputed.congr ?_ hdeparted.continues.size_eq hreuse htree⟩
  exact h.rested.boundary hdeparted.orderly hdeparted.continues hcount htree htaken

section Blocks

variable {s₀ : Allocator} {scanned bs : List BlockId} {b : BlockId} {d : Nat}
  (hg : g.Formed pending) (hloads : ∀ t ∈ g.treesFrom 0, t.kind ≠ .ldLocal)
  (hfits : ∀ t ∈ g.statementTrees, t.FitsStatement d)
  (hroom : d + (if reuse then 0 else 1) ≤ size)
  (hpredecessors : ∀ b, (s₀.notes.block b).predecessors = [])
include hg hloads hfits hroom hpredecessors

namespace Computed

theorem block (hsplit : g.blocksFrom 0 = scanned ++ b :: bs) (hhas : HasScanned g s₀ scanned s)
    (h : Computed g size reuse (scanned.flatMap g.treesOf) s) :
    ∃ s', scanBlock g b s = .ok () s' ∧
      Computed g size reuse ((scanned ++ [b]).flatMap g.treesOf) s' := by
  have hdone : (scanned ++ [b]).flatMap g.treesOf = scanned.flatMap g.treesOf ++ g.treesOf b := by
    simp
  have htrees := treesFrom_split hsplit
  have hwaiting : g.Waiting (scanned.flatMap g.treesOf) [] := fun u hu p hparent hp =>
    absurd (parent_mem_flatMap hg scanned u hu p hparent) hp
  have hroots : ∀ t ∈ g.rootsOf b, t ∈ g.statementTrees ∧ t.FitsStatement d := by
    intro t ht
    obtain ⟨r, hr, rfl⟩ := List.mem_map.mp ht
    have hroot := Graph.mem_statementTrees (hg.linked.lt_of_mem_stmtsOf hr)
    exact ⟨hroot, hfits _ hroot⟩
  obtain ⟨s₁, henter, h₁⟩ := h.enter (b := b) hg hhas
    (by rw [hhas.continues.predecessors_eq, hpredecessors])
  rw [treesOf_eq_flatMap_rootsOf] at htrees hdone
  obtain ⟨s₂, hscan, h₂⟩ := h₁.statements hg hloads hroom hroots htrees hwaiting
  rw [← hdone] at h₂
  obtain ⟨s₃, hdepart, h₃⟩ := h₂.depart (b := b) (parent_mem_flatMap hg _)
  refine ⟨s₃, ?_, h₃⟩
  rw [scanBlock, treesOf_eq_flatMap_rootsOf, bind_apply_of_ok henter, bind_apply_of_ok hscan,
    hdepart]

/-- All blocks are scanned, and nothing is spilled. -/
theorem blocks (hsplit : g.blocksFrom 0 = scanned ++ bs) (hhas : HasScanned g s₀ scanned s)
    (h : Computed g size reuse (scanned.flatMap g.treesOf) s) :
    ∃ s', scanBlocks g bs s = .ok () s' ∧ Computed g size reuse (g.treesFrom 0) s' := by
  induction bs generalizing scanned s with
  | nil =>
      refine ⟨s, rfl, ?_⟩
      rwa [Graph.treesFrom, hsplit, List.append_nil]
  | cons b bs ih =>
      have hb : b ∉ scanned := hg.not_mem_of_blocksFrom_eq hsplit
      obtain ⟨s₁, hfirst, h₁⟩ := h.block hg hloads hfits hroom hpredecessors hsplit hhas
      obtain ⟨s₂, hrest, h₂⟩ := ih (by simp [hsplit]) (scanBlock_hasScanned hg hhas hb hfirst) h₁
      exact ⟨s₂, (bind_apply_of_ok hfirst).trans hrest, h₂⟩

end Computed
end Blocks
end Alloc
end LinearScan
