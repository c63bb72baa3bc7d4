import LinearScan.Proofs.Progress
import LinearScan.Proofs.Stacking
import LinearScan.Proofs.Verdicts

/-!
# What is taken off the active list

An interval is taken off the active list by comparison with the intervals before it.  When every
tree is reached once, these comparisons are as good as identity: what is taken off is a local
variable or the first temporary of the list, so that all that stands before it is told apart by
its owner.  No two temporaries are compared, and so no comparison is circular.
-/

namespace LinearScan

open Allocator

/-! ## Comparisons that tell apart -/

section Comparisons

variable {g : Graph} {n : Notes} {i : IntervalId}

/-- An interval that is told apart from all that stand before it is taken off itself. -/
theorem removeAlike_of_apart {is : List IntervalId}
    (h : ∀ j ∈ is.takeWhile (· != i), alike g n (.interval j) (.interval i) = .ok false) :
    removeAlike g n i is = if i ∈ is then .ok (is.erase i) else .error .notListed := by
  induction is with
  | nil => rfl
  | cons j is ih =>
      rw [removeAlike]
      by_cases hji : j = i
      · subst hji
        rw [alike_self, List.erase_cons_head]
        simp [bind, Except.bind, pure, Except.pure]
      · have hwhile : (j :: is).takeWhile (· != i) = j :: is.takeWhile (· != i) := by
          simp [hji]
        rw [hwhile] at h
        rw [h j (by simp), ih fun k hk => h k (List.mem_cons_of_mem j hk),
          List.erase_cons_tail (by simpa using hji)]
        have hmem : i ∈ j :: is ↔ i ∈ is := by simp [Ne.symm hji]
        simp only [hmem]
        split <;> rfl

/-- A search among restores finds an interval itself, if it is told apart from those before. -/
theorem restoresAlike_of_apart {rs : List Restore}
    (h : ∀ r ∈ rs.takeWhile (·.interval != i),
      alike g n (.interval r.interval) (.interval i) = .ok false) :
    restoresAlike g n i rs = .ok (decide (i ∈ rs.map Restore.interval)) := by
  induction rs with
  | nil => rfl
  | cons r rs ih =>
      rw [restoresAlike]
      by_cases hri : r.interval = i
      · subst hri
        rw [alike_self]
        simp [bind, Except.bind, pure, Except.pure]
      · have hwhile : (r :: rs).takeWhile (·.interval != i) =
            r :: rs.takeWhile (·.interval != i) := by
          simp [hri]
        rw [hwhile] at h
        rw [h r (by simp), ih fun q hq => h q (List.mem_cons_of_mem r hq)]
        simp [bind, Except.bind, Ne.symm hri]

end Comparisons

/-! ## Where intervals are taken off -/

namespace Alloc

/-- The interval is taken off the active list itself, or the step stops since it is not there. -/
def TakesItself (g : Graph) (x : Allocator × IntervalId) : Prop :=
  removeAlike g x.1.notes x.2 x.1.active =
    if x.2 ∈ x.1.active then .ok (x.1.active.erase x.2) else .error .notListed

/-- The interval, unless it is the value of `t` itself, is looked for among the restores of `t`
and found exactly when it is restored there. -/
def FindsItself (g : Graph) (t : Tree) (x : Allocator × IntervalId) : Prop :=
  (x.1.interval x.2).owner.isResultOf t = false →
    restoresAlike g x.1.notes x.2 (x.1.notes.tree t).restores =
      .ok (decide (x.2 ∈ (x.1.notes.tree t).restores.map Restore.interval))

variable {α : Type} {g : Graph} {t : Tree} {i : IntervalId} {s : Allocator}

/-! ## Steps without circular comparisons

Every comparison of a scan is made at one of these places, or in the search among the restores
of a tree for what it asks for. -/

/-- From the state `s`, the step makes no circular comparison. -/
def Decides (x : Alloc α) (s : Allocator) : Prop :=
  ∀ s', x s ≠ .error .circular s'

theorem confined_iff_decides {x : Alloc α} :
    Confined (fun _ => False) (· ≠ .circular) x s ↔ Decides x s := by
  constructor
  · exact fun h s' hstop => h.cause hstop rfl
  · intro h _
    cases hx : x s with
    | ok a s' => nofun
    | error fault s' =>
        refine ⟨?_, nofun⟩
        rintro rfl
        exact h s' hx

theorem admits_ne_circular {C : Fault → Prop} : Fault.Admits (· ≠ .circular) C := by
  rintro fault - hplain rfl
  exact hplain

/-- What the tree `t` asks for comes into a register without a circular comparison. -/
structure Seats (g : Graph) (t : Tree) (x : Allocator × IntervalId) : Prop where
  finds : FindsItself g t x
  evicts : ∀ y ∈ evictRemovals t x, TakesItself g y

/-- The scan of a tree makes no circular comparison if intervals are taken off the list and
looked for themselves. -/
theorem scanTree_decides {v : Visit} (hremovals : ∀ y ∈ v.removals g, TakesItself g y)
    (hrequests : ∀ q ∈ v.requests g, FindsItself g v.tree q) :
    Decides (scanTree g v.tree) v.before := by
  refine confined_iff_decides.mp
    (confined_scanTree admits_ne_circular nofun ?_ ?_ fun _ _ _ => nofun)
  · intro y hy
    rw [Takes, hremovals y hy]
    split
    · exact missingFor_ok _
    · exact missingFor_error nofun
  · intro q hq hresult
    rw [hrequests q hq hresult]
    exact missingFor_ok _

theorem scan_decides {ir : Ir}
    (h : ∀ s₁, survey g ir s = .ok () s₁ → ∀ v ∈ visitBlocks g (ir.blocks g) s₁,
      Decides (scanTree g v.tree) v.before) : Decides (scan g ir) s :=
  confined_iff_decides.mp (confined_scan admits_ne_circular admits_ne_circular admits_ne_circular
    fun s₁ hsurvey v hv => confined_iff_decides.mpr (h s₁ hsurvey v hv))

/-! ## Intervals before which no temporary stands -/

variable {pending past before future : List Tree} {y : Tree} {s₀ s₁ s' : Allocator}

section

variable (hs : s.Orderly g) (hi : i < s.notes.intervalCount)
  (h : (s.interval i).owner.isTemp = true →
    ∀ j ∈ s.active.takeWhile (· != i), (s.interval j).owner.isTemp = false)
include hs hi h

/-- A variable is told apart from all other intervals, and so is the first temporary of the
active list from those before it. -/
theorem takesItself_of_first {n : Notes} (hn : ∀ j, (n.interval j).owner = (s.interval j).owner) :
    TakesItself g ({ s with notes := n }, i) := by
  refine removeAlike_of_apart fun j hj => ?_
  have hji : j ≠ i := by simpa using List.mem_takeWhile_imp hj
  have hjlt := hs.active_lt j ((List.takeWhile_sublist _).subset hj)
  refine alike_of_apart ?_
  rw [hn, hn]
  refine owner_apart hs.toOwned hjlt hi hji ?_
  cases htemp : (s.interval i).owner.isTemp with
  | false => exact Or.inr rfl
  | true => exact Or.inl (h htemp j hj)

theorem spillRemovals_takeItself : ∀ x ∈ spillRemovals t i s, TakesItself g x := by
  have hspill : ∀ reg use,
      TakesItself g ({ s with notes := spillNotes s.notes t i reg use }, i) := by
    intro reg use
    refine takesItself_of_first hs hi h fun j => ?_
    rw [interval_spillNotes, Notes.owner_place]
    rfl
  intro x hx
  rw [spillRemovals] at hx
  split at hx
  · cases hx
  · split at hx
    · split at hx
      · cases hx
      · rw [List.mem_singleton.mp hx]
        exact hspill _ _
    · rw [List.mem_singleton.mp hx]
      exact hspill _ _

end

/-- What makes room for another interval is a variable or the first temporary of the list. -/
theorem StackedAt.evictRemovals_takeItself (h : StackedAt g y s) :
    ∀ x ∈ evictRemovals y (s, i), TakesItself g x := by
  intro x hx
  simp only [evictRemovals] at hx
  split at hx
  · split at hx
    · cases hx
    · split at hx
      · cases hx
      · next use huse v hvictim =>
          refine spillRemovals_takeItself h.orderly
            (h.orderly.active_lt v (mem_active_of_victim hvictim)) ?_ x hx
          exact h.stacked.victim h.orderly h.awaited hvictim
  · cases hx

/-- If the temporaries that are active are in the register of the stored value, it is cleared. -/
theorem storeRemovals_takeItself (hs : s.Orderly g) (hstore : HoldsStored y s) :
    ∀ x ∈ storeRemovals y s, TakesItself g x := by
  intro x hx
  rw [storeRemovals] at hx
  split at hx
  · next i value rest hkind hslot hsubtrees =>
      split at hx
      · cases hx
      · split at hx
        · cases hx
        · next k hk =>
            split at hx
            · cases hx
            · next j hj =>
                have hj := Option.join_eq_some_iff.mp hj
                have hjlt := hs.occupied_lt k j hj
                have hfirst : (s.interval j).owner.isTemp = true →
                    ∀ m ∈ s.active.takeWhile (· != j), (s.interval m).owner.isTemp = false := by
                  intro _ m hm
                  by_contra htemp
                  have hmj : m ≠ j := by simpa using List.mem_takeWhile_imp hm
                  exact hmj (hstore hkind value rest k j m hsubtrees hk hj
                    ((List.takeWhile_sublist _).subset hm) (by simpa using htemp)).symm
                split at hx
                · rw [List.mem_singleton.mp hx]
                  exact takesItself_of_first hs hjlt hfirst fun _ => rfl
                · exact spillRemovals_takeItself hs hjlt hfirst x hx
  · cases hx

/-! ## The visits -/

namespace Begun

variable {v : Visit} {N : Prop}

/-- The release with which a visit opens returns, and leaves the temporaries in a stack.  No
spill is recorded at the tree then, and at most one restore. -/
theorem exists_release (hg : g.Formed pending) (h : Begun g s₀ N past before v) :
    ∃ s, release v.tree { v.before with tree := some v.tree, reuse := false } = .ok () s ∧
      StackedAt g v.tree s ∧ (s.notes.tree v.tree).spills = [] ∧
      ((s.notes.tree v.tree).restores = [] ∨ ∃ r, (s.notes.tree v.tree).restores = [r]) := by
  obtain ⟨future, htrees⟩ := h.trees
  obtain ⟨⟨⟩, s, hrelease⟩ := returns_release (t := v.tree)
    (h.rested.orderly.turn (some v.tree) false)
  have hstack := h.stacked.stacked _ fun z hz => h.rested.sorted.lt_of_mem_past htrees hz
  obtain ⟨hstackedAt, -, hnone, -, hcases⟩ :=
    release_stackedAt hg htrees h.rested h.subtrees_reg hstack hrelease
  refine ⟨s, hrelease, hstackedAt, hnone, hcases.imp_right ?_⟩
  rintro ⟨r, u, w, hone, -⟩
  exact ⟨r, hone⟩

/-- A restore that is recorded is the only one, so that it is found at once. -/
theorem recordedRequests_seat (hg : g.Formed pending) (h : Begun g s₀ N past before v) :
    ∀ q ∈ recordedRequests g v.tree { v.before with tree := some v.tree }, Seats g v.tree q := by
  obtain ⟨s, hrelease, hstackedAt, hnone, hcases⟩ := h.exists_release hg
  have hcarry : carrySpills g (s.notes.tree v.tree).spills s = .ok () s := by rw [hnone]; rfl
  intro q hq
  rw [recordedRequests, bind_apply_of_ok hrelease, bind_apply_of_ok (get_apply s), hcarry] at hq
  dsimp only at hq
  rcases hcases with hnil | ⟨r, hone⟩
  · rw [hnil] at hq
    cases hq
  · have hlast : ∀ s, restoreRequests g v.tree 1 [] s = [] := fun _ => rfl
    obtain rfl : q = (s, r.interval) := by
      rw [hone, restoreRequests] at hq
      split at hq
      · simpa [hlast] using hq
      · simpa using hq
    refine ⟨fun _ => restoresAlike_of_apart ?_, hstackedAt.evictRemovals_takeItself⟩
    simp [hone]

/-- The value of a tree itself is not looked for, and a variable is told apart from whatever is
restored. -/
theorem placeRequests_seat (hstackedAt : StackedAt g y s)
    (hregs : ∀ u ∈ y.subtrees, 0 ≤ s.notes.reg u) :
    ∀ q ∈ placeRequests g y s, Seats g y q := by
  intro q hq
  rw [placeRequests] at hq
  split at hq
  · split at hq
    · next i hslot =>
        obtain rfl := List.mem_singleton.mp hq
        have hi := hstackedAt.orderly.slotOf_lt hslot
        refine ⟨fun _ => restoresAlike_of_apart fun r hr => ?_, hstackedAt.evictRemovals_takeItself⟩
        have hri : r.interval ≠ i := by simpa using List.mem_takeWhile_imp hr
        refine alike_of_apart (owner_apart hstackedAt.orderly.toOwned ?_
          (Nat.lt_of_lt_of_le hi hstackedAt.orderly.slots_le) hri (Or.inr ?_))
        · exact hstackedAt.orderly.restore_lt y r ((List.takeWhile_sublist _).subset hr)
        · rw [hstackedAt.orderly.owner_slot i hi]
          rfl
    · cases hq
  · cases hq
  · next hload hstore =>
      split at hq
      · next p hparent =>
          obtain rfl := List.mem_singleton.mp hq
          refine ⟨fun hresult => ?_,
            (hstackedAt.create hregs hload hstore hparent).evictRemovals_takeItself⟩
          simp [Allocator.interval, Notes.interval_addInterval, tempOf, Owner.isResultOf] at hresult
      · cases hq

section

variable (hg : g.Formed pending) (h : Begun g s₀ N past before v)
include hg h

/-- The state in which the tree gets its register. -/
theorem prepared (hprepare : prepare g v.tree { v.before with tree := some v.tree } = .ok () s) :
    StackedAt g v.tree s ∧ (∀ u ∈ v.tree.subtrees, 0 ≤ s.notes.reg u) ∧
      ∀ x ∈ storeRemovals v.tree s, TakesItself g x := by
  obtain ⟨future, htrees⟩ := h.trees
  obtain ⟨b, -, -, after, hblock⟩ := h.block
  obtain ⟨s₁, s₂, s₃, hrelease, hspills, hrestores, hlast⟩ := prepare_cases hprepare
  have hrecover : recover g v.tree v.before = .ok () s₃ := by
    rw [recover, bind_apply_of_ok (modify_apply _ v.before), bind_apply_of_ok hrelease,
      bind_apply_of_ok (get_apply s₁), bind_apply_of_ok hspills, bind_apply_of_ok (get_apply s₂)]
    exact hrestores
  have hyield : (if v.before.reuse then release v.tree else pure ())
      { s₃ with reuse := v.before.reuse } = .ok () s := by
    split at hlast
    · next hreuse => rwa [if_pos hreuse]
    · next hreuse => rw [if_neg hreuse, hlast]; rfl
  obtain ⟨hstackedAt, hregs, hstore⟩ :=
    h.stacked.stackedAt_of_recover hg htrees hblock h.rested h.subtrees_reg hrecover hyield
  exact ⟨hstackedAt, hregs, storeRemovals_takeItself hstackedAt.orderly hstore⟩

/-- Whatever the visit asks for comes into a register by identity. -/
theorem requests_seat : ∀ q ∈ v.requests g, Seats g v.tree q := by
  intro q hq
  rcases List.mem_append.mp hq with hq | hq
  · exact h.recordedRequests_seat hg q hq
  · cases hprepare : prepare g v.tree { v.before with tree := some v.tree } with
    | error fault s =>
        rw [hprepare] at hq
        cases hq
    | ok value s =>
        rw [hprepare] at hq
        obtain ⟨hstackedAt, hregs, -⟩ := h.prepared hg hprepare
        exact placeRequests_seat hstackedAt hregs q hq

/-- Whatever the visit takes off the active list is taken off by identity. -/
theorem removals_takeItself : ∀ x ∈ v.removals g, TakesItself g x := by
  obtain ⟨s₁, hrelease, -, hnone, -⟩ := h.exists_release hg
  intro x hx
  rw [Visit.removals, hrelease] at hx
  rcases List.mem_append.mp hx with hx | hx
  · rcases List.mem_append.mp hx with hx | hx
    · dsimp only at hx
      rw [hnone] at hx
      cases hx
    · obtain ⟨q, hq, hx⟩ := List.mem_flatMap.mp hx
      exact (h.requests_seat hg q hq).evicts x hx
  · cases hprepare : prepare g v.tree { v.before with tree := some v.tree } with
    | error fault s =>
        rw [hprepare] at hx
        cases hx
    | ok value s =>
        rw [hprepare] at hx
        exact (h.prepared hg hprepare).2.2 x hx

end

end Begun
end Alloc

/-! ## Programs -/

/-- The place where the value of the interval `i` is taken, if it is a temporary. -/
def Allocator.takenAt (g : Graph) (s : Allocator) (i : IntervalId) : Option Nat :=
  match (s.interval i).owner with
  | .slot _ => none
  | .temp t => (g.parent t).map s.notes.index

/-- The later a temporary came, the earlier it is taken. -/
theorem Alloc.StackedAt.takenAt_pairwise {g : Graph} {y : Tree} {s : Allocator}
    (h : Alloc.StackedAt g y s) : (s.active.filterMap (s.takenAt g)).Pairwise (· ≥ ·) := by
  have htaken : ∀ i k, s.takenAt g i = some k →
      ∃ u p, (s.interval i).owner = .temp u ∧ g.parent u = some p ∧ s.notes.index p = k := by
    intro i k hk
    rw [takenAt] at hk
    split at hk
    · cases hk
    · next u howner =>
        obtain ⟨p, hparent, hk⟩ := Option.map_eq_some_iff.mp hk
        exact ⟨u, p, howner, hparent, hk⟩
  rw [List.pairwise_filterMap]
  refine h.stacked.imp_of_mem ?_
  intro i j hi hj hij k hk l hl
  obtain ⟨u, p, hu, hp, rfl⟩ := htaken i k hk
  obtain ⟨w, q, hw, hq, rfl⟩ := htaken j l hl
  exact hij u w p q hu hw hp hq (h.awaited i hi u p hu hp) (h.awaited j hj w q hw hq)

namespace Program

open Alloc

variable {p : Program} {m : Imported}

/-- Comparison never stands in for identity wrongly: if every tree is reached once, then, for any
number of registers and with or without reuse of operands, at every tree that is visited the
release that opens the visit leaves the temporaries on the active list in an order in which the
trees that take them come earlier and earlier; whatever is taken off the list is the very interval
that is to be taken off, or the step stops since that is not listed; the search among the restores
of the tree finds exactly the interval that is looked for; and the scan does not stop because a
comparison does not end. -/
theorem removals_by_identity (p : Program) (settings : Settings) (m : Imported)
    (h : p.import? = .ok m) (honce : ((m.ir.trees m.graph).map Tree.id).Nodup) :
    (∀ v ∈ p.visits settings,
      (∃ s, release v.tree { v.before with tree := some v.tree, reuse := false } = .ok () s ∧
        (s.active.filterMap (s.takenAt m.graph)).Pairwise (· ≥ ·)) ∧
      (∀ x ∈ v.removals m.graph, TakesItself m.graph x) ∧
      ∀ q ∈ v.requests m.graph, FindsItself m.graph v.tree q) ∧
    ∃ c, p.compile settings = .ok c ∧ c.fault ≠ some .circular := by
  obtain ⟨⟨pending, hg⟩, -⟩ := import?_formed h
  have hvisits : ∀ v ∈ p.visits settings,
      (∃ s, release v.tree { v.before with tree := some v.tree, reuse := false } = .ok () s ∧
        (s.active.filterMap (s.takenAt m.graph)).Pairwise (· ≥ ·)) ∧
      (∀ x ∈ v.removals m.graph, TakesItself m.graph x) ∧
      ∀ q ∈ v.requests m.graph, FindsItself m.graph v.tree q := by
    intro v hv
    obtain ⟨_, past, before, -, hbegun⟩ := visits_begun h honce (N := False) False.elim v hv
    obtain ⟨s, hrelease, hstackedAt, -⟩ := hbegun.exists_release hg
    exact ⟨⟨s, hrelease, hstackedAt.takenAt_pairwise⟩, hbegun.removals_takeItself hg,
      fun q hq => (hbegun.requests_seat hg q hq).finds⟩
  refine ⟨hvisits, ?_⟩
  · have hscan : Decides (scan m.graph m.ir)
        (Allocator.create m.notes settings.registers settings.reuse) := by
      refine scan_decides fun s₁ hsurvey v hv => ?_
      obtain ⟨-, hremovals, hrequests⟩ := hvisits v (by simpa only [visits, h, hsurvey] using hv)
      exact scanTree_decides hremovals hrequests
    simp only [compile, h, bind, Except.bind, pure, Except.pure]
    refine ⟨_, rfl, ?_⟩
    cases hresult : scan m.graph m.ir
        (Allocator.create m.notes settings.registers settings.reuse) with
    | ok value s => simp
    | error fault s =>
        simp only [ne_eq, Option.some.injEq]
        rintro rfl
        exact hscan s hresult

/-- A sum of three constants with two registers: the first constant makes room for the third. -/
theorem removals_by_identity_nestedSum :
    ∃ m : Imported, Samples.nestedSum.import? = .ok m ∧
      ((m.ir.trees m.graph).map Tree.id).Nodup ∧
      (∃ v ∈ Samples.nestedSum.visits { registers := 2 }, v.removals m.graph ≠ []) ∧
      (∀ v ∈ Samples.nestedSum.visits { registers := 2 },
        ∀ x ∈ v.removals m.graph, TakesItself m.graph x) ∧
      ∃ c, Samples.nestedSum.compile { registers := 2 } = .ok c ∧ c.fault ≠ some .circular := by
  obtain ⟨m, hm, honce, hremoval⟩ : ∃ m : Imported, Samples.nestedSum.import? = .ok m ∧
      ((m.ir.trees m.graph).map Tree.id).Nodup ∧
      ∃ v ∈ Samples.nestedSum.visits { registers := 2 }, v.removals m.graph ≠ [] := by
    decide +kernel
  obtain ⟨hvisits, hcompile⟩ := removals_by_identity Samples.nestedSum { registers := 2 } m hm honce
  exact ⟨m, hm, honce, hremoval, fun v hv => (hvisits v hv).2.1, hcompile⟩

end Program
end LinearScan
