import LinearScan.Proofs.Victims
import Mathlib.Data.List.MinMax

/-!
# Which interval makes room, and what else changes

When no register is empty, an activation spills an active interval and takes over its
register.  `Allocator.Furthest` says which one: the first that is not used again, or else the
first whose next use is furthest away, behind that of the interval that comes in.
`Allocator.Evicts` says what changes, and that nothing else does.

The interval that is spilled is taken off the active list by comparison, after its spill has
been noted.  So it is taken off as it should if and only if the intervals in front of it are
told apart from it in these notes; that they differed before is not enough.
-/

namespace LinearScan

open Allocator Alloc

namespace Allocator

variable {s s' : Allocator} {pos limit : Nat} {v x : IntervalId}

/-! ## The furthest interval -/

/-- `v` is the interval to spill at index `pos` for one that is used at `limit`.  It is the
first active interval that is not used again or, if all are, the first one whose next use is
the last of those behind `limit`. -/
def Furthest (s : Allocator) (pos limit : Nat) (v : IntervalId) : Prop :=
  ∃ before after, s.active = before ++ v :: after ∧
    ((s.notes.nextUse v pos = none ∧ ∀ j ∈ before, s.notes.nextUse j pos ≠ none) ∨
      (∀ j ∈ s.active, s.notes.nextUse j pos ≠ none) ∧
        ∃ z, s.notes.nextUse v pos = some z ∧ limit < s.notes.index z ∧
          (∀ j ∈ before, ∀ y ∈ s.notes.nextUse j pos, s.notes.index y < s.notes.index z) ∧
          ∀ j ∈ after, ∀ y ∈ s.notes.nextUse j pos, s.notes.index y ≤ s.notes.index z)

/-- An interval that is not used again ends the search. -/
theorem victim_of_nextUse_eq_none {before after : List IntervalId}
    (hv : s.notes.nextUse v pos = none) (hbefore : ∀ j ∈ before, s.notes.nextUse j pos ≠ none)
    (best : Option (IntervalId × Nat)) :
    s.victim pos limit best (before ++ v :: after) = some v := by
  induction before generalizing best with
  | nil => simp only [List.nil_append, victim, hv]
  | cons j before ih =>
      have hrest := ih fun m hm => hbefore m (List.mem_cons_of_mem j hm)
      obtain ⟨y, hy⟩ := Option.ne_none_iff_exists'.mp (hbefore j List.mem_cons_self)
      rw [List.cons_append, victim]
      simp only [hy]
      split
      · exact hrest best
      · cases best with
        | none => exact hrest _
        | some candidate =>
            dsimp only
            split
            · exact hrest _
            · exact hrest _

/-- A candidate stands if no later interval has a later use. -/
theorem victim_of_forall_le {m : Nat} {is : List IntervalId}
    (hused : ∀ j ∈ is, s.notes.nextUse j pos ≠ none)
    (hle : ∀ j ∈ is, ∀ y ∈ s.notes.nextUse j pos, s.notes.index y ≤ m) :
    s.victim pos limit (some (v, m)) is = some v := by
  induction is with
  | nil => rfl
  | cons j is ih =>
      obtain ⟨y, hy⟩ := Option.ne_none_iff_exists'.mp (hused j List.mem_cons_self)
      have hym : s.notes.index y ≤ m := hle j List.mem_cons_self y hy
      have hrest := ih (fun k hk => hused k (List.mem_cons_of_mem j hk))
        fun k hk => hle k (List.mem_cons_of_mem j hk)
      rw [victim]
      simp only [hy]
      split
      · exact hrest
      · rw [if_neg (Nat.not_lt.mpr hym)]
        exact hrest

/-- The first interval with the last use is found, whatever the candidate so far, if that one
is used before. -/
theorem victim_of_forall_lt {before after : List IntervalId} {z : Tree}
    (hv : s.notes.nextUse v pos = some z) (hlimit : limit < s.notes.index z)
    (hused : ∀ j ∈ before ++ after, s.notes.nextUse j pos ≠ none)
    (hbefore : ∀ j ∈ before, ∀ y ∈ s.notes.nextUse j pos, s.notes.index y < s.notes.index z)
    (hafter : ∀ j ∈ after, ∀ y ∈ s.notes.nextUse j pos, s.notes.index y ≤ s.notes.index z)
    {best : Option (IntervalId × Nat)} (hbest : ∀ c ∈ best, c.2 < s.notes.index z) :
    s.victim pos limit best (before ++ v :: after) = some v := by
  induction before generalizing best with
  | nil =>
      have hstands : s.victim pos limit (some (v, s.notes.index z)) after = some v :=
        victim_of_forall_le hused hafter
      rw [List.nil_append, victim]
      simp only [hv, if_neg (Nat.not_le.mpr hlimit)]
      cases best with
      | none => exact hstands
      | some c =>
          dsimp only
          rw [if_pos (hbest c rfl)]
          exact hstands
  | cons j before ih =>
      obtain ⟨y, hy⟩ := Option.ne_none_iff_exists'.mp (hused j (by simp))
      have hyz : s.notes.index y < s.notes.index z := hbefore j List.mem_cons_self y hy
      have hnew : ∀ c ∈ some (j, s.notes.index y), c.2 < s.notes.index z := by
        rintro c ⟨⟩
        exact hyz
      have hrest := @ih (fun k hk => hused k (List.mem_cons_of_mem j hk))
        fun k hk => hbefore k (List.mem_cons_of_mem j hk)
      rw [List.cons_append, victim]
      simp only [hy]
      split
      · exact hrest hbest
      · cases best with
        | none => exact hrest hnew
        | some c =>
            dsimp only
            split
            · exact hrest hnew
            · exact hrest hbest

theorem Furthest.victim_eq (h : s.Furthest pos limit v) :
    s.victim pos limit none s.active = some v := by
  obtain ⟨before, after, hactive, ⟨hv, hbefore⟩ | ⟨hused, z, hv, hlimit, hbefore, hafter⟩⟩ := h
  · rw [hactive]
    exact victim_of_nextUse_eq_none hv hbefore none
  · rw [hactive] at hused ⊢
    refine victim_of_forall_lt hv hlimit ?_ hbefore hafter (by simp)
    intro j hj
    apply hused
    rcases List.mem_append.mp hj with hj | hj
    · exact List.mem_append_left _ hj
    · exact List.mem_append_right _ (List.mem_cons_of_mem v hj)

/-- There is no interval to spill exactly when all are used again, none of them behind
`limit`. -/
theorem not_exists_furthest_iff :
    (¬ ∃ v, s.Furthest pos limit v) ↔
      ∀ j ∈ s.active, ∃ z, s.notes.nextUse j pos = some z ∧ s.notes.index z ≤ limit := by
  constructor
  · intro hnone
    -- The first interval without a later use would be the one to spill.
    have hused : ∀ j ∈ s.active, s.notes.nextUse j pos ≠ none := by
      cases hfind : s.active.find? fun j => (s.notes.nextUse j pos).isNone with
      | none =>
          intro j hj hj'
          simpa [hj'] using List.find?_eq_none.mp hfind j hj
      | some v =>
          obtain ⟨hv, before, after, hactive, hbefore⟩ := List.find?_eq_some_iff_append.mp hfind
          refine absurd ⟨v, before, after, hactive,
            Or.inl ⟨Option.isNone_iff_eq_none.mp hv, ?_⟩⟩ hnone
          intro j hj hj'
          simpa [hj'] using hbefore j hj
    let next : IntervalId → Nat := fun j => ((s.notes.nextUse j pos).map s.notes.index).getD 0
    have hnext : ∀ {j y}, s.notes.nextUse j pos = some y → next j = s.notes.index y := by
      intro j y hy
      simp only [next, hy, Option.map_some, Option.getD_some]
    intro j hj
    obtain ⟨y, hy⟩ := Option.ne_none_iff_exists'.mp (hused j hj)
    refine ⟨y, hy, ?_⟩
    by_contra hlimit
    -- Otherwise it would be the first interval with the last use of all.
    obtain ⟨m, hm⟩ : ∃ m, s.active.argmax next = some m := by
      refine Option.ne_none_iff_exists'.mp fun hnil => ?_
      rw [List.argmax_eq_none.mp hnil] at hj
      cases hj
    obtain ⟨hmem, hmax, -⟩ := List.argmax_eq_some_iff.mp hm
    cases hfind : s.active.find? fun k => next m ≤ next k with
    | none => simpa using List.find?_eq_none.mp hfind m hmem
    | some v =>
        obtain ⟨hv, before, after, hactive, hbefore⟩ := List.find?_eq_some_iff_append.mp hfind
        have hvmem : v ∈ s.active := hactive ▸ List.mem_append_right _ List.mem_cons_self
        obtain ⟨z, hz⟩ := Option.ne_none_iff_exists'.mp (hused v hvmem)
        have hmv : next m ≤ s.notes.index z := by
          rw [← hnext hz]
          simpa using hv
        refine hnone ⟨v, before, after, hactive, Or.inr ⟨hused, z, hz, ?_, ?_, ?_⟩⟩
        · have hjm := hmax j hj
          rw [hnext hy] at hjm
          omega
        · intro k hk y' hy'
          have hkm : ¬ next m ≤ next k := by simpa using hbefore k hk
          rw [hnext hy'] at hkm
          omega
        · intro k hk y' hy'
          have hkm := hmax k (hactive ▸ List.mem_append_right _ (List.mem_cons_of_mem v hk))
          rw [hnext hy'] at hkm
          omega
  · rintro hall ⟨v, h⟩
    have hnone : s.victim pos limit none s.active = none := victim_eq_none_iff.mpr ⟨rfl, hall⟩
    rw [h.victim_eq] at hnone
    cases hnone

/-! ## What an eviction changes -/

/-- The records agree, no register is empty, and the temporaries that are active at index `pos`
are used again. -/
structure Saturated (s : Allocator) (pos : Nat) : Prop extends s.Agreed where
  full : none ∉ s.registers
  temp_used : ∀ i ∈ s.active, (s.interval i).owner.isTemp = true → s.notes.nextUse i pos ≠ none

/-- Where an interval that is spilled at index `pos` is to be restored.  A variable is
restored when it is read. -/
def restoredAt (s : Allocator) (pos : Nat) (v : IntervalId) : Option Tree :=
  if (s.interval v).owner.isTemp then s.notes.nextUse v pos else none

/-- The notes with the spill of `v` from `reg` at the tree `t`. -/
def withSpill (s : Allocator) (t : Tree) (v : IntervalId) (reg : Int) : Notes :=
  spillNotes s.notes t v reg (s.restoredAt (s.notes.index t) v)

/-- `s'` is `s` with `v` spilled from `reg` at the tree `t`, and `x` in its place. -/
structure Evicts (s : Allocator) (t : Tree) (v x : IntervalId) (reg : Int) (s' : Allocator) :
    Prop where
  liveIn_eq : (s.interval v).liveIn = some reg
  registers_eq : ∃ k, Position.resolve s.registers.length reg = .ok k ∧
    s.registers[k]? = some (some v) ∧ s'.registers = s.registers.set k (some x)
  active_eq : s'.active = s.active.erase v ++ [x]
  interval_eq : ∀ i, s'.interval i = { s.interval i with
    liveIn := if i = x then some reg else if i = v then none else (s.interval i).liveIn }
  tree_eq : ∀ u, s'.notes.tree u = { s.notes.tree u with
    spills := (s.notes.tree u).spills ++ if t.id = u.id then [⟨some reg, v⟩] else []
    restores := (s.notes.tree u).restores ++
      if (s.restoredAt (s.notes.index t) v).map Tree.id = some u.id then [⟨some (-1), v⟩] else [] }
  edges_eq : s'.notes.edges = s.notes.edges
  blocks_eq : s'.notes.blocks = s.notes.blocks
  counts_eq : s'.notes.intervalCount = s.notes.intervalCount ∧
    s'.notes.crossingsCount = s.notes.crossingsCount
  rest_eq : s' = { s with notes := s'.notes, registers := s'.registers, active := s'.active }

namespace Saturated

theorem freeRegisters_eq_nil (hs : s.Saturated pos) : s.freeRegisters = [] := by
  refine List.eq_nil_iff_forall_not_mem.mpr fun k hk => ?_
  exact hs.full (List.mem_of_getElem? (mem_freeRegisters.mp hk))

theorem seat (hs : s.Saturated pos) (hv : v ∈ s.active) :
    ∃ reg k, (s.interval v).liveIn = some reg ∧
      Position.resolve s.registers.length reg = .ok k ∧ s.registers[k]? = some (some v) := by
  obtain ⟨k, hk, hregister⟩ := (hs.active_iff v).mp hv
  rw [Allocator.LivesIn] at hk
  cases hlive : (s.interval v).liveIn with
  | none =>
      rw [hlive] at hk
      cases hk
  | some reg =>
      rw [hlive] at hk
      exact ⟨reg, k, rfl, hk, hregister⟩

end Saturated
end Allocator

/-! ## Taking the interval off the list -/

/-- An interval is taken off a list if and only if those in front of it are told apart from
it. -/
theorem removeAlike_eq_erase_iff {g : Graph} {n : Notes} {v : IntervalId}
    {before after : List IntervalId} (hnodup : (before ++ v :: after).Nodup) :
    removeAlike g n v (before ++ v :: after) = .ok ((before ++ v :: after).erase v) ↔
      ∀ j ∈ before, alike g n (.interval j) (.interval v) = .ok false := by
  induction before with
  | nil =>
      rw [List.nil_append, removeAlike, alike_self, List.erase_cons_head]
      simp [bind, Except.bind, pure, Except.pure]
  | cons j before ih =>
      obtain ⟨hj, hrest⟩ := List.nodup_cons.mp hnodup
      have hjv : j ≠ v := by
        rintro rfl
        exact hj (List.mem_append_right _ List.mem_cons_self)
      rw [List.cons_append, removeAlike, List.erase_cons_tail (by simpa using hjv),
        List.forall_mem_cons, ← ih hrest]
      cases halike : alike g n (.interval j) (.interval v) with
      | error fault => simp [bind, Except.bind]
      | ok same =>
          cases same with
          | false =>
              cases removeAlike g n v (before ++ v :: after) <;>
                simp [bind, Except.bind, pure, Except.pure]
          | true =>
              -- The wrong interval would go, and `v` would stay.
              have hmem : v ∈ before ++ v :: after := by simp
              have hne : before ++ v :: after ≠ j :: (before ++ v :: after).erase v := by
                intro heq
                rw [heq] at hmem
                rcases List.mem_cons.mp hmem with rfl | hmem
                · exact hjv rfl
                · exact hrest.not_mem_erase hmem
              simp [bind, Except.bind, pure, Except.pure, hne]

namespace Alloc

variable {g : Graph} {t : Tree} {v x : IntervalId} {s s' : Allocator}

/-- What a spill does that returns. -/
theorem spill_of_removeAlike {reg : Int} {k : Nat} {rest : List IntervalId}
    (hlive : (s.interval v).liveIn = some reg)
    (hused : (s.interval v).owner.isTemp = true → s.notes.nextUse v (s.notes.index t) ≠ none)
    (hrest : removeAlike g (s.withSpill t v reg) v s.active = .ok rest)
    (hk : Position.resolve s.registers.length reg = .ok k) :
    spill g t v s = .ok reg { s with
      notes := s.withSpill t v reg, active := rest, registers := s.registers.set k none } := by
  have hend : ∀ n : Notes, n.place v none = s.withSpill t v reg →
      (do
        setLiveIn v none
        dropActive g v
        occupy (some reg) none
        return reg : Alloc Int) { s with notes := n } = .ok reg { s with
          notes := s.withSpill t v reg, active := rest, registers := s.registers.set k none } := by
    intro n hn
    have hplace : setLiveIn v none { s with notes := n } =
        .ok () { s with notes := s.withSpill t v reg } := by
      rw [setLiveIn_apply, ← hn]
      rfl
    have hdrop : dropActive g v { s with notes := s.withSpill t v reg } =
        .ok () { s with notes := s.withSpill t v reg, active := rest } := by
      rw [dropActive_apply]
      simp only [hrest]
    rw [bind_apply_of_ok hplace, bind_apply_of_ok hdrop]
    have hoccupy : occupy (some reg) none
        { s with notes := s.withSpill t v reg, active := rest } = .ok () { s with
          notes := s.withSpill t v reg, active := rest, registers := s.registers.set k none } := by
      rw [occupy_apply]
      simp only [Position.resolve?, hk]
    rw [bind_apply_of_ok hoccupy]
    rfl
  have hrecord : recordSpill t ⟨some reg, v⟩ s =
      .ok () { s with notes := s.notes.addSpill t ⟨some reg, v⟩ } := rfl
  rw [spill, bind_apply_of_ok (get_apply s)]
  simp only [hlive]
  rw [bind_apply_of_ok hrecord]
  cases htemp : (s.interval v).owner.isTemp with
  | false =>
      simp only [Bool.false_eq_true, if_false]
      refine hend _ ?_
      simp only [withSpill, restoredAt, htemp, Bool.false_eq_true, if_false, spillNotes]
  | true =>
      obtain ⟨use, huse⟩ := Option.ne_none_iff_exists'.mp (hused htemp)
      simp only [if_true, huse]
      have hrestore : recordRestore use ⟨some (-1), v⟩
          { s with notes := s.notes.addSpill t ⟨some reg, v⟩ } = .ok () { s with
            notes := (s.notes.addSpill t ⟨some reg, v⟩).addRestore use ⟨some (-1), v⟩ } := rfl
      rw [bind_apply_of_ok hrestore]
      refine hend _ ?_
      simp only [withSpill, restoredAt, htemp, if_true, huse, spillNotes]

/-- What a spill adds to the trees. -/
theorem tree_spillNotes (n : Notes) (reg : Int) (use : Option Tree) (u : Tree) :
    (spillNotes n t v reg use).tree u = { n.tree u with
      spills := (n.tree u).spills ++ if t.id = u.id then [⟨some reg, v⟩] else []
      restores := (n.tree u).restores ++
        if use.map Tree.id = some u.id then [⟨some (-1), v⟩] else [] } := by
  have hspill : (n.addSpill t ⟨some reg, v⟩).tree u = { n.tree u with
      spills := (n.tree u).spills ++ if t.id = u.id then [⟨some reg, v⟩] else [] } := by
    rw [Notes.addSpill, Notes.tree_modifyTree]
    split <;> simp
  cases use with
  | none => simp [spillNotes, hspill]
  | some use =>
      simp only [spillNotes, Notes.tree_place, Notes.addRestore, Notes.tree_modifyTree, hspill,
        Option.map_some, Option.some.injEq]
      split <;> simp

/-- The state after an eviction. -/
theorem evicts_of_eq {reg : Int} {k : Nat} (hlive : (s.interval v).liveIn = some reg)
    (hk : Position.resolve s.registers.length reg = .ok k)
    (hregister : s.registers[k]? = some (some v)) :
    s.Evicts t v x reg { s with
      notes := (s.withSpill t v reg).place x (some reg)
      registers := s.registers.set k (some x)
      active := s.active.erase v ++ [x] } := by
  refine ⟨hlive, ⟨k, hk, hregister, rfl⟩, rfl, ?_, ?_, ?_, ?_, ?_, rfl⟩
  · intro i
    change ((s.withSpill t v reg).place x (some reg)).interval i = _
    rw [Notes.interval_place, withSpill, interval_spillNotes, Notes.interval_place]
    by_cases hxi : x = i
    · subst hxi
      simp only [if_true]
      split <;> rfl
    · rw [if_neg hxi, if_neg (Ne.symm hxi)]
      by_cases hvi : v = i
      · rw [if_pos hvi, if_pos hvi.symm]
        rfl
      · rw [if_neg hvi, if_neg (Ne.symm hvi)]
        rfl
  · intro u
    change ((s.withSpill t v reg).place x (some reg)).tree u = _
    rw [Notes.tree_place, withSpill, tree_spillNotes]
  · simp only [Notes.place, Notes.modifyInterval, withSpill, edges_spillNotes]
  · simp only [Notes.place, Notes.modifyInterval, withSpill, blocks_spillNotes]
  · simp only [Notes.place, Notes.modifyInterval, withSpill, intervalCount_spillNotes,
      crossingsCount_spillNotes, and_self]

/-- An activation that finds no empty register looks for an interval to spill. -/
theorem activate_of_full (hlive : (s.interval x).liveIn = none) (hfree : s.freeRegisters = []) :
    activate g t x s = evictFor g t x s := by
  have htry : tryActivate g t x s = .ok false s := by
    rw [tryActivate, bind_apply_of_ok (get_apply s), choose_eq_none_iff.mpr hfree]
    rfl
  rw [activate, bind_apply_of_ok (interval_apply x s), hlive, if_pos Option.isNone_none,
    bind_apply_of_ok htry]
  rfl

/-- Without an interval to spill nothing changes. -/
theorem evictFor_of_victim_eq_none {use : Tree}
    (huse : s.notes.nextUse x (s.notes.index t) = some use)
    (hvictim : s.victim (s.notes.index t) (s.notes.index use) none s.active = none) :
    evictFor g t x s = .error (s.noVictim (s.notes.index t)) s := by
  rw [evictFor, bind_apply_of_ok (get_apply s)]
  simp only [huse, hvictim]
  rfl

theorem evictFor_of_victim_eq_some {use : Tree} {reg : Int} {k : Nat}
    (huse : s.notes.nextUse x (s.notes.index t) = some use)
    (hvictim : s.victim (s.notes.index t) (s.notes.index use) none s.active = some v)
    {n : Notes} {rest : List IntervalId}
    (hspill : spill g t v s = .ok reg { s with
      notes := n, active := rest, registers := s.registers.set k none })
    (hk : Position.resolve s.registers.length reg = .ok k) :
    evictFor g t x s = .ok () { s with
      notes := n.place x (some reg)
      registers := s.registers.set k (some x)
      active := rest ++ [x] } := by
  have hoccupy : occupy (some reg) (some x) { s with
      notes := n.place x (some reg), active := rest, registers := s.registers.set k none } =
        .ok () { s with
          notes := n.place x (some reg)
          active := rest
          registers := s.registers.set k (some x) } := by
    rw [occupy_apply]
    simp only [Position.resolve?, List.length_set, hk, List.set_set]
  rw [evictFor, bind_apply_of_ok (get_apply s)]
  simp only [huse, hvictim]
  rw [bind_apply_of_ok hspill, bind_apply_of_ok (setLiveIn_apply x (some reg) _)]
  exact (bind_apply_of_ok hoccupy).trans (pushActive_apply x _)

/-- **Eviction.**  No register is empty, and the interval `x` is in none and is used next at
`use`.  If there is an interval to spill, then `x` takes its place and nothing else changes,
if and only if those in front of it on the active list are told apart from it once its spill
is noted.  The activation stops for want of an interval to spill exactly when there is none,
and then nothing has changed. -/
theorem activate_evicts_iff {use : Tree} (hs : s.Saturated (s.notes.index t))
    (hlive : (s.interval x).liveIn = none)
    (huse : s.notes.nextUse x (s.notes.index t) = some use) :
    (∀ v before after, s.active = before ++ v :: after →
      s.Furthest (s.notes.index t) (s.notes.index use) v →
      ∃ reg, (s.interval v).liveIn = some reg ∧
        ((∃ s', activate g t x s = .ok () s' ∧ s.Evicts t v x reg s') ↔
          ∀ j ∈ before, alike g (s.withSpill t v reg) (.interval j) (.interval v) = .ok false)) ∧
      (LacksVictim (activate g t x) s ↔
        ¬ ∃ v, s.Furthest (s.notes.index t) (s.notes.index use) v) ∧
      ((¬ ∃ v, s.Furthest (s.notes.index t) (s.notes.index use) v) →
        activate g t x s = .error (s.noVictim (s.notes.index t)) s) := by
  have hfree := hs.freeRegisters_eq_nil
  have hactivate : activate g t x s = evictFor g t x s := activate_of_full hlive hfree
  refine ⟨?_, ?_, ?_⟩
  · intro v before after hactive hv
    have hvictim := hv.victim_eq
    have hnodup : (before ++ v :: after).Nodup := hactive ▸ hs.nodup
    have hmem : v ∈ s.active := hactive ▸ List.mem_append_right _ List.mem_cons_self
    obtain ⟨reg, k, hreg, hk, hregister⟩ := hs.seat hmem
    have hiff := removeAlike_eq_erase_iff (g := g) (n := s.withSpill t v reg) hnodup
    rw [← hactive] at hiff
    refine ⟨reg, hreg, ?_⟩
    rw [← hiff, hactivate]
    constructor
    · rintro ⟨s', hevict, hevicts⟩
      cases activate_cases (hactivate.trans hevict) with
      | already reg' hlive' =>
          rw [hlive] at hlive'
          cases hlive'
      | free number filled n _ hchoose _ _ =>
          rw [choose_eq_none_iff.mpr hfree] at hchoose
          cases hchoose
      | evicted use' v' reg' k' s₁ _ _ huse' hvictim' hspill hk' =>
          obtain rfl : use = use' := Option.some.inj (huse.symm.trans huse')
          obtain rfl : v = v' := Option.some.inj (hvictim.symm.trans hvictim')
          obtain ⟨use₁, k₁, rest, hreg', huse₁, hrest, -, rfl⟩ := spill_cases hspill
          obtain rfl : reg = reg' := Option.some.inj (hreg.symm.trans hreg')
          have hat : use₁ = s.restoredAt (s.notes.index t) v := by
            rw [restoredAt]
            split at huse₁
            · next htemp => rw [if_pos htemp, huse₁.1]
            · next htemp => rw [if_neg htemp, huse₁]
          have herase : rest = s.active.erase v := List.append_cancel_right hevicts.active_eq
          rw [withSpill, ← hat, hrest, herase]
    · intro hrest
      have hspill := spill_of_removeAlike hreg (hs.temp_used v hmem) hrest hk
      exact ⟨_, evictFor_of_victim_eq_some huse hvictim hspill hk, evicts_of_eq hreg hk hregister⟩
  · rw [activate_lacksVictim_iff, NoRoom, not_exists_furthest_iff]
    constructor
    · rintro ⟨-, -, use', huse', hall⟩
      obtain rfl : use = use' := Option.some.inj (huse.symm.trans huse')
      exact hall
    · intro hall
      exact ⟨hlive, hfree, use, huse, hall⟩
  · intro hnone
    rw [hactivate]
    exact evictFor_of_victim_eq_none huse
      (victim_eq_none_iff.mpr ⟨rfl, not_exists_furthest_iff.mp hnone⟩)

end Alloc

/-! ## Two registers -/

namespace Samples

/-- A constant, under the number `k`. -/
def leaf (k : Nat) (value : Int) : Tree :=
  .node k .const [.literal (.num value)] 0 []

/-- A block of five constants, which are the trees `leaf 0 1`, `leaf 1 2`, `leaf 2 3`,
`leaf 3 4` and `leaf 4 1`. -/
def constants : Graph :=
  ([1, 2, 3, 4, 1] : List Int).foldl
    (fun g value =>
      let (t, g) := g.newTree .const [.literal (.num value)] 0 []
      g.append 0 g.stmtCount t)
    ({} : Graph).newChain

/-- Two registers, one with the value of `owner`, the other with that of the tree `leaf 4 1`,
and an interval in neither.  They are used at the indices 1, 3 and 2, and a spill of the second
interval is noted at the tree it belongs to. -/
def contended (owner : Owner) : Allocator where
  notes := Notes.addSpill
    ((((({} : Notes).number 0 [leaf 0 1, leaf 1 2, leaf 2 3, leaf 3 4]).addInterval
      { owner, uses := [leaf 1 2], writes := [leaf 0 1], lastRead := 1,
        liveIn := some 0 }).addInterval
      { owner := .temp (leaf 4 1), uses := [leaf 3 4], writes := [leaf 4 1], lastRead := 3,
        liveIn := some 1 }).addInterval
      { owner := .slot 0, uses := [leaf 2 3], lastRead := 2 })
    (leaf 4 1) ⟨some 1, 1⟩
  registers := [some 0, some 1]
  active := [0, 1]

theorem interval_contended (owner : Owner) :
    (contended owner).notes.interval 0 =
        { owner, uses := [leaf 1 2], writes := [leaf 0 1], lastRead := 1, liveIn := some 0 } ∧
      (contended owner).notes.interval 1 =
        { owner := .temp (leaf 4 1), uses := [leaf 3 4], writes := [leaf 4 1], lastRead := 3,
          liveIn := some 1 } ∧
      (contended owner).notes.interval 2 =
        { owner := .slot 0, uses := [leaf 2 3], lastRead := 2 } := by
  simp [contended, Notes.addSpill, Notes.addInterval, Notes.number, Notes.modifyTree,
    Notes.interval, Table.get_set]

theorem index_contended (owner : Owner) {k : Nat} (value : Int) (hk : k < 4) :
    (contended owner).notes.index (leaf k value) = k := by
  have hcases : k = 0 ∨ k = 1 ∨ k = 2 ∨ k = 3 := by omega
  rcases hcases with rfl | rfl | rfl | rfl <;>
    simp [contended, Notes.index, Notes.tree, Notes.addSpill, Notes.addInterval, Notes.number,
      Notes.modifyTree, Table.get_modify, leaf, Tree.id]

theorem nextUse_contended (owner : Owner) :
    (contended owner).notes.nextUse 0 0 = some (leaf 1 2) ∧
      (contended owner).notes.nextUse 1 0 = some (leaf 3 4) ∧
      (contended owner).notes.nextUse 2 0 = some (leaf 2 3) := by
  obtain ⟨hzero, hone, htwo⟩ := interval_contended owner
  simp [Notes.nextUse, hzero, hone, htwo]

theorem saturated_contended (owner : Owner) : (contended owner).Saturated 0 := by
  obtain ⟨hzero, hone, -⟩ := interval_contended owner
  obtain ⟨huse, huse', -⟩ := nextUse_contended owner
  refine ⟨⟨?_, ?_⟩, by simp [contended], ?_⟩
  · intro i
    constructor
    · intro hi
      rcases List.mem_pair.mp hi with rfl | rfl
      · exact ⟨0, by rw [Allocator.LivesIn, Allocator.interval, hzero]; rfl, rfl⟩
      · exact ⟨1, by rw [Allocator.LivesIn, Allocator.interval, hone]; rfl, rfl⟩
    · rintro ⟨k, -, hk⟩
      have hmem : some i ∈ [some 0, some 1] := List.mem_of_getElem? hk
      simpa [contended] using hmem
  · refine List.pairwise_pair.mpr ?_
    simp [Allocator.interval, hzero, hone]
  · intro i hi _
    rcases List.mem_pair.mp hi with rfl | rfl
    · simp [huse]
    · simp [huse']

theorem furthest_contended (owner : Owner) : (contended owner).Furthest 0 2 1 := by
  obtain ⟨huse, huse', -⟩ := nextUse_contended owner
  refine ⟨[0], [], rfl, Or.inr ⟨?_, leaf 3 4, huse', ?_, ?_, by simp⟩⟩
  · intro j hj
    rcases List.mem_pair.mp hj with rfl | rfl
    · simp [huse]
    · simp [huse']
  · simp [index_contended]
  · intro j hj y hy
    obtain rfl := List.mem_singleton.mp hj
    obtain rfl : leaf 1 2 = y := Option.some.inj (huse.symm.trans hy)
    simp [index_contended]

end Samples

namespace Alloc

open Samples

/-- A variable and a temporary occupy the registers; the temporary makes room. -/
theorem activate_evicts_contended :
    (contended (.slot 1)).Saturated 0 ∧ (contended (.slot 1)).Furthest 0 2 1 ∧
      ∃ s', activate constants (leaf 0 1) 2 (contended (.slot 1)) = .ok () s' ∧
        (contended (.slot 1)).Evicts (leaf 0 1) 1 2 1 s' := by
  obtain ⟨hzero, hone, htwo⟩ := interval_contended (.slot 1)
  have hpos : (contended (.slot 1)).notes.index (leaf 0 1) = 0 := index_contended _ 1 (by decide)
  have hlimit : (contended (.slot 1)).notes.index (leaf 2 3) = 2 := index_contended _ 3 (by decide)
  have hsaturated := saturated_contended (.slot 1)
  have hfurthest := furthest_contended (.slot 1)
  have huse : (contended (.slot 1)).notes.nextUse 2
      ((contended (.slot 1)).notes.index (leaf 0 1)) = some (leaf 2 3) := by
    rw [hpos]
    exact (nextUse_contended (.slot 1)).2.2
  obtain ⟨reg, hreg, hiff⟩ :=
    (activate_evicts_iff (g := constants) (hpos.symm ▸ hsaturated)
      (by rw [Allocator.interval, htwo]) huse).1 1 [0] [] rfl
        (by rw [hpos, hlimit]; exact hfurthest)
  obtain rfl : 1 = reg := by
    rw [Allocator.interval, hone] at hreg
    exact Option.some.inj hreg
  refine ⟨hsaturated, hfurthest, hiff.mpr ?_⟩
  intro j hj
  obtain rfl := List.mem_singleton.mp hj
  have howner : ∀ i, ((contended (.slot 1)).withSpill (leaf 0 1) 1 1).interval i =
      ((contended (.slot 1)).notes.place 1 none).interval i := interval_spillNotes _ _ _
  have hslot : (((contended (.slot 1)).withSpill (leaf 0 1) 1 1).interval 0).owner = .slot 1 := by
    rw [howner, Notes.owner_place, hzero]
  refine alike_of_slot ?_ (Or.inl (by rw [hslot]; rfl))
  rw [hslot, howner, Notes.owner_place, hone]
  exact Owner.noConfusion

/-- Two temporaries that differ only in the spills that are noted at their trees: they are told
apart before the activation, but no longer when one of them is to be taken off the list. -/
theorem activate_circular_contended :
    let s := contended (.temp (leaf 0 1))
    s.Saturated 0 ∧ s.Furthest 0 2 1 ∧
      alike constants s.notes (.interval 0) (.interval 1) = .ok false ∧
      alike constants s.notes (.interval 1) (.interval 0) = .ok false ∧
      (s.interval 2).liveIn = none ∧ s.notes.nextUse 2 0 = some (leaf 2 3) ∧
      ∃ s', activate constants (leaf 0 1) 2 s = .error .circular s' := by
  refine ⟨saturated_contended _, furthest_contended _, by decide +kernel, by decide +kernel, ?_,
    (nextUse_contended _).2.2, ?_⟩
  · rw [Allocator.interval, (interval_contended _).2.2]
  · have hstop : (ending (activate constants (leaf 0 1) 2
        (contended (.temp (leaf 0 1))))).1 = some .circular := by decide +kernel
    cases hrun : activate constants (leaf 0 1) 2 (contended (.temp (leaf 0 1))) with
    | ok _ s' =>
        rw [hrun] at hstop
        cases hstop
    | error fault s' =>
        rw [hrun] at hstop
        cases hstop
        exact ⟨s', rfl⟩

end Alloc
end LinearScan
