import LinearScan.Proofs.Orderly

/-!
# The way through memory

How often an interval is spilled and restored at each tree, and what the steps of the
allocator add to it.  Spills are only ever noted at the tree that is scanned.  The interval
that is spilled to make room is used behind the interval that needs the register; if it is
a temporary, the restore is noted where its value is taken.
-/

namespace LinearScan

namespace Notes

/-- How often the interval `i` is spilled at the tree `x`. -/
def spillCount (n : Notes) (i : IntervalId) (x : Tree) : Nat :=
  ((n.tree x).spills.map Spill.interval).count i

/-- How often the interval `i` is restored at the tree `x`. -/
def restoreCount (n : Notes) (i : IntervalId) (x : Tree) : Nat :=
  ((n.tree x).restores.map Restore.interval).count i

/-- The way of the interval `i`, whose value the tree `p` takes: it is never spilled or
restored, or it is spilled once, at the tree `x`, and restored once, at `p`. -/
def Detour (n : Notes) (i : IntervalId) (p : Tree) : Option Tree → Prop
  | none => ∀ y, n.spillCount i y = 0 ∧ n.restoreCount i y = 0
  | some x => ∀ y, n.spillCount i y = (if x.id = y.id then 1 else 0) ∧
      n.restoreCount i y = (if p.id = y.id then 1 else 0)

/-- The interval `i` is spilled and restored in `n'` where it is in `n`. -/
def SameMarks (n n' : Notes) (i : IntervalId) : Prop :=
  ∀ x, n'.spillCount i x = n.spillCount i x ∧ n'.restoreCount i x = n.restoreCount i x

section Counts

variable {n n' n'' : Notes} {i j : IntervalId} {t u x y p : Tree}

theorem restoreCount_pos_iff :
    0 < n.restoreCount i x ↔ ∃ r ∈ (n.tree x).restores, r.interval = i := by
  rw [restoreCount, List.count_pos_iff, List.mem_map]

namespace SameMarks

theorem refl (n : Notes) (i : IntervalId) : n.SameMarks n i :=
  fun _ => ⟨rfl, rfl⟩

theorem trans (h : n.SameMarks n' i) (h' : n'.SameMarks n'' i) : n.SameMarks n'' i :=
  fun x => ⟨(h' x).1.trans (h x).1, (h' x).2.trans (h x).2⟩

theorem of_tree_eq (h : ∀ x, n'.tree x = n.tree x) (i : IntervalId) : n.SameMarks n' i := by
  intro x
  rw [spillCount, spillCount, restoreCount, restoreCount, h]
  exact ⟨rfl, rfl⟩

theorem modifyTree {f : TreeNote → TreeNote}
    (hspills : (f (n.tree t)).spills = (n.tree t).spills)
    (hrestores : (f (n.tree t)).restores.map Restore.interval =
      (n.tree t).restores.map Restore.interval) (i : IntervalId) :
    n.SameMarks (n.modifyTree t f) i := by
  intro x
  simp only [spillCount, restoreCount, tree_modifyTree]
  split
  · next htx =>
      have hrow : n.tree x = n.tree t := by rw [tree, tree, htx]
      rw [hrow, hspills, hrestores]
      exact ⟨rfl, rfl⟩
  · exact ⟨rfl, rfl⟩

theorem detour {out : Option Tree} (h : n.SameMarks n' i) (hn : n.Detour i p out) :
    n'.Detour i p out := by
  cases out with
  | none =>
      intro y
      rw [(h y).1, (h y).2]
      exact hn y
  | some x =>
      intro y
      rw [(h y).1, (h y).2]
      exact hn y

end SameMarks

/-! ### What a new note adds -/

theorem spillCount_addRestore (r : Restore) :
    (n.addRestore u r).spillCount j y = n.spillCount j y := by
  rw [spillCount, spillCount, addRestore, tree_modifyTree]
  split <;> rfl

theorem restoreCount_addRestore (r : Restore) :
    (n.addRestore u r).restoreCount j y =
      n.restoreCount j y + if r.interval = j ∧ u.id = y.id then 1 else 0 := by
  rw [restoreCount, restoreCount, Alloc.restores_addRestore]
  by_cases huy : u.id = y.id
  · by_cases hj : r.interval = j
    · simp [huy, hj]
    · simp [huy, hj]
  · simp [huy]

theorem spillCount_spillNotes (reg : Int) (use : Option Tree) :
    (Alloc.spillNotes n t i reg use).spillCount j y =
      n.spillCount j y + if i = j ∧ t.id = y.id then 1 else 0 := by
  rw [spillCount, spillCount, Alloc.spills_spillNotes]
  by_cases hty : t.id = y.id
  · by_cases hj : i = j
    · simp [hty, hj]
    · simp [hty, hj]
  · simp [hty]

theorem restoreCount_spillNotes (reg : Int) (use : Option Tree) :
    (Alloc.spillNotes n t i reg use).restoreCount j y =
      n.restoreCount j y + if i = j ∧ use.map Tree.id = some y.id then 1 else 0 := by
  rw [restoreCount, restoreCount, Alloc.restores_spillNotes]
  by_cases huse : use.map Tree.id = some y.id
  · by_cases hj : i = j
    · simp [huse, hj]
    · simp [huse, hj]
  · simp [huse]

theorem sameMarks_spillNotes (reg : Int) (use : Option Tree) (hij : i ≠ j) :
    n.SameMarks (Alloc.spillNotes n t i reg use) j := by
  intro y
  rw [spillCount_spillNotes, restoreCount_spillNotes]
  simp [hij]

/-- An interval that was never spilled sets out. -/
theorem detour_spillNotes (h : n.Detour i p none) (reg : Int) :
    (Alloc.spillNotes n t i reg (some p)).Detour i p (some t) := by
  intro y
  rw [spillCount_spillNotes, restoreCount_spillNotes, (h y).1, (h y).2]
  simp

theorem sameMarks_addRestore {r : Restore} (hr : r.interval ≠ j) :
    n.SameMarks (n.addRestore u r) j := by
  intro y
  rw [spillCount_addRestore, restoreCount_addRestore]
  simp [hr]

end Counts
end Notes

/-! ## The interval that is spilled to make room -/

namespace Allocator

theorem index_of_nextUse {n : Notes} {i : IntervalId} {pos : Nat} {use : Tree}
    (h : n.nextUse i pos = some use) : use ∈ (n.interval i).uses ∧ pos ≤ n.index use := by
  refine ⟨List.mem_of_find?_eq_some h, ?_⟩
  have hpos := List.find?_some h
  have hle : (pos : Int) ≤ (n.index use : Int) := of_decide_eq_true hpos
  omega

/-- The interval that is spilled is not used again, or behind the index `limit`. -/
theorem nextUse_of_victim {s : Allocator} {pos limit : Nat} {best : Option (IntervalId × Nat)}
    {is : List IntervalId} {v : IntervalId}
    (hbest : ∀ j m, best = some (j, m) →
      ∃ use, s.notes.nextUse j pos = some use ∧ limit < s.notes.index use)
    (h : s.victim pos limit best is = some v) :
    s.notes.nextUse v pos = none ∨
      ∃ use, s.notes.nextUse v pos = some use ∧ limit < s.notes.index use := by
  induction is generalizing best with
  | nil =>
      obtain ⟨⟨j, m⟩, hj, rfl⟩ := Option.map_eq_some_iff.mp h
      exact Or.inr (hbest j m hj)
  | cons i is ih =>
      rw [victim] at h
      split at h
      · next hnone =>
          injection h with h
          exact Or.inl (h ▸ hnone)
      · next use huse =>
          dsimp only at h
          split at h
          · exact ih hbest h
          · next hlimit =>
              have hnew : ∀ j m, some (i, s.notes.index use) = some (j, m) →
                  ∃ use, s.notes.nextUse j pos = some use ∧ limit < s.notes.index use := by
                intro j m hjm
                simp only [Option.some.injEq, Prod.mk.injEq] at hjm
                obtain ⟨rfl, rfl⟩ := hjm
                exact ⟨use, huse, by omega⟩
              split at h
              · exact ih hnew h
              · split at h
                · exact ih hnew h
                · exact ih hbest h

end Allocator

/-! ## What an activation does to the other intervals -/

namespace Alloc

open Allocator

variable {g : Graph} {t : Tree} {s s' : Allocator} {i j : Nat}

theorem Sifted.sameMarks {drop : IntervalId → Bool} {is kept : List IntervalId}
    (h : Sifted drop is s kept s') (j : IntervalId) : s.notes.SameMarks s'.notes j := by
  obtain ⟨registers, -, rfl⟩ := h.state_eq
  exact .of_tree_eq (Notes.tree_evacuate _ _) j

/-- The interval `j` was spilled at the tree `t`. -/
structure Evicted (t : Tree) (j : IntervalId) (s s' : Allocator) : Prop where
  active : j ∈ s.active
  not_active : j ∉ s'.active
  liveIn_eq : (s'.interval j).liveIn = none
  noted : ∃ reg use, (s.interval j).liveIn = some reg ∧
    (if (s.interval j).owner.isTemp then
      use = s.notes.nextUse j (s.notes.index t) ∧ use ≠ none else use = none) ∧
    (spillNotes s.notes t j reg use).SameMarks s'.notes j

/-- The interval `j` stayed where it was. -/
structure Stayed (j : IntervalId) (s s' : Allocator) : Prop where
  active_iff : j ∈ s'.active ↔ j ∈ s.active
  liveIn_eq : (s'.interval j).liveIn = (s.interval j).liveIn
  marks : s.notes.SameMarks s'.notes j

theorem Stayed.trans {s₁ : Allocator} (h : Stayed j s s₁) (h' : Stayed j s₁ s') :
    Stayed j s s' :=
  ⟨h'.active_iff.trans h.active_iff, h'.liveIn_eq.trans h.liveIn_eq, h.marks.trans h'.marks⟩

/-- A spill leaves the other intervals alone. -/
theorem spill_stayed (hs : s.Orderly g) (hi : i < s.notes.intervalCount) {reg : Int}
    (h : spill g t i s = .ok reg s') (hij : i ≠ j) : Stayed j s s' := by
  obtain ⟨-, hactive, -, -⟩ := spill_active hs hi h
  obtain ⟨use, k, rest, -, -, -, -, rfl⟩ := spill_cases h
  refine ⟨?_, ?_, Notes.sameMarks_spillNotes reg use hij⟩
  · rw [hactive]
    exact hs.active_nodup.mem_erase_iff.trans ⟨And.right, fun hj => ⟨Ne.symm hij, hj⟩⟩
  · simp only [Allocator.interval, interval_spillNotes]
    exact Notes.liveIn_place_of_ne _ i j none hij

/-- The state in which `i` has come into a register leaves the other intervals alone. -/
theorem push_stayed (registers : List (Option IntervalId)) (reg : Option Int) (hij : i ≠ j) :
    Stayed j s { s with
      notes := s.notes.place i reg
      registers
      active := s.active ++ [i] } :=
  ⟨by simp [Ne.symm hij], Notes.liveIn_place_of_ne _ i j reg hij, .refl _ j⟩

theorem Reloaded.stayed {reg : Nat} {n : Notes} (h : Reloaded g t i reg s.notes n)
    (hij : i ≠ j) : Stayed j s { s with notes := n } := by
  rcases h.notes_cases with rfl | ⟨-, rfl⟩
  · exact ⟨Iff.rfl, rfl, .refl _ j⟩
  · exact ⟨Iff.rfl, rfl, Notes.sameMarks_addRestore hij⟩

theorem spill_evicted (hs : s.Orderly g) (hi : i < s.notes.intervalCount) {reg : Int}
    (h : spill g t i s = .ok reg s') : Evicted t i s s' := by
  obtain ⟨hmem, hactive, -, -⟩ := spill_active hs hi h
  obtain ⟨use, k, rest, hlive, huse, -, -, rfl⟩ := spill_cases h
  refine ⟨hmem, ?_, ?_, reg, use, hlive, huse, .refl _ i⟩
  · rw [hactive]
    exact hs.active_nodup.not_mem_erase
  · simp only [Allocator.interval, interval_spillNotes]
    exact Notes.liveIn_place_self _ _ _

theorem Evicted.stayed {s₁ : Allocator} (h : Evicted t j s s₁) (h' : Stayed j s₁ s') :
    Evicted t j s s' := by
  obtain ⟨reg, use, hlive, huse, hmarks⟩ := h.noted
  refine ⟨h.active, ?_, h'.liveIn_eq.trans h.liveIn_eq, reg, use, hlive, huse,
    hmarks.trans h'.marks⟩
  rw [h'.active_iff]
  exact h.not_active

/-- The next use of what is spilled to make room for `i` lies behind the tree. -/
theorem nextUse_later_of_victim {use : Tree} {v : IntervalId}
    (huse : s.notes.nextUse i (s.notes.index t) = some use)
    (hvictim : s.victim (s.notes.index t) (s.notes.index use) none s.active = some v) :
    s.notes.nextUse v (s.notes.index t) = none ∨
      ∃ use, s.notes.nextUse v (s.notes.index t) = some use ∧
        s.notes.index t < s.notes.index use := by
  have hlimit := (index_of_nextUse huse).2
  rcases nextUse_of_victim (fun j m h => by cases h) hvictim with hnone | ⟨next, hnext, hlater⟩
  · exact Or.inl hnone
  · exact Or.inr ⟨next, hnext, Nat.lt_of_le_of_lt hlimit hlater⟩

/-- When `i` comes into a register, every other interval stays where it is, or it is spilled
and its next use, if it has one, lies behind that of `i`. -/
theorem Activated.fate (hs : s.Orderly g) (h : Activated g t i s s') (hij : i ≠ j) :
    Stayed j s s' ∨ Evicted t j s s' ∧
      (s.notes.nextUse j (s.notes.index t) = none ∨
        ∃ use, s.notes.nextUse j (s.notes.index t) = some use ∧
          s.notes.index t < s.notes.index use) := by
  cases h with
  | already => exact Or.inl ⟨Iff.rfl, rfl, .refl _ j⟩
  | free number filled n hlive hchoose hreload hfilled =>
      exact Or.inl ((hreload.stayed hij).trans (push_stayed (s := { s with notes := n }) _ _ hij))
  | evicted use v reg k s₁ hlive hchoose huse hvictim hspill hk =>
      have hlt := hs.active_lt v (mem_active_of_victim hvictim)
      have hpush := push_stayed (s := s₁) (s₁.registers.set k (some i)) (some reg) hij
      by_cases hvj : v = j
      · right
        subst hvj
        exact ⟨(spill_evicted hs hlt hspill).stayed hpush, nextUse_later_of_victim huse hvictim⟩
      · exact Or.inl ((spill_stayed hs hlt hspill hvj).trans hpush)

theorem Activated.intervalCount_eq (h : Activated g t i s s') :
    s'.notes.intervalCount = s.notes.intervalCount := by
  cases h with
  | already => rfl
  | free number filled n hlive hchoose hreload hfilled =>
      rcases hreload.notes_cases with rfl | ⟨-, rfl⟩ <;> rfl
  | evicted use v reg k s₁ hlive hchoose huse hvictim hspill hk =>
      obtain ⟨back, k', rest, -, -, -, -, rfl⟩ := spill_cases hspill
      simp only [Notes.intervalCount_place, intervalCount_spillNotes]

theorem Activated.owner_eq (h : Activated g t i s s') (j : IntervalId) :
    (s'.interval j).owner = (s.interval j).owner := by
  cases h with
  | already => rfl
  | free number filled n hlive hchoose hreload hfilled =>
      rw [Allocator.interval, Notes.owner_place, hreload.interval_eq]
      rfl
  | evicted use v reg k s₁ hlive hchoose huse hvictim hspill hk =>
      obtain ⟨back, k', rest, -, -, -, -, rfl⟩ := spill_cases hspill
      simp only [Allocator.interval, Notes.owner_place, interval_spillNotes]

theorem Activated.mem_active (h : Activated g t i s s') (hlive : (s.interval i).liveIn = none) :
    i ∈ s'.active := by
  cases h with
  | already reg hlive' =>
      rw [hlive] at hlive'
      cases hlive'
  | free => simp
  | evicted => simp

/-- Nothing is recorded for a value that is produced, or whose restore is already noted. -/
theorem Reloaded.notes_eq {reg : Nat} {n : Notes} (hs : s.Orderly g)
    (hi : i < s.notes.intervalCount) (h : Reloaded g t i reg s.notes n)
    (hnoted : (s.interval i).owner.isResultOf t = true ∨
      ∃ r ∈ (s.notes.tree t).restores, r.interval = i) : n = s.notes := by
  rw [Reloaded] at h
  split at h
  · exact h
  · next howner =>
      obtain ⟨found, hfound, rfl⟩ := h
      have hmem := hnoted.resolve_left howner
      rw [(restoresAlike_cases hs.identified hi (hs.restore_lt t) hfound).mpr hmem]
      rfl

/-- The marks of the interval that comes into a register, when its restore is already noted
or it is the value that is produced. -/
theorem Activated.sameMarks (hs : s.Orderly g) (hi : i < s.notes.intervalCount)
    (h : Activated g t i s s')
    (hnoted : (s.interval i).owner.isResultOf t = true ∨
      ∃ r ∈ (s.notes.tree t).restores, r.interval = i) : s.notes.SameMarks s'.notes i := by
  cases h with
  | already => exact .refl _ i
  | free number filled n hlive hchoose hreload hfilled =>
      rw [hreload.notes_eq hs hi hnoted]
      exact .refl _ i
  | evicted use v reg k s₁ hlive hchoose huse hvictim hspill hk =>
      have hv : v ∈ s.active := mem_active_of_victim hvictim
      have hvi : v ≠ i := by
        rintro rfl
        exact not_mem_active hs hlive hv
      exact (spill_stayed hs (hs.active_lt v hv) hspill hvi).marks

end Alloc
end LinearScan
