import LinearScan.Proofs.Frame

/-!
# Which intervals are active

The intervals of the local variables come first, in the order of the variables, and
each temporary is used by the one tree that takes its value.  No interval is twice in
the active list, every active interval says where it lives, and a local variable that
says where it lives is active.  Registers are named by their places.

All this survives every move of a scan, whatever the contents of the registers are.
-/

namespace LinearScan

namespace Notes

/-- Whether intervals can be told apart depends on their lives only. -/
theorem Identified.congr {n n' : Notes} (hn : n.Identified)
    (hcount : n'.intervalCount = n.intervalCount)
    (hlife : ∀ i, i < n.intervalCount → (n'.interval i).life = (n.interval i).life) :
    n'.Identified where
  slot_inj {i j k} hi hj hik hjk := by
    rw [hcount] at hi hj
    have hiowner := congrArg Interval.owner (hlife i hi)
    have hjowner := congrArg Interval.owner (hlife j hj)
    exact hn.slot_inj hi hj (hiowner.symm.trans hik) (hjowner.symm.trans hjk)
  temp_uses {i t} hi howner := by
    rw [hcount] at hi
    have hiowner := congrArg Interval.owner (hlife i hi)
    have hiuses := congrArg Interval.uses (hlife i hi)
    have huses : (n'.interval i).uses = (n.interval i).uses := hiuses
    rw [huses]
    exact hn.temp_uses hi (hiowner.symm.trans howner)

end Notes

namespace Allocator

/-! ## Free registers -/

theorem mem_freeRegisters {s : Allocator} {k : Nat} :
    k ∈ s.freeRegisters ↔ s.registers[k]? = some none := by
  simp only [freeRegisters, List.mem_filterMap, Prod.exists, List.mem_zipIdx_iff_getElem?]
  constructor
  · rintro ⟨content, m, hm, hk⟩
    cases content with
    | none =>
        obtain rfl : m = k := by simpa using hk
        exact hm
    | some i => simp at hk
  · intro hk
    exact ⟨none, k, hk, by simp⟩

theorem lt_of_mem_freeRegisters {s : Allocator} {k : Nat} (hk : k ∈ s.freeRegisters) :
    k < s.registers.length := by
  have hsome := mem_freeRegisters.mp hk
  exact (List.getElem?_eq_some_iff.mp hsome).1

theorem preferred_mem (s : Allocator) (use : Tree) (number : Nat) (others : List Nat) :
    s.preferred use number others ∈ number :: others := by
  rw [preferred]
  generalize hfind : List.find? _ others = found
  cases found with
  | none => simp
  | some k => simp [List.mem_of_find?_eq_some hfind]

/-- Both registers of a choice are empty ones. -/
theorem mem_of_choose {s : Allocator} {pos number filled : Nat} {i : IntervalId}
    (h : s.choose pos i = .ok (some (number, filled))) :
    number ∈ s.freeRegisters ∧ filled ∈ s.freeRegisters := by
  rw [choose] at h
  split at h
  · cases h
  · next only hfree =>
      simp only [Except.ok.injEq, Option.some.injEq, Prod.mk.injEq] at h
      obtain ⟨rfl, rfl⟩ := h
      simp [hfree]
  · next first others _ hfree =>
      split at h
      · simp only [Except.ok.injEq, Option.some.injEq, Prod.mk.injEq] at h
        obtain ⟨rfl, rfl⟩ := h
        rw [hfree]
        exact ⟨by simp, s.preferred_mem _ _ _⟩
      · cases h

/-- The interval that is spilled comes from the list, or is the candidate. -/
theorem mem_of_victim {s : Allocator} {pos limit : Nat} {best : Option (IntervalId × Nat)}
    {is : List IntervalId} {v : IntervalId} (h : s.victim pos limit best is = some v) :
    v ∈ is ∨ best.map Prod.fst = some v := by
  induction is generalizing best with
  | nil => exact Or.inr h
  | cons i is ih =>
      rw [victim] at h
      split at h
      · injection h with h
        exact Or.inl (by simp [← h])
      · dsimp only at h
        split at h
        · rcases ih h with hmem | hbest
          · exact Or.inl (by simp [hmem])
          · exact Or.inr hbest
        · have hnew : ∀ k : Nat, Option.map Prod.fst (some (i, k)) = some v → v ∈ i :: is := by
            intro k hk
            injection hk with hk
            simp [← hk]
          split at h
          · rcases ih h with hmem | hbest
            · exact Or.inl (by simp [hmem])
            · exact Or.inl (hnew _ hbest)
          · split at h
            · rcases ih h with hmem | hbest
              · exact Or.inl (by simp [hmem])
              · exact Or.inl (hnew _ hbest)
            · rcases ih h with hmem | hbest
              · exact Or.inl (by simp [hmem])
              · exact Or.inr hbest

theorem mem_active_of_victim {s : Allocator} {pos limit : Nat} {v : IntervalId}
    (h : s.victim pos limit none s.active = some v) : v ∈ s.active := by
  rcases mem_of_victim h with hmem | hbest
  · exact hmem
  · cases hbest

/-! ## Owners -/

/-- The intervals of the local variables come first, the others are temporaries. -/
structure Owned (g : Graph) (s : Allocator) : Prop where
  slots_eq : s.slots = List.range s.slots.length
  slots_le : s.slots.length ≤ s.notes.intervalCount
  owner_slot : ∀ i : Nat, i < s.slots.length → (s.interval i).owner = .slot i
  owner_temp : ∀ i : Nat, s.slots.length ≤ i → i < s.notes.intervalCount →
    ∃ u p, (s.interval i).owner = .temp u ∧ g.parent u = some p ∧
      (s.interval i).uses = [p] ∧ (s.interval i).lastRead = s.notes.index p

namespace Owned

variable {g : Graph} {s s' : Allocator} {i : Nat}

theorem congr (hs : s.Owned g) (h : s.Continues s')
    (hcount : s'.notes.intervalCount = s.notes.intervalCount) : s'.Owned g where
  slots_eq := by rw [h.slots_eq]; exact hs.slots_eq
  slots_le := by rw [h.slots_eq, hcount]; exact hs.slots_le
  owner_slot i hi := by
    rw [h.slots_eq] at hi
    rw [h.owner_eq (Nat.lt_of_lt_of_le hi hs.slots_le)]
    exact hs.owner_slot i hi
  owner_temp i hle hlt := by
    rw [h.slots_eq] at hle
    rw [hcount] at hlt
    obtain ⟨u, p, howner, hparent, huses, hlast⟩ := hs.owner_temp i hle hlt
    exact ⟨u, p, (h.owner_eq hlt).trans howner, hparent, (h.uses_eq hlt).trans huses,
      by rw [h.lastRead_eq hlt, hlast, h.index_eq]⟩

theorem create (hs : s.Owned g) {t p : Tree} (hparent : g.parent t = some p) :
    ({ s with notes := s.notes.addInterval (Alloc.tempOf s.notes t p) } : Allocator).Owned g where
  slots_eq := hs.slots_eq
  slots_le := Nat.le_succ_of_le hs.slots_le
  owner_slot i hi := by
    have hne : s.notes.intervalCount ≠ i := Nat.ne_of_gt (Nat.lt_of_lt_of_le hi hs.slots_le)
    simp only [Allocator.interval, Notes.interval_addInterval, if_neg hne]
    exact hs.owner_slot i hi
  owner_temp i hle hlt := by
    by_cases hi : s.notes.intervalCount = i
    · simp only [Allocator.interval, Notes.interval_addInterval, if_pos hi]
      exact ⟨t, p, rfl, hparent, rfl, rfl⟩
    · simp only [Allocator.interval, Notes.interval_addInterval, if_neg hi]
      have hlt' : i < s.notes.intervalCount :=
        Nat.lt_of_le_of_ne (Nat.le_of_lt_succ hlt) (Ne.symm hi)
      exact hs.owner_temp i hle hlt'

theorem isTemp_iff (hs : s.Owned g) (hi : i < s.notes.intervalCount) :
    (s.interval i).owner.isTemp = true ↔ s.slots.length ≤ i := by
  constructor
  · intro htemp
    by_contra hlt
    rw [hs.owner_slot i (Nat.lt_of_not_le hlt)] at htemp
    cases htemp
  · intro hle
    obtain ⟨u, p, howner, -⟩ := hs.owner_temp i hle hi
    rw [howner]
    rfl

/-- Different intervals are never found alike. -/
theorem identified (hs : s.Owned g) : s.notes.Identified where
  slot_inj {i j k} hi hj hik hjk := by
    have hlt : ∀ {m : Nat}, m < s.notes.intervalCount → (s.notes.interval m).owner = .slot k →
        (m : Int) = k := by
      intro m hm howner
      have hslot : m < s.slots.length := by
        by_contra hle
        have htemp := (hs.isTemp_iff hm).mpr (Nat.le_of_not_lt hle)
        rw [Allocator.interval, howner] at htemp
        cases htemp
      have hown := hs.owner_slot m hslot
      rw [Allocator.interval, howner] at hown
      injection hown with hown
      exact hown.symm
    have hij : (i : Int) = (j : Int) := (hlt hi hik).trans (hlt hj hjk).symm
    exact Int.ofNat.inj hij
  temp_uses {i t} hi howner := by
    have hle : s.slots.length ≤ i := by
      refine (hs.isTemp_iff hi).mp ?_
      rw [Allocator.interval, howner]
      rfl
    obtain ⟨u, p, -, -, huses, -⟩ := hs.owner_temp i hle hi
    have huses' : (s.notes.interval i).uses = [p] := huses
    simp [huses']

/-- The variable that a tree names is one of the variables. -/
theorem slotOf_lt (hs : s.Owned g) {t : Tree} (h : s.slotOf t = .ok i) : i < s.slots.length := by
  have hmem : i ∈ s.slots := by
    rw [slotOf] at h
    split at h
    · cases h
    · obtain ⟨pos, -, h⟩ := exists_of_bind_eq_ok h
      obtain ⟨k, -, h⟩ := exists_of_bind_eq_ok h
      split at h
      · next j hj =>
          injection h with h
          subst h
          exact List.mem_of_getElem? hj
      · cases h
  rw [hs.slots_eq] at hmem
  exact List.mem_range.mp hmem

end Owned
/-! ## The active list -/

/-- The active list and the places of the intervals agree, as far as the local variables
are concerned. -/
structure Orderly (g : Graph) (s : Allocator) : Prop extends Owned g s where
  active_nodup : s.active.Nodup
  active_lt : ∀ i : Nat, i ∈ s.active → i < s.notes.intervalCount
  active_live : ∀ i ∈ s.active, ∃ r, (s.interval i).liveIn = some r
  slot_active : ∀ (i : Nat) r, i < s.slots.length → (s.interval i).liveIn = some r → i ∈ s.active
  live_range : ∀ i r, (s.interval i).liveIn = some r → 0 ≤ r ∧ r < s.registers.length
  occupied_lt : ∀ (k j : Nat), s.registers[k]? = some (some j) → j < s.notes.intervalCount
  spill_lt : ∀ u, ∀ sp ∈ (s.notes.tree u).spills, sp.interval < s.notes.intervalCount
  restore_lt : ∀ u, ∀ r ∈ (s.notes.tree u).restores, r.interval < s.notes.intervalCount

namespace Orderly

variable {g : Graph} {t : Tree} {s s' : Allocator} {i : Nat}

/-- An active interval goes into memory. -/
theorem retire (hs : s.Orderly g) (hext : s.Extends s')
    (hcount : s'.notes.intervalCount = s.notes.intervalCount)
    (hactive : s'.active = s.active.erase i)
    (hlive : ∀ j, (s'.interval j).liveIn = if i = j then none else (s.interval j).liveIn)
    (hregisters : ∀ k j : Nat, s'.registers[k]? = some (some j) → s.registers[k]? = some (some j))
    (hspills : ∀ u, ∀ sp ∈ (s'.notes.tree u).spills, sp.interval < s.notes.intervalCount)
    (hrestores : ∀ u, ∀ r ∈ (s'.notes.tree u).restores, r.interval < s.notes.intervalCount) :
    s'.Orderly g where
  toOwned := hs.toOwned.congr hext.toContinues hcount
  active_nodup := by
    rw [hactive]
    exact hs.active_nodup.erase i
  active_lt j hj := by
    rw [hactive] at hj
    rw [hcount]
    exact hs.active_lt j (List.mem_of_mem_erase hj)
  active_live j hj := by
    rw [hactive] at hj
    obtain ⟨hne, hj⟩ := hs.active_nodup.mem_erase_iff.mp hj
    rw [hlive, if_neg (Ne.symm hne)]
    exact hs.active_live j hj
  slot_active j r hj hr := by
    rw [hext.slots_eq] at hj
    rw [hlive] at hr
    split at hr
    · cases hr
    · next hne =>
        rw [hactive]
        exact hs.active_nodup.mem_erase_iff.mpr ⟨Ne.symm hne, hs.slot_active j r hj hr⟩
  live_range j r hr := by
    rw [hlive] at hr
    rw [hext.size_eq]
    split at hr
    · cases hr
    · exact hs.live_range j r hr
  occupied_lt k j hj := by
    rw [hcount]
    exact hs.occupied_lt k j (hregisters k j hj)
  spill_lt u sp hsp := by
    rw [hcount]
    exact hspills u sp hsp
  restore_lt u r hr := by
    rw [hcount]
    exact hrestores u r hr

/-- An interval comes into a register. -/
theorem seat (hs : s.Orderly g) (hext : s.Extends s') {reg : Int}
    (hi : i < s.notes.intervalCount) (hreg : 0 ≤ reg ∧ reg < s.registers.length)
    (hcount : s'.notes.intervalCount = s.notes.intervalCount)
    (hactive : s'.active = if i ∈ s.active then s.active else s.active ++ [i])
    (hlive : ∀ j, (s'.interval j).liveIn = if i = j then some reg else (s.interval j).liveIn)
    (hregisters : ∀ k j : Nat, s'.registers[k]? = some (some j) →
      j = i ∨ s.registers[k]? = some (some j))
    (htree : ∀ u, s'.notes.tree u = s.notes.tree u) :
    s'.Orderly g := by
  have hmem : ∀ j, j ∈ s'.active ↔ j ∈ s.active ∨ j = i := by
    intro j
    rw [hactive]
    split
    · next hin =>
        constructor
        · exact Or.inl
        · rintro (hj | rfl)
          · exact hj
          · exact hin
    · simp
  exact
    { toOwned := hs.toOwned.congr hext.toContinues hcount
      active_nodup := by
        rw [hactive]
        split
        · exact hs.active_nodup
        · next hin =>
            refine List.nodup_append.mpr ⟨hs.active_nodup, by simp, ?_⟩
            intro j hj k hk hjk
            obtain rfl : k = i := by simpa using hk
            exact hin (hjk ▸ hj)
      active_lt := by
        intro j hj
        rw [hcount]
        rcases (hmem j).mp hj with hj | rfl
        · exact hs.active_lt j hj
        · exact hi
      active_live := by
        intro j hj
        rw [hlive]
        split
        · exact ⟨reg, rfl⟩
        · next hne =>
            rcases (hmem j).mp hj with hj | rfl
            · exact hs.active_live j hj
            · exact absurd rfl hne
      slot_active := by
        intro j r hj hr
        rw [hext.slots_eq] at hj
        rw [hlive] at hr
        split at hr
        · next heq => exact (hmem j).mpr (Or.inr heq.symm)
        · exact (hmem j).mpr (Or.inl (hs.slot_active j r hj hr))
      live_range := by
        intro j r hr
        rw [hlive] at hr
        rw [hext.size_eq]
        split at hr
        · injection hr with hr
          exact hr ▸ hreg
        · exact hs.live_range j r hr
      occupied_lt := by
        intro k j hj
        rw [hcount]
        rcases hregisters k j hj with rfl | hj
        · exact hi
        · exact hs.occupied_lt k j hj
      spill_lt := by
        intro u sp hsp
        rw [htree] at hsp
        rw [hcount]
        exact hs.spill_lt u sp hsp
      restore_lt := by
        intro u r hr
        rw [htree] at hr
        rw [hcount]
        exact hs.restore_lt u r hr }

/-! ### Moves -/

theorem of_notes_eq (hs : s.Orderly g) {n : Notes} (hext : s.Extends { s with notes := n })
    (hcount : n.intervalCount = s.notes.intervalCount)
    (hlive : ∀ j, (n.interval j).liveIn = (s.notes.interval j).liveIn)
    (hspills : ∀ u, ∀ sp ∈ (n.tree u).spills, sp.interval < s.notes.intervalCount)
    (hrestores : ∀ u, ∀ r ∈ (n.tree u).restores, r.interval < s.notes.intervalCount) :
    ({ s with notes := n } : Allocator).Orderly g where
  toOwned := hs.toOwned.congr hext.toContinues hcount
  active_nodup := hs.active_nodup
  active_lt j hj := by
    show j < n.intervalCount
    rw [hcount]
    exact hs.active_lt j hj
  active_live j hj := by
    show ∃ r, (n.interval j).liveIn = some r
    rw [hlive]
    exact hs.active_live j hj
  slot_active j r hj hr := hs.slot_active j r hj ((hlive j).symm.trans hr)
  live_range j r hr := hs.live_range j r ((hlive j).symm.trans hr)
  occupied_lt k j hj := by
    show j < n.intervalCount
    rw [hcount]
    exact hs.occupied_lt k j hj
  spill_lt u sp hsp := by
    show sp.interval < n.intervalCount
    rw [hcount]
    exact hspills u sp hsp
  restore_lt u r hr := by
    show r.interval < n.intervalCount
    rw [hcount]
    exact hrestores u r hr

theorem turn (hs : s.Orderly g) (tree : Option Tree) (reuse : Bool) :
    ({ s with tree, reuse } : Allocator).Orderly g :=
  { toOwned := ⟨hs.slots_eq, hs.slots_le, hs.owner_slot, hs.owner_temp⟩
    active_nodup := hs.active_nodup
    active_lt := hs.active_lt
    active_live := hs.active_live
    slot_active := hs.slot_active
    live_range := hs.live_range
    occupied_lt := hs.occupied_lt
    spill_lt := hs.spill_lt
    restore_lt := hs.restore_lt }

end Orderly
end Allocator

namespace Alloc

open Allocator

variable {g : Graph} {t : Tree} {s s' : Allocator} {i : Nat}

theorem Sifted.orderly {kept : List IntervalId} {drop : IntervalId → Bool}
    (h : Sifted drop s.active s kept s') (hs : s.Orderly g) :
    ({ s' with active := kept } : Allocator).Orderly g := by
  have hext : s.Extends { s' with active := kept } :=
    h.extends.trans (.of_notes_eq rfl rfl rfl rfl)
  have hkept := h.kept_eq
  have hregisters : ∀ k j : Nat, s'.registers[k]? = some (some j) →
      s.registers[k]? = some (some j) := fun k j hk => h.registers_of hk
  obtain ⟨registers, hlength, rfl⟩ := h.state_eq
  have hlive : ∀ j, ((s.notes.evacuate (s.active.filter drop)).interval j).liveIn =
      if j ∈ s.active ∧ drop j = true then none else (s.interval j).liveIn := by
    intro j
    rw [Notes.liveIn_evacuate]
    simp [Allocator.interval]
  have hmem : ∀ j, j ∈ kept ↔ j ∈ s.active ∧ drop j = false := by
    intro j
    rw [hkept]
    simp
  exact
    { toOwned := hs.toOwned.congr hext.toContinues (s.notes.intervalCount_evacuate _)
      active_nodup := by
        rw [hkept]
        exact hs.active_nodup.filter _
      active_lt := by
        intro j hj
        rw [Notes.intervalCount_evacuate]
        exact hs.active_lt j ((hmem j).mp hj).1
      active_live := by
        intro j hj
        obtain ⟨hactive, hdrop⟩ := (hmem j).mp hj
        rw [Allocator.interval, hlive, if_neg (by simp [hdrop])]
        exact hs.active_live j hactive
      slot_active := by
        intro j r hj hr
        simp only [Allocator.interval, hlive] at hr
        split at hr
        · cases hr
        · next hkeep =>
            have hactive := hs.slot_active j r hj hr
            exact (hmem j).mpr ⟨hactive, by simpa [hactive] using hkeep⟩
      live_range := by
        intro j r hr
        simp only [Allocator.interval, hlive] at hr
        rw [hlength]
        split at hr
        · cases hr
        · exact hs.live_range j r hr
      occupied_lt := by
        intro k j hj
        rw [Notes.intervalCount_evacuate]
        exact hs.occupied_lt k j (hregisters k j hj)
      spill_lt := by
        intro u sp hsp
        rw [Notes.tree_evacuate] at hsp
        rw [Notes.intervalCount_evacuate]
        exact hs.spill_lt u sp hsp
      restore_lt := by
        intro u r hr
        rw [Notes.tree_evacuate] at hr
        rw [Notes.intervalCount_evacuate]
        exact hs.restore_lt u r hr }

section

variable (hs : s.Orderly g) (hi : i < s.notes.intervalCount)
include hs hi

/-- Taking an interval off the active list takes off that very interval. -/
theorem removeAlike_active {rest : List IntervalId}
    (h : removeAlike g s.notes i s.active = .ok rest) : i ∈ s.active ∧ rest = s.active.erase i :=
  removeAlike_cases hs.identified hi hs.active_lt h

/-- What a spill does to an orderly state. -/
theorem spill_active {reg : Int} (h : spill g t i s = .ok reg s') :
    i ∈ s.active ∧ s'.active = s.active.erase i ∧ s'.Orderly g ∧
      (0 ≤ reg ∧ reg < s.registers.length) := by
  have hext := extends_spill h
  obtain ⟨use, k, rest, hlive, -, hrest, hk, rfl⟩ := spill_cases h
  have hidentified : (spillNotes s.notes t i reg use).Identified :=
    hs.identified.congr (by simp) fun j _ => by rw [interval_spillNotes, Notes.life_place]
  obtain ⟨hactive, rfl⟩ := removeAlike_cases hidentified (by simpa using hi)
    (by simpa using hs.active_lt) hrest
  refine ⟨hactive, rfl, ?_, hs.live_range i reg hlive⟩
  refine hs.retire (i := i) hext (by simp) rfl ?_ ?_ ?_ ?_
  · intro j
    simp only [Allocator.interval, interval_spillNotes, Notes.interval_place]
    split <;> rfl
  · intro m j hm
    exact registers_of_set_none hm
  · intro u sp hsp
    simp only [spills_spillNotes] at hsp
    split at hsp
    · rcases List.mem_append.mp hsp with hsp | hsp
      · exact hs.spill_lt u sp hsp
      · obtain rfl : sp = _ := by simpa using hsp
        exact hi
    · exact hs.spill_lt u sp hsp
  · intro u r hr
    simp only [restores_spillNotes] at hr
    split at hr
    · rcases List.mem_append.mp hr with hr | hr
      · exact hs.restore_lt u r hr
      · obtain rfl : r = _ := by simpa using hr
        exact hi
    · exact hs.restore_lt u r hr

theorem Reloaded.orderly {reg : Nat} {n : Notes} (h : Reloaded g t i reg s.notes n) :
    ({ s with notes := n } : Allocator).Orderly g := by
  have hext := h.extends
  rcases h.notes_cases with rfl | ⟨-, rfl⟩
  · exact hs
  · refine hs.of_notes_eq hext rfl (fun _ => rfl) ?_ ?_
    · intro u sp hsp
      have hsp' : sp ∈ (s.notes.tree u).spills := by
        rw [Notes.addRestore, Notes.tree_modifyTree] at hsp
        split at hsp <;> exact hsp
      exact hs.spill_lt u sp hsp'
    · intro u r hr
      rw [restores_addRestore] at hr
      split at hr
      · rcases List.mem_append.mp hr with hr | hr
        · exact hs.restore_lt u r hr
        · obtain rfl : r = _ := by simpa using hr
          exact hi
      · exact hs.restore_lt u r hr

end

/-- A place counted from the start is the register's own number. -/
theorem resolve_cases {size k : Nat} {reg : Int} (hreg : 0 ≤ reg)
    (h : Position.resolve size reg = .ok k) : (k : Int) = reg ∧ reg < size := by
  obtain ⟨number, rfl⟩ := Int.eq_ofNat_of_zero_le hreg
  obtain ⟨rfl, hlt⟩ := resolve_natCast_cases h
  exact ⟨rfl, by exact_mod_cast hlt⟩

section

variable (hs : s.Orderly g)
include hs

theorem Requested.lt {phase : Phase} (h : Requested t i s phase) : i < s.notes.intervalCount := by
  cases h with
  | recorded r hr hi => exact hi ▸ hs.restore_lt t r hr
  | load _ hslot => exact Nat.lt_of_lt_of_le (hs.slotOf_lt hslot) hs.slots_le
  | result hi _ => exact hi

theorem not_mem_active (hlive : (s.interval i).liveIn = none) : i ∉ s.active := by
  intro hactive
  obtain ⟨r, hr⟩ := hs.active_live i hactive
  rw [hlive] at hr
  cases hr

/-- The state in which `i`, which lived nowhere, has come into `reg`. -/
theorem orderly_push (hi : i < s.notes.intervalCount) (hlive : (s.interval i).liveIn = none)
    {reg : Int} (hreg : 0 ≤ reg ∧ reg < s.registers.length) (k : Nat) :
    ({ s with
      notes := s.notes.place i (some reg)
      registers := s.registers.set k (some i)
      active := s.active ++ [i] } : Allocator).Orderly g := by
  refine hs.seat (i := i) (extends_place s i _ (by simp) _) hi hreg rfl ?_ ?_ ?_ (fun _ => rfl)
  · rw [if_neg (not_mem_active hs hlive)]
  · intro j
    simp only [Allocator.interval, Notes.interval_place]
    split <;> rfl
  · intro m j hm
    rcases registers_of_set hm with hm | hm
    · injection hm with hm
      exact Or.inl hm.symm
    · exact Or.inr hm

theorem Activated.orderly (hi : i < s.notes.intervalCount) (h : Activated g t i s s') :
    s'.Orderly g := by
  cases h with
  | already => exact hs
  | free number filled n hlive hchoose hreload hfilled =>
      have hs₁ := hreload.orderly hs hi
      have hnumber : number < s.registers.length :=
        lt_of_mem_freeRegisters (mem_of_choose hchoose).1
      have hlive₁ : (n.interval i).liveIn = none := by
        rw [hreload.interval_eq]
        exact hlive
      have hi₁ : i < n.intervalCount := Nat.lt_of_lt_of_le hi hreload.extends.count_le
      exact orderly_push hs₁ hi₁ hlive₁ ⟨by omega, by exact_mod_cast hnumber⟩ filled
  | evicted use v reg k s₁ hlive hchoose huse hvictim hspill hk =>
      have hv : v ∈ s.active := mem_active_of_victim hvictim
      have hext := extends_spill hspill
      obtain ⟨-, -, hs₁, hreg⟩ := spill_active hs (hs.active_lt v hv) hspill
      have hlive₁ : (s₁.interval i).liveIn = none := by
        obtain ⟨use', k', rest, -, -, -, -, rfl⟩ := spill_cases hspill
        simp only [Allocator.interval, interval_spillNotes, Notes.interval_place]
        split
        · rfl
        · exact hlive
      rw [← hext.size_eq] at hreg
      exact orderly_push hs₁ (Nat.lt_of_lt_of_le hi hext.count_le) hlive₁ hreg k

theorem clearFor_orderly {reg : Int} (h : clearFor g t reg s = .ok () s') : s'.Orderly g := by
  obtain ⟨k, -, ⟨-, rfl⟩ | ⟨j, hj, ⟨htemp, rest, hrest, rfl⟩ | ⟨-, old, hspill⟩⟩⟩ :=
    clearFor_cases h
  · exact hs
  · have hcontent : s.registers[k]? = some (some j) := Option.join_eq_some_iff.mp hj
    have hlt := hs.occupied_lt k j hcontent
    obtain ⟨-, rfl⟩ := removeAlike_active hs hlt hrest
    have hslots := (hs.isTemp_iff hlt).mp htemp
    exact
      { toOwned := ⟨hs.slots_eq, hs.slots_le, hs.owner_slot, hs.owner_temp⟩
        active_nodup := hs.active_nodup.erase j
        active_lt := fun m hm => hs.active_lt m (List.mem_of_mem_erase hm)
        active_live := fun m hm => hs.active_live m (List.mem_of_mem_erase hm)
        slot_active := by
          intro m r hm hr
          refine hs.active_nodup.mem_erase_iff.mpr ⟨?_, hs.slot_active m r hm hr⟩
          rintro rfl
          exact absurd hslots (Nat.not_le_of_lt hm)
        live_range := hs.live_range
        occupied_lt := hs.occupied_lt
        spill_lt := hs.spill_lt
        restore_lt := hs.restore_lt }
  · have hcontent : s.registers[k]? = some (some j) := Option.join_eq_some_iff.mp hj
    exact (spill_active hs (hs.occupied_lt k j hcontent) hspill).2.2.1

theorem settle_orderly (hi : i < s.slots.length) {reg : Int} (hreg : 0 ≤ reg)
    (h : settle g t i reg s = .ok () s') : s'.Orderly g := by
  obtain ⟨s₁, s₂, k, hclear, hunseated, hk, rfl⟩ := settle_cases h
  have hext := extends_clearFor hclear
  have hs₁ := clearFor_orderly hs hclear
  rw [← hext.slots_eq] at hi
  have hlt : i < s₁.notes.intervalCount := Nat.lt_of_lt_of_le hi hs₁.slots_le
  have hplaced := hunseated.extends.trans (extends_seat s₂ i (some reg) k)
  cases hunseated with
  | entered hlive =>
      exact orderly_push hs₁ hlt hlive ⟨hreg, (resolve_cases hreg hk).2⟩ k
  | @moved old m log hlive hm =>
      have hactive : i ∈ s₁.active := hs₁.slot_active i old hi hlive
      have hsize : reg < s₁.registers.length := by
        simpa using (resolve_cases hreg hk).2
      have hrange : 0 ≤ reg ∧ reg < s₁.registers.length := ⟨hreg, hsize⟩
      refine hs₁.seat (i := i) hplaced hlt hrange rfl ?_ ?_ ?_ (fun _ => rfl)
      · rw [if_pos hactive]
      · intro j
        simp only [Allocator.interval, Notes.interval_place]
        split <;> rfl
      · intro l j hl
        rcases registers_of_set hl with hl | hl
        · injection hl with hl
          exact Or.inl hl.symm
        · exact Or.inr (registers_of_set_none hl)

/-- A move keeps an orderly state orderly, provided that a stored value has a register. -/
theorem Move.orderly {phase : Phase} (hsubtrees : ∀ u ∈ t.subtrees, 0 ≤ s.notes.reg u)
    (h : Move g t phase s s') : s'.Orderly g := by
  have hext := h.extends
  cases h with
  | turn _ tree reuse => exact hs.turn tree reuse
  | release hsifted => exact hsifted.orderly hs
  | carrySpill sp reg k rest hsp hlive hrest hk =>
      obtain ⟨-, rfl⟩ := removeAlike_active hs (hs.spill_lt t sp hsp) hrest
      refine hs.retire (i := sp.interval) hext rfl rfl ?_ ?_ hs.spill_lt hs.restore_lt
      · intro j
        simp only [Allocator.interval, Notes.interval_place]
        split <;> rfl
      · intro m j hm
        exact registers_of_set_none hm
  | annotate f hindex hspills hrestores hreg =>
      refine hs.of_notes_eq hext rfl (fun _ => rfl) ?_ ?_
      · intro u sp hsp
        rw [Notes.tree_modifyTree] at hsp
        split at hsp
        · next htu =>
            have hrow : s.notes.tree u = s.notes.tree t := by rw [Notes.tree, Notes.tree, htu]
            rw [hrow, hspills] at hsp
            exact hs.spill_lt t sp hsp
        · exact hs.spill_lt u sp hsp
      · intro u r hr
        rw [Notes.tree_modifyTree] at hr
        split at hr
        · next htu =>
            have hrow : s.notes.tree u = s.notes.tree t := by rw [Notes.tree, Notes.tree, htu]
            rw [hrow] at hr
            obtain ⟨q, hq, hqr⟩ : ∃ q ∈ (s.notes.tree t).restores, q.interval = r.interval := by
              rw [exists_restore_iff, ← hrestores]
              exact List.mem_map_of_mem hr
            exact hqr ▸ hs.restore_lt t q hq
        · exact hs.restore_lt u r hr
  | create p hparent =>
      have hlive : ∀ j r, ((s.notes.addInterval (tempOf s.notes t p)).interval j).liveIn = some r →
          (s.interval j).liveIn = some r := by
        intro j r hr
        rw [Notes.interval_addInterval] at hr
        split at hr
        · cases hr
        · exact hr
      have hle : ∀ {m : Nat}, m < s.notes.intervalCount →
          m < (s.notes.addInterval (tempOf s.notes t p)).intervalCount :=
        fun hm => Nat.lt_succ_of_lt hm
      exact
        { toOwned := hs.toOwned.create hparent
          active_nodup := hs.active_nodup
          active_lt := fun j hj => hle (hs.active_lt j hj)
          active_live := by
            intro j hj
            obtain ⟨r, hr⟩ := hs.active_live j hj
            refine ⟨r, ?_⟩
            rw [Allocator.interval, Notes.interval_addInterval,
              if_neg (Nat.ne_of_gt (hs.active_lt j hj))]
            exact hr
          slot_active := fun j r hj hr => hs.slot_active j r hj (hlive j r hr)
          live_range := fun j r hr => hs.live_range j r (hlive j r hr)
          occupied_lt := fun k j hj => hle (hs.occupied_lt k j hj)
          spill_lt := fun u sp hsp => hle (hs.spill_lt u sp hsp)
          restore_lt := fun u r hr => hle (hs.restore_lt u r hr) }
  | settle i value rest hkind hslot hvalue hlive hsettle =>
      refine settle_orderly hs (hs.slotOf_lt hslot) (hsubtrees value ?_) hsettle
      simp [hvalue]

end

/-! ## Registers of results -/

theorem reg_spill {reg : Int} (h : spill g t i s = .ok reg s') (u : Tree) :
    s'.notes.reg u = s.notes.reg u := by
  obtain ⟨use, k, rest, -, -, -, -, rfl⟩ := spill_cases h
  simp

theorem Activated.reg_eq (h : Activated g t i s s') (u : Tree) :
    s'.notes.reg u = s.notes.reg u := by
  cases h with
  | already => rfl
  | free number filled n hlive hchoose hreload hfilled =>
      rcases hreload.notes_cases with rfl | ⟨-, rfl⟩
      · rfl
      · simp only [Notes.reg, Notes.tree_place, Notes.addRestore, Notes.tree_modifyTree]
        split <;> rfl
  | evicted use v reg k s₁ hlive hchoose huse hvictim hspill hk => exact reg_spill hspill u

theorem reg_settle {reg : Int} (h : settle g t i reg s = .ok () s') (u : Tree) :
    s'.notes.reg u = s.notes.reg u := by
  obtain ⟨s₁, s₂, k, hclear, hunseated, hk, rfl⟩ := settle_cases h
  have hcleared : s₁.notes.reg u = s.notes.reg u := by
    obtain ⟨m, -, ⟨-, rfl⟩ | ⟨j, -, ⟨-, rest, -, rfl⟩ | ⟨-, old, hspill⟩⟩⟩ := clearFor_cases hclear
    · rfl
    · rfl
    · exact reg_spill hspill u
  cases hunseated with
  | moved => exact hcleared
  | entered => exact hcleared

/-- A result that has a register keeps having one. -/
theorem Move.reg_nonneg {phase : Phase} (hs : s.Orderly g) (h : Move g t phase s s') {u : Tree}
    (hu : 0 ≤ s.notes.reg u) : 0 ≤ s'.notes.reg u := by
  cases h with
  | turn _ tree reuse => exact hu
  | release hsifted =>
      obtain ⟨registers, -, rfl⟩ := hsifted.state_eq
      simpa [Notes.reg] using hu
  | carrySpill sp reg k rest hsp hlive hrest hk => exact hu
  | annotate f hindex hspills hrestores hreg =>
      rw [Notes.reg, Notes.tree_modifyTree]
      split
      · next htu =>
          have hrow : s.notes.tree u = s.notes.tree t := by rw [Notes.tree, Notes.tree, htu]
          rw [Notes.reg] at hu
          rw [hrow] at hu ⊢
          rcases hreg with hreg | ⟨j, hj⟩
          · rwa [hreg]
          · exact (hs.live_range j _ hj).1
      · exact hu
  | create p hparent => exact hu
  | settle i value rest hkind hslot hvalue hlive hsettle =>
      rwa [reg_settle hsettle]

/-- A sequence of moves keeps an orderly state orderly, provided that the values it
takes have registers. -/
theorem Moves.orderly {phase : Phase} {rs : List (Allocator × IntervalId)}
    (h : Moves g t phase rs s s')
    (hs : s.Orderly g) (hsubtrees : ∀ u ∈ t.subtrees, 0 ≤ s.notes.reg u) :
    s'.Orderly g ∧ ∀ u, 0 ≤ s.notes.reg u → 0 ≤ s'.notes.reg u := by
  induction h with
  | nil s => exact ⟨hs, fun _ hu => hu⟩
  | move hmove _ ih =>
      obtain ⟨hs', hregs⟩ := ih (hmove.orderly hs hsubtrees)
        fun u hu => hmove.reg_nonneg hs (hsubtrees u hu)
      exact ⟨hs', fun u hu => hregs u (hmove.reg_nonneg hs hu)⟩
  | activate hreq hactivated _ ih =>
      obtain ⟨hs', hregs⟩ := ih (hactivated.orderly hs (hreq.lt hs))
        fun u hu => (hactivated.reg_eq u).symm ▸ hsubtrees u hu
      exact ⟨hs', fun u hu => hregs u ((hactivated.reg_eq u).symm ▸ hu)⟩

end Alloc
end LinearScan
