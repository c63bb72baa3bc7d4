import LinearScan.Proofs.Recorded

/-!
# The register file

Three records say which interval is in which register: the file of registers, the active
list and the intervals themselves.  An activation that finds several empty registers may
note one of them and fill another.  We show that the records agree as long as that does not
happen, and that they disagree at the end of the scan of the tree at which it does.
-/

namespace LinearScan

open Allocator

/-! ## Agreement -/

/-- Each register is occupied by the active interval that lives there. -/
def Filed (registers : List (Option IntervalId)) (active : List IntervalId) (n : Notes) : Prop :=
  ∀ k i : Nat, registers[k]? = some (some i) ↔
    i ∈ active ∧ (n.interval i).liveIn = some (k : Int)

namespace Filed

variable {registers registers' : List (Option IntervalId)} {active active' : List IntervalId}
  {n n' : Notes} {i k : Nat}

section

variable (h : Filed registers active n)
include h

/-- Only contents, membership and the places of active intervals matter. -/
theorem congr (hregisters : ∀ k : Nat, registers'[k]? = registers[k]?)
    (hactive : ∀ i, i ∈ active' ↔ i ∈ active)
    (hlive : ∀ i ∈ active, (n'.interval i).liveIn = (n.interval i).liveIn) :
    Filed registers' active' n' := by
  intro k i
  rw [hregisters, hactive, h k i]
  constructor
  · rintro ⟨hi, hk⟩
    exact ⟨hi, (hlive i hi).trans hk⟩
  · rintro ⟨hi, hk⟩
    exact ⟨hi, (hlive i hi).symm.trans hk⟩

theorem set_none (hk : registers[k]? = some none) : Filed (registers.set k none) active n := by
  refine h.congr ?_ (fun _ => Iff.rfl) (fun _ _ => rfl)
  intro m
  by_cases hkm : k = m
  · subst hkm
    rw [List.getElem?_set_self (List.getElem?_eq_some_iff.mp hk).1, hk]
  · rw [List.getElem?_set_ne hkm]

/-- An interval leaves its register. -/
theorem retire (hnodup : active.Nodup) (hi : i ∈ active)
    (hlive : (n.interval i).liveIn = some (k : Int)) :
    Filed (registers.set k none) (active.erase i) (n.place i none) := by
  intro m j
  rw [hnodup.mem_erase_iff, Notes.interval_place]
  by_cases hji : i = j
  · subst hji
    rw [if_pos rfl]
    constructor
    · intro hm
      have hold := Alloc.registers_of_set_none hm
      -- The only register that `i` occupies is the one that was emptied.
      have hmk := ((h m i).mp hold).2
      rw [hlive] at hmk
      obtain rfl : k = m := Int.ofNat.inj (Option.some.inj hmk)
      rw [List.getElem?_set_self (List.getElem?_eq_some_iff.mp hold).1] at hm
      cases hm
    · rintro ⟨⟨hne, -⟩, -⟩
      exact absurd rfl hne
  · rw [if_neg hji]
    constructor
    · intro hm
      obtain ⟨hj, hjm⟩ := (h m j).mp (Alloc.registers_of_set_none hm)
      exact ⟨⟨Ne.symm hji, hj⟩, hjm⟩
    · rintro ⟨⟨-, hj⟩, hjm⟩
      have hold := (h m j).mpr ⟨hj, hjm⟩
      have hkm : k ≠ m := by
        rintro rfl
        have hk := (h k i).mpr ⟨hi, hlive⟩
        rw [hold] at hk
        injection hk with hk
        injection hk with hk
        exact hji hk.symm
      rwa [List.getElem?_set_ne hkm]

/-- An interval comes into an empty register. -/
theorem seat (hi : i ∉ active) (hk : registers[k]? = some none) :
    Filed (registers.set k (some i)) (active ++ [i]) (n.place i (some (k : Int))) := by
  have hlt := (List.getElem?_eq_some_iff.mp hk).1
  intro m j
  rw [List.mem_append, List.mem_singleton, Notes.interval_place]
  by_cases hji : i = j
  · subst hji
    rw [if_pos rfl]
    by_cases hkm : k = m
    · subst hkm
      simp [List.getElem?_set_self hlt]
    · rw [List.getElem?_set_ne hkm]
      constructor
      · intro hm
        exact absurd ((h m i).mp hm).1 hi
      · rintro ⟨-, hkm'⟩
        exact absurd (Int.ofNat.inj (Option.some.inj hkm')) hkm
  · rw [if_neg hji]
    have hmem : (j ∈ active ∨ j = i) ↔ j ∈ active := by
      constructor
      · rintro (hj | hj)
        · exact hj
        · exact absurd hj.symm hji
      · exact Or.inl
    rw [hmem]
    by_cases hkm : k = m
    · subst hkm
      rw [List.getElem?_set_self hlt]
      constructor
      · intro heq
        injection heq with heq
        injection heq with heq
        exact absurd heq hji
      · intro hj
        rw [(h k j).mpr hj] at hk
        cases hk
    · rw [List.getElem?_set_ne hkm]
      exact h m j

end

end Filed

namespace Allocator

/-- The three records agree, for a file of `size` registers. -/
structure Consistent (size : Int) (s : Allocator) : Prop where
  /-- Every active interval occupies the register it lives in. -/
  active_occupies : ∀ i ∈ s.active, ∃ k : Nat, (s.interval i).liveIn = some (k : Int) ∧
    (k : Int) < size ∧ s.registers[k]? = some (some i)
  /-- No two active intervals live in the same register. -/
  active_distinct : s.active.Pairwise fun i j => (s.interval i).liveIn ≠ (s.interval j).liveIn
  /-- A register is occupied by an active interval that lives there. -/
  occupant_active : ∀ k i : Nat, s.registers[k]? = some (some i) →
    i ∈ s.active ∧ (s.interval i).liveIn = some (k : Int)

/-- The register in which the interval `i` says that it lives is the one with number `k`. -/
def LivesIn (s : Allocator) (i : IntervalId) (k : Nat) : Prop :=
  Position.resolve? s.registers.length (s.interval i).liveIn = .ok k

/-- The active intervals are those that occupy the register in which they live, and no two of
them live in the same. -/
structure Agreed (s : Allocator) : Prop where
  active_iff : ∀ i, i ∈ s.active ↔ ∃ k, s.LivesIn i k ∧ s.registers[k]? = some (some i)
  distinct : s.active.Pairwise fun i j => (s.interval i).liveIn ≠ (s.interval j).liveIn

theorem Agreed.nodup {s : Allocator} (hs : s.Agreed) : s.active.Nodup := by
  refine hs.distinct.imp ?_
  rintro i j hne rfl
  exact hne rfl

/-- Where the three records are consistent, the active list is what the other two say. -/
theorem Consistent.agreed {size : Int} {s : Allocator} (hs : s.Consistent size) : s.Agreed := by
  have hlives : ∀ {i : IntervalId} {k : Nat}, (s.interval i).liveIn = some (k : Int) →
      s.registers[k]? = some (some i) → s.LivesIn i k := by
    intro i k hlive hoccupied
    obtain ⟨hlt, -⟩ := List.getElem?_eq_some_iff.mp hoccupied
    rw [LivesIn, hlive]
    exact Position.resolve_natCast hlt
  refine ⟨fun i => ⟨?_, ?_⟩, hs.active_distinct⟩
  · intro hi
    obtain ⟨k, hlive, -, hoccupied⟩ := hs.active_occupies i hi
    exact ⟨k, hlives hlive hoccupied, hoccupied⟩
  · rintro ⟨k, -, hoccupied⟩
    exact (hs.occupant_active k i hoccupied).1

/-- In an orderly state the records agree if the file does. -/
theorem Orderly.consistent_iff {g : Graph} {s : Allocator} {size : Int} (hs : s.Orderly g)
    (hsize : s.registers.length = size.toNat) :
    s.Consistent size ↔ Filed s.registers s.active s.notes := by
  constructor
  · intro h k i
    refine ⟨h.occupant_active k i, ?_⟩
    rintro ⟨hi, hk⟩
    obtain ⟨m, hm, -, hoccupied⟩ := h.active_occupies i hi
    have hkm : some (k : Int) = some (m : Int) := hk.symm.trans hm
    obtain rfl : k = m := Int.ofNat.inj (Option.some.inj hkm)
    exact hoccupied
  · intro h
    refine ⟨?_, ?_, fun k i hk => (h k i).mp hk⟩
    · intro i hi
      obtain ⟨r, hr⟩ := hs.active_live i hi
      obtain ⟨hnonneg, hlt⟩ := hs.live_range i r hr
      obtain ⟨k, rfl⟩ := Int.eq_ofNat_of_zero_le hnonneg
      exact ⟨k, hr, by omega, (h k i).mpr ⟨hi, hr⟩⟩
    · refine hs.active_nodup.imp_of_mem ?_
      intro i j hi hj hne heq
      obtain ⟨r, hr⟩ := hs.active_live i hi
      obtain ⟨k, rfl⟩ := Int.eq_ofNat_of_zero_le (hs.live_range i r hr).1
      have hik := (h k i).mpr ⟨hi, hr⟩
      have hjk := (h k j).mpr ⟨hj, heq.symm.trans hr⟩
      rw [hik] at hjk
      injection hjk with hjk
      injection hjk with hjk
      exact hne hjk

end Allocator

namespace Alloc

variable {g : Graph} {t : Tree} {s s' : Allocator} {i : Nat}

/-! ## Moves -/

theorem Sifted.filed {drop : IntervalId → Bool} {is kept kept₀ : List IntervalId}
    (h : Sifted drop is s kept s') (hnodup : (kept₀ ++ is).Nodup)
    (hlive : ∀ i ∈ is, ∃ k : Nat, (s.interval i).liveIn = some (k : Int))
    (hs : Filed s.registers (kept₀ ++ is) s.notes) :
    Filed s'.registers (kept₀ ++ kept) s'.notes := by
  induction h generalizing kept₀ with
  | nil s => exact hs
  | @drop i is kept s s' k hdrop hk hrest ih =>
      obtain ⟨m, hm⟩ := hlive i (by simp)
      obtain rfl : k = m := by
        rw [hm] at hk
        exact (resolve_natCast_cases hk).1
      have herase : (kept₀ ++ i :: is).erase i = kept₀ ++ is := by
        have hnot : i ∉ kept₀ := by
          intro hi
          exact (List.nodup_append.mp hnodup).2.2 i hi i (by simp) rfl
        rw [List.erase_append_right _ hnot, List.erase_cons_head]
      have hretired := hs.retire hnodup (i := i) (by simp) hm
      rw [herase] at hretired
      have hnodup' : (kept₀ ++ is).Nodup := by
        rw [← herase]
        exact hnodup.erase i
      refine ih hnodup' ?_ hretired
      intro j hj
      have hij : i ≠ j := by
        rintro rfl
        exact (List.nodup_cons.mp (List.nodup_append.mp hnodup).2.1).1 hj
      obtain ⟨r, hr⟩ := hlive j (by simp [hj])
      exact ⟨r, (s.notes.liveIn_place_of_ne i j none hij).trans hr⟩
  | @keep i is kept s s' hdrop hrest ih =>
      have hsplit : kept₀ ++ i :: is = (kept₀ ++ [i]) ++ is := by simp
      rw [hsplit] at hnodup hs
      have hfiled := ih hnodup (fun j hj => hlive j (by simp [hj])) hs
      simpa using hfiled

/-- Every active interval lives in a register, counted from zero. -/
theorem exists_liveIn_natCast (hs : s.Orderly g) (hi : i ∈ s.active) :
    ∃ k : Nat, (s.interval i).liveIn = some (k : Int) := by
  obtain ⟨r, hr⟩ := hs.active_live i hi
  obtain ⟨k, rfl⟩ := Int.eq_ofNat_of_zero_le (hs.live_range i r hr).1
  exact ⟨k, hr⟩

theorem release_filed {kept : List IntervalId} {drop : IntervalId → Bool}
    (h : Sifted drop s.active s kept s') (hs : s.Orderly g)
    (hfiled : Filed s.registers s.active s.notes) : Filed s'.registers kept s'.notes := by
  have hnodup : ([] ++ s.active).Nodup := hs.active_nodup
  exact h.filed hnodup (fun i hi => exists_liveIn_natCast hs hi) hfiled

theorem spill_filed (hs : s.Orderly g) (hi : i < s.notes.intervalCount) {reg : Int}
    (hfiled : Filed s.registers s.active s.notes) (h : spill g t i s = .ok reg s') :
    Filed s'.registers s'.active s'.notes ∧
      ∃ k : Nat, reg = k ∧ s'.registers[k]? = some none := by
  obtain ⟨hactive, hrest, -, hrange⟩ := spill_active hs hi h
  obtain ⟨use, k, rest, hlive, -, -, hk, rfl⟩ := spill_cases h
  obtain ⟨hkreg, hlt⟩ := resolve_cases hrange.1 hk
  subst hkreg
  have hlive' : (s.notes.interval i).liveIn = some (k : Int) := hlive
  have hretired := hfiled.retire hs.active_nodup hactive hlive'
  refine ⟨?_, k, rfl, ?_⟩
  · refine hretired.congr (fun _ => rfl) ?_ ?_
    · intro j
      rw [hrest]
    · intro j _
      rw [interval_spillNotes]
  · exact List.getElem?_set_self (by exact_mod_cast hlt)

/-- In the state of the request, `t` asks for an interval that is in no register, and the
empty register that is noted for it is not the one that is filled. -/
def Slips (t : Tree) (request : Allocator × IntervalId) : Prop :=
  (request.1.interval request.2).liveIn = none ∧
    ∃ number filled, request.1.choose (request.1.notes.index t) request.2 =
      .ok (some (number, filled)) ∧ number ≠ filled

instance (x : Except Fault (Option (Nat × Nat))) :
    Decidable (∃ number filled, x = .ok (some (number, filled)) ∧ number ≠ filled) :=
  match x with
  | .ok (some (number, filled)) => decidable_of_iff (number ≠ filled) (by simp)
  | .ok none => isFalse (by simp)
  | .error _ => isFalse (by simp)

instance (t : Tree) (request : Allocator × IntervalId) : Decidable (Slips t request) :=
  inferInstanceAs (Decidable (_ ∧ _))

theorem Activated.filed (hs : s.Orderly g) (hslips : ¬ Slips t (s, i))
    (hfiled : Filed s.registers s.active s.notes) (h : Activated g t i s s') :
    Filed s'.registers s'.active s'.notes := by
  cases h with
  | already => exact hfiled
  | free number filled n hlive hchoose hreload hfilled =>
      have hnumber : number = filled := by
        by_contra hne
        exact hslips ⟨hlive, number, filled, hchoose, hne⟩
      subst hnumber
      have hfree := mem_freeRegisters.mp (mem_of_choose hchoose).1
      have hnoted : Filed s.registers s.active n :=
        hfiled.congr (fun _ => rfl) (fun _ => Iff.rfl) fun j _ =>
          congrArg Interval.liveIn (hreload.interval_eq j)
      exact hnoted.seat (not_mem_active hs hlive) hfree
  | evicted use v reg k s₁ hlive hchoose huse hvictim hspill hk =>
      have hv := hs.active_lt v (mem_active_of_victim hvictim)
      obtain ⟨-, hrest, hs₁, -⟩ := spill_active hs hv hspill
      obtain ⟨hfiled₁, m, rfl, hempty⟩ := spill_filed hs hv hfiled hspill
      obtain ⟨rfl, -⟩ := resolve_natCast_cases hk
      refine hfiled₁.seat ?_ hempty
      rw [hrest]
      exact fun hmem => not_mem_active hs hlive (List.mem_of_mem_erase hmem)

/-- Whatever was in a register that a store takes over counts no longer: the register may
be taken as empty. -/
theorem clearFor_filed (hs : s.Orderly g) (hfiled : Filed s.registers s.active s.notes) {k : Nat}
    (h : clearFor g t (k : Int) s = .ok () s') :
    k < s'.registers.length ∧ Filed (s'.registers.set k none) s'.active s'.notes ∧
      ∀ i, (s.interval i).liveIn ≠ some (k : Int) →
        (s'.interval i).liveIn = (s.interval i).liveIn := by
  have hsize := (extends_clearFor h).size_eq
  obtain ⟨m, hm, hcases⟩ := clearFor_cases h
  obtain ⟨rfl, hlt⟩ := resolve_natCast_cases hm
  refine ⟨by omega, ?_⟩
  rcases hcases with ⟨hjoin, rfl⟩ | ⟨j, hj, ⟨-, rest, hrest, rfl⟩ | ⟨-, old, hspill⟩⟩
  · have hempty : s'.registers[m]? = some none := by
      rw [List.getElem?_eq_getElem hlt] at hjoin ⊢
      simpa using hjoin
    exact ⟨hfiled.set_none hempty, fun _ _ => rfl⟩
  · obtain ⟨hactive, hlive⟩ := (hfiled m j).mp (Option.join_eq_some_iff.mp hj)
    obtain ⟨-, rfl⟩ := removeAlike_active hs (hs.active_lt j hactive) hrest
    refine ⟨?_, fun _ _ => rfl⟩
    refine (hfiled.retire hs.active_nodup hactive hlive).congr (fun _ => rfl) (fun _ => Iff.rfl) ?_
    intro l hl
    have hne : j ≠ l := by
      rintro rfl
      exact (hs.active_nodup.mem_erase_iff.mp hl).1 rfl
    exact (s.notes.liveIn_place_of_ne j l none hne).symm
  · obtain ⟨hactive, hlive⟩ := (hfiled m j).mp (Option.join_eq_some_iff.mp hj)
    obtain ⟨hfiled', k, hold, hempty⟩ :=
      spill_filed hs (hs.active_lt j hactive) hfiled hspill
    obtain ⟨use, k', rest, hlive', -, -, -, rfl⟩ := spill_cases hspill
    obtain rfl : m = k := by
      have hmk : some (m : Int) = some (k : Int) := by rw [← hold, ← hlive', ← hlive]; rfl
      exact Int.ofNat.inj (Option.some.inj hmk)
    refine ⟨hfiled'.set_none hempty, ?_⟩
    intro i hi
    have hne : j ≠ i := by
      rintro rfl
      exact hi hlive
    rw [Allocator.interval, interval_spillNotes]
    exact s.notes.liveIn_place_of_ne j i none hne

theorem settle_filed (hs : s.Orderly g) (hi : i < s.slots.length) {reg : Int} (hreg : 0 ≤ reg)
    (hlive : (s.interval i).liveIn ≠ some reg) (hfiled : Filed s.registers s.active s.notes)
    (h : settle g t i reg s = .ok () s') : Filed s'.registers s'.active s'.notes := by
  obtain ⟨k, rfl⟩ := Int.eq_ofNat_of_zero_le hreg
  obtain ⟨s₁, s₂, m, hclear, hunseated, hm, rfl⟩ := settle_cases h
  obtain ⟨rfl, -⟩ := resolve_natCast_cases hm
  have hs₁ := clearFor_orderly hs hclear
  obtain ⟨hlt, hfiled₁, hsame⟩ := clearFor_filed hs hfiled hclear
  rw [← (extends_clearFor hclear).slots_eq] at hi
  cases hunseated with
  | entered hnone =>
      have hseated := hfiled₁.seat (not_mem_active hs₁ hnone) (List.getElem?_set_self hlt)
      rwa [List.set_set] at hseated
  | @moved old l log hold hl =>
      obtain ⟨r, rfl⟩ := Int.eq_ofNat_of_zero_le (hs₁.live_range i old hold).1
      obtain ⟨rfl, -⟩ := resolve_natCast_cases hl
      have hne : l ≠ m := by
        rintro rfl
        exact hlive ((hsame i hlive).symm.trans hold)
      have hactive : i ∈ s₁.active := hs₁.slot_active i l hi hold
      have hretired := hfiled₁.retire hs₁.active_nodup hactive hold
      have hempty : ((s₁.registers.set m none).set l none)[m]? = some none := by
        rw [List.getElem?_set_ne hne, List.getElem?_set_self hlt]
      have hnot : i ∉ s₁.active.erase i := hs₁.active_nodup.not_mem_erase
      refine (hretired.seat hnot hempty).congr ?_ ?_ ?_
      · intro q
        rw [List.set_comm none none (Ne.symm hne), List.set_set]
      · intro j
        rw [List.mem_append, List.mem_singleton, hs₁.active_nodup.mem_erase_iff]
        by_cases hji : j = i
        · simp [hji, hactive]
        · simp [hji]
      · intro j _
        simp only [Notes.interval_place]
        split <;> rfl

/-- A move keeps the records in agreement. -/
theorem Move.filed {phase : Phase} (hs : s.Orderly g)
    (hsubtrees : ∀ u ∈ t.subtrees, 0 ≤ s.notes.reg u)
    (hfiled : Filed s.registers s.active s.notes) (h : Move g t phase s s') :
    Filed s'.registers s'.active s'.notes := by
  cases h with
  | turn _ tree reuse => exact hfiled
  | release hsifted =>
      have hreleased := release_filed hsifted hs hfiled
      exact hreleased
  | carrySpill sp reg k rest hsp hlive hrest hk =>
      obtain ⟨hactive, rfl⟩ := removeAlike_active hs (hs.spill_lt t sp hsp) hrest
      obtain ⟨rfl, -⟩ := resolve_cases (hs.live_range _ reg hlive).1 hk
      exact hfiled.retire hs.active_nodup hactive hlive
  | annotate f hindex hspills hrestores hreg => exact hfiled
  | create p hparent =>
      refine hfiled.congr (fun _ => rfl) (fun _ => Iff.rfl) ?_
      intro i hi
      rw [Notes.interval_addInterval, if_neg (Nat.ne_of_gt (hs.active_lt i hi))]
  | settle i value rest hkind hslot hvalue hlive hsettle =>
      exact settle_filed hs (hs.slotOf_lt hslot) (hsubtrees value (by simp [hvalue])) hlive hfiled
        hsettle

/-! ## What a slip leaves behind -/

/-- The register `k` is occupied, and no active interval lives in it. -/
def Orphaned (k : Nat) (s : Allocator) : Prop :=
  (∃ i, s.registers[k]? = some (some i)) ∧ ∀ j ∈ s.active, (s.interval j).liveIn ≠ some (k : Int)

theorem Orphaned.not_filed {k : Nat} (h : Orphaned k s) :
    ¬ Filed s.registers s.active s.notes := by
  intro hfiled
  obtain ⟨⟨i, hi⟩, hactive⟩ := h
  obtain ⟨hmem, hlive⟩ := (hfiled k i).mp hi
  exact hactive i hmem hlive

/-- A register that is emptied is one in which an active interval lived. -/
theorem Orphaned.ne_of_live {k m : Nat} (h : Orphaned k s) (hi : i ∈ s.active)
    (hlive : (s.interval i).liveIn = some (m : Int)) : m ≠ k := by
  rintro rfl
  exact h.2 i hi hlive

/-- A register in which none of the dropped intervals lives keeps its content. -/
theorem Sifted.register_eq {drop : IntervalId → Bool} {is kept : List IntervalId} {k : Nat}
    (h : Sifted drop is s kept s') (hnodup : is.Nodup)
    (hlive : ∀ i ∈ is, drop i = true →
      Position.resolve? s.registers.length (s.interval i).liveIn ≠ .ok k) :
    s'.registers[k]? = s.registers[k]? := by
  induction h with
  | nil s => rfl
  | @drop i is kept s s' m hdrop hm hrest ih =>
      obtain ⟨hi, hnodup⟩ := List.nodup_cons.mp hnodup
      have hne : m ≠ k := by
        rintro rfl
        exact hlive i (by simp) hdrop hm
      rw [ih hnodup ?_, List.getElem?_set_ne hne]
      intro j hj hdropj hk
      have hij : i ≠ j := by
        rintro rfl
        exact hi hj
      refine hlive j (by simp [hj]) hdropj ?_
      rwa [List.length_set, Allocator.interval, s.notes.liveIn_place_of_ne i j none hij] at hk
  | keep hdrop hrest ih =>
      exact ih (List.nodup_cons.mp hnodup).2 fun j hj => hlive j (by simp [hj])

/-- A spill leaves an orphaned register alone. -/
theorem spill_orphaned (hs : s.Orderly g) (hi : i < s.notes.intervalCount) {reg : Int} {k : Nat}
    (horphaned : Orphaned k s) (h : spill g t i s = .ok reg s') :
    Orphaned k s' ∧ ∃ m : Nat, reg = m ∧ m ≠ k := by
  obtain ⟨hactive, hrest, -, hrange⟩ := spill_active hs hi h
  obtain ⟨use, m, rest, hlive, -, -, hm, rfl⟩ := spill_cases h
  obtain ⟨rfl, -⟩ := resolve_cases hrange.1 hm
  have hne : m ≠ k := horphaned.ne_of_live hactive hlive
  refine ⟨⟨?_, ?_⟩, m, rfl, hne⟩
  · rw [List.getElem?_set_ne hne]
    exact horphaned.1
  · intro j hj hjk
    rw [hrest, hs.active_nodup.mem_erase_iff] at hj
    rw [Allocator.interval, interval_spillNotes,
      s.notes.liveIn_place_of_ne i j none (Ne.symm hj.1)] at hjk
    exact horphaned.2 j hj.2 hjk

/-- An interval that comes into other registers leaves an orphaned register alone. -/
theorem orphaned_push {k m f : Nat} (horphaned : Orphaned k s) (hm : m ≠ k) (hf : f ≠ k) :
    Orphaned k { s with
      notes := s.notes.place i (some (m : Int))
      registers := s.registers.set f (some i)
      active := s.active ++ [i] } := by
  refine ⟨?_, ?_⟩
  · rw [List.getElem?_set_ne hf]
    exact horphaned.1
  · intro j hj hjk
    by_cases hij : i = j
    · rw [Allocator.interval, hij, Notes.liveIn_place_self] at hjk
      exact hm (Int.ofNat.inj (Option.some.inj hjk))
    · rw [Allocator.interval, s.notes.liveIn_place_of_ne i j _ hij] at hjk
      rcases List.mem_append.mp hj with hj | hj
      · exact horphaned.2 j hj hjk
      · exact hij (List.mem_singleton.mp hj).symm

/-- A slip fills a register in which no interval lives. -/
theorem Activated.orphans (hslips : Slips t (s, i))
    (hfiled : Filed s.registers s.active s.notes) (h : Activated g t i s s') :
    ∃ k, Orphaned k s' := by
  obtain ⟨hnone, number, filled, hchoose, hne⟩ := hslips
  dsimp only at hnone hchoose
  cases h with
  | already reg hlive =>
      rw [hnone] at hlive
      cases hlive
  | evicted use v reg k s₁ hlive hchoose' =>
      rw [hchoose] at hchoose'
      cases hchoose'
  | free number' filled' n hlive hchoose' hreload hfilled =>
      rw [hchoose] at hchoose'
      simp only [Except.ok.injEq, Option.some.injEq, Prod.mk.injEq] at hchoose'
      obtain ⟨rfl, rfl⟩ := hchoose'
      have hempty := mem_freeRegisters.mp (mem_of_choose hchoose).2
      refine ⟨filled, ⟨i, List.getElem?_set_self hfilled⟩, ?_⟩
      intro j hj hjk
      by_cases hij : i = j
      · rw [Allocator.interval, hij, Notes.liveIn_place_self] at hjk
        exact hne (Int.ofNat.inj (Option.some.inj hjk))
      · rw [Allocator.interval, n.liveIn_place_of_ne i j _ hij, hreload.interval_eq] at hjk
        rcases List.mem_append.mp hj with hj | hj
        · rw [(hfiled filled j).mpr ⟨hj, hjk⟩] at hempty
          cases hempty
        · exact hij (List.mem_singleton.mp hj).symm

theorem Activated.orphaned (hs : s.Orderly g) {k : Nat} (horphaned : Orphaned k s)
    (h : Activated g t i s s') : Orphaned k s' := by
  cases h with
  | already => exact horphaned
  | free number filled n hlive hchoose hreload hfilled =>
      obtain ⟨hnumber, hfill⟩ := mem_of_choose hchoose
      have hne : ∀ m, m ∈ s.freeRegisters → m ≠ k := by
        rintro m hm rfl
        obtain ⟨j, hj⟩ := horphaned.1
        rw [mem_freeRegisters.mp hm] at hj
        cases hj
      have hnoted : Orphaned k { s with notes := n } :=
        ⟨horphaned.1, fun j hj hjk =>
          horphaned.2 j hj ((congrArg Interval.liveIn (hreload.interval_eq j)).symm.trans hjk)⟩
      have hpushed := orphaned_push (i := i) hnoted (hne number hnumber) (hne filled hfill)
      exact hpushed
  | evicted use v reg m s₁ hlive hchoose huse hvictim hspill hm =>
      have hv := hs.active_lt v (mem_active_of_victim hvictim)
      obtain ⟨horphaned₁, l, rfl, hne⟩ := spill_orphaned hs hv horphaned hspill
      obtain ⟨rfl, -⟩ := resolve_natCast_cases hm
      have hpushed := orphaned_push (i := i) horphaned₁ hne hne
      exact hpushed

theorem Move.orphaned {phase : Phase} (hs : s.Orderly g) (hkind : t.kind ≠ .stLocal) {k : Nat}
    (horphaned : Orphaned k s) (h : Move g t phase s s') : Orphaned k s' := by
  cases h with
  | turn _ tree reuse => exact horphaned
  | release hsifted =>
      have hkept := hsifted.kept_eq
      have hregister := hsifted.register_eq (k := k) hs.active_nodup fun i hi _ hk => by
        obtain ⟨m, hm⟩ := exists_liveIn_natCast hs hi
        rw [hm] at hk
        exact horphaned.ne_of_live hi hm (resolve_natCast_cases hk).1.symm
      obtain ⟨registers, -, rfl⟩ := hsifted.state_eq
      refine ⟨by rw [hregister]; exact horphaned.1, ?_⟩
      intro j hj hjk
      rw [hkept, List.mem_filter] at hj
      rw [Allocator.interval, Notes.liveIn_evacuate] at hjk
      split at hjk
      · cases hjk
      · exact horphaned.2 j hj.1 hjk
  | carrySpill sp reg m rest hsp hlive hrest hm =>
      obtain ⟨hactive, rfl⟩ := removeAlike_active hs (hs.spill_lt t sp hsp) hrest
      obtain ⟨rfl, -⟩ := resolve_cases (hs.live_range _ reg hlive).1 hm
      have hne : m ≠ k := horphaned.ne_of_live hactive hlive
      refine ⟨by rw [List.getElem?_set_ne hne]; exact horphaned.1, ?_⟩
      intro j hj hjk
      rw [hs.active_nodup.mem_erase_iff] at hj
      rw [Allocator.interval, s.notes.liveIn_place_of_ne _ j none (Ne.symm hj.1)] at hjk
      exact horphaned.2 j hj.2 hjk
  | annotate f hindex hspills hrestores hreg => exact horphaned
  | create p hparent =>
      refine ⟨horphaned.1, ?_⟩
      intro j hj hjk
      rw [Allocator.interval, Notes.interval_addInterval,
        if_neg (Nat.ne_of_gt (hs.active_lt j hj))] at hjk
      exact horphaned.2 j hj hjk
  | settle i value rest hstore => exact absurd hstore hkind

namespace Moves

variable {phase : Phase} {rs : List (Allocator × IntervalId)}

section

variable (h : Moves g t phase rs s s') (hs : s.Orderly g)
  (hsubtrees : ∀ u ∈ t.subtrees, 0 ≤ s.notes.reg u)
include h hs hsubtrees

theorem orphaned (hkind : t.kind ≠ .stLocal) {k : Nat} (horphaned : Orphaned k s) :
    Orphaned k s' := by
  induction h with
  | nil s => exact horphaned
  | move hmove _ ih =>
      exact ih (hmove.orderly hs hsubtrees) (fun u hu => hmove.reg_nonneg hs (hsubtrees u hu))
        (hmove.orphaned hs hkind horphaned)
  | activate hreq hactivated _ ih =>
      refine ih (hactivated.orderly hs (hreq.lt hs)) ?_ (hactivated.orphaned hs horphaned)
      intro u hu
      rw [hactivated.reg_eq]
      exact hsubtrees u hu

/-- Agreement lasts as long as no request slips. -/
theorem filed (hslips : ∀ q ∈ rs, ¬ Slips t q) (hfiled : Filed s.registers s.active s.notes) :
    Filed s'.registers s'.active s'.notes := by
  induction h with
  | nil s => exact hfiled
  | move hmove _ ih =>
      exact ih (hmove.orderly hs hsubtrees) (fun u hu => hmove.reg_nonneg hs (hsubtrees u hu))
        hslips (hmove.filed hs hsubtrees hfiled)
  | activate hreq hactivated _ ih =>
      refine ih (hactivated.orderly hs (hreq.lt hs)) ?_ (fun q hq => hslips q (by simp [hq]))
        (hactivated.filed hs (hslips _ (by simp)) hfiled)
      intro u hu
      rw [hactivated.reg_eq]
      exact hsubtrees u hu

/-- After a slip a register stays orphaned. -/
theorem orphans (hkind : t.kind ≠ .stLocal) (hslips : ∃ q ∈ rs, Slips t q)
    (hfiled : Filed s.registers s.active s.notes) : ∃ k, Orphaned k s' := by
  induction h with
  | nil s =>
      obtain ⟨q, hq, -⟩ := hslips
      cases hq
  | move hmove _ ih =>
      exact ih (hmove.orderly hs hsubtrees) (fun u hu => hmove.reg_nonneg hs (hsubtrees u hu))
        hslips (hmove.filed hs hsubtrees hfiled)
  | @activate rs i s s₁ s' hreq hactivated hrest ih =>
      have hs₁ := hactivated.orderly hs (hreq.lt hs)
      have hsubtrees₁ : ∀ u ∈ t.subtrees, 0 ≤ s₁.notes.reg u := by
        intro u hu
        rw [hactivated.reg_eq]
        exact hsubtrees u hu
      by_cases hslip : Slips t (s, i)
      · obtain ⟨k, hk⟩ := hactivated.orphans hslip hfiled
        exact ⟨k, hrest.orphaned hs₁ hsubtrees₁ hkind hk⟩
      · refine ih hs₁ hsubtrees₁ ?_ (hactivated.filed hs hslip hfiled)
        obtain ⟨q, hq, hslipq⟩ := hslips
        rcases List.mem_cons.mp hq with rfl | hq
        · exact absurd hslipq hslip
        · exact ⟨q, hq, hslipq⟩

end

end Moves
end Alloc
end LinearScan
