import LinearScan.Proofs.Eviction
import LinearScan.Proofs.Progress

/-!
# What a release does

A release goes through the active intervals once, empties the registers of those that are over
and drops them from the list.  `Allocator.Over` says when an interval is over, and
`Alloc.Released` what changes then, and that nothing else does.  If the file of registers, the
active list and the intervals agree about who lives where, a release returns and leaves them in
agreement, and a second one changes nothing.  With the registers of operands free for reuse it
releases at least what it releases without.
-/

namespace LinearScan

namespace Allocator

variable {s s' : Allocator} {pos : Nat} {i j : IntervalId} {k m : Nat}

/-- The state with reuse of the registers of operands switched on or off. -/
def withReuse (s : Allocator) (reuse : Bool) : Allocator :=
  { s with reuse }

/-- Whoever occupies a register lives there. -/
def Tenanted (s : Allocator) : Prop :=
  ∀ k j : Nat, s.registers[k]? = some (some j) → s.LivesIn j k

/-- At index `pos` the interval `i` is over: its last read has passed, or it is read for the last
time and its register may be reused, or it is written before it is next read, in the block that
is scanned. -/
def Over (s : Allocator) (pos : Nat) (i : IntervalId) : Prop :=
  (s.interval i).lastRead < pos ∨
    (s.reuse = true ∧ (s.interval i).lastRead = pos) ∨
    ∃ use write, s.notes.nextUse i pos = some use ∧ some use.block = s.block ∧
      s.notes.nextWrite i pos = some write ∧ s.notes.index write < s.notes.index use

theorem expired_iff : s.expired pos i = true ↔ s.Over pos i := by
  simp only [expired, Over, Bool.or_eq_true, Bool.and_eq_true, decide_eq_true_eq, beq_iff_eq,
    or_assoc]
  refine or_congr Iff.rfl (or_congr Iff.rfl ?_)
  cases s.notes.nextUse i pos with
  | none => simp
  | some use =>
      cases s.notes.nextWrite i pos with
      | none => simp
      | some write => simp

instance : DecidablePred (s.Over pos) :=
  fun _ => decidable_of_iff _ expired_iff

namespace Agreed

theorem livesIn_inj (hk : s.LivesIn i k) (hm : s.LivesIn i m) : k = m :=
  Except.ok.inj (hk.symm.trans hm)

/-- No two active intervals occupy the same register. -/
theorem eq_of_livesIn (hs : s.Agreed) (hi : i ∈ s.active) (hj : j ∈ s.active)
    (hik : s.LivesIn i k) (hjk : s.LivesIn j k) : i = j := by
  obtain ⟨m, him, hoccupied⟩ := (hs.active_iff i).mp hi
  obtain ⟨m', hjm, hoccupied'⟩ := (hs.active_iff j).mp hj
  rw [livesIn_inj him hik] at hoccupied
  rw [livesIn_inj hjm hjk, hoccupied] at hoccupied'
  injection hoccupied' with heq
  injection heq

end Agreed
end Allocator

namespace Notes

variable (n : Notes) (is : List IntervalId)

theorem interval_evacuate (j : IntervalId) :
    (n.evacuate is).interval j =
      if j ∈ is then { n.interval j with liveIn := none } else n.interval j := by
  induction is generalizing n with
  | nil => simp [evacuate]
  | cons i is ih =>
      rw [evacuate_cons, ih, interval_place]
      by_cases hij : i = j
      · simp [hij]
      · simp [hij, Ne.symm hij]

/-- Only intervals change. -/
theorem evacuate_eq : n.evacuate is = { n with intervals := (n.evacuate is).intervals } := by
  induction is generalizing n with
  | nil => rfl
  | cons i is ih =>
      rw [evacuate_cons, ih]
      rfl

end Notes

namespace Alloc

open Allocator

variable {s s' : Allocator} {t : Tree} {pos k : Nat} {i : IntervalId}
  {drop : IntervalId → Bool} {is kept : List IntervalId}

/-- `s'` is `s` after the release at index `pos`: of the active intervals those that are not over
are left, in their order, the registers of the others are empty, and these live in none. -/
structure Released (s : Allocator) (pos : Nat) (s' : Allocator) : Prop where
  size_eq : s'.registers.length = s.registers.length
  active_eq : s'.active = s.active.filter fun i => ¬ s.Over pos i
  cleared : ∀ i ∈ s.active, s.Over pos i → ∀ k, s.LivesIn i k → s'.registers[k]? = some none
  untouched : ∀ k : Nat, (∀ i ∈ s.active, s.Over pos i → ¬ s.LivesIn i k) →
    s'.registers[k]? = s.registers[k]?
  interval_eq : ∀ i, s'.interval i =
    if i ∈ s.active ∧ s.Over pos i then { s.interval i with liveIn := none } else s.interval i
  rest_eq : s' = { s with
    active := s'.active
    registers := s'.registers
    notes := { s.notes with intervals := s'.notes.intervals } }

/-- An empty register stays empty. -/
theorem Sifted.register_none (h : Sifted drop is s kept s') (hk : s.registers[k]? = some none) :
    s'.registers[k]? = some none := by
  induction h with
  | nil s => exact hk
  | drop _ _ _ ih =>
      apply ih
      rw [List.getElem?_set]
      split
      · next heq =>
          subst heq
          rw [if_pos (List.getElem?_eq_some_iff.mp hk).1]
      · exact hk
  | keep _ _ ih => exact ih hk

/-- The register of an interval that is dropped is emptied. -/
theorem Sifted.register_cleared (h : Sifted drop is s kept s') (hnodup : is.Nodup)
    (hi : i ∈ is) (hdrop : drop i = true) (hk : s.LivesIn i k) :
    s'.registers[k]? = some none := by
  induction h with
  | nil s => cases hi
  | @drop j is kept s s' m _ hm hrest ih =>
      obtain ⟨hj, hnodup⟩ := List.nodup_cons.mp hnodup
      rcases List.mem_cons.mp hi with rfl | hi
      · apply hrest.register_none
        rw [← Except.ok.inj (hk.symm.trans hm)]
        exact List.getElem?_set_self (Position.lt_of_resolve? hk)
      · have hji : j ≠ i := by
          rintro rfl
          exact hj hi
        refine ih hnodup hi ?_
        rw [LivesIn, List.length_set, Allocator.interval,
          s.notes.liveIn_place_of_ne j i none hji]
        exact hk
  | @keep j is kept s s' hkeep hrest ih =>
      rcases List.mem_cons.mp hi with rfl | hi
      · rw [hdrop] at hkeep
        cases hkeep
      · exact ih (List.nodup_cons.mp hnodup).2 hi hk

theorem Sifted.released (h : Sifted (s.expired pos) s.active s kept s') (hnodup : s.active.Nodup) :
    Released s pos { s' with active := kept } := by
  have hcleared := fun i k => h.register_cleared (i := i) (k := k) hnodup
  have huntouched := fun k => h.register_eq (k := k) hnodup
  have hkept := h.kept_eq
  obtain ⟨registers, hsize, rfl⟩ := h.state_eq
  refine ⟨hsize, ?_, ?_, ?_, ?_, ?_⟩
  · rw [hkept]
    refine List.filter_congr fun i _ => ?_
    rw [Bool.eq_iff_iff, Bool.not_eq_true', decide_eq_true_iff, ← expired_iff,
      Bool.not_eq_true]
  · intro i hi hover k hk
    exact hcleared i k hi (expired_iff.mpr hover) hk
  · intro k hlive
    exact huntouched k fun i hi hdrop => hlive i hi (expired_iff.mp hdrop)
  · intro i
    rw [Allocator.interval, Notes.interval_evacuate]
    simp only [List.mem_filter, expired_iff]
    rfl
  · exact congrArg (fun n => ({ s with active := kept, registers, notes := n } : Allocator))
      (s.notes.evacuate_eq _)

/-- From a state in agreement a release returns. -/
theorem exists_released (hs : s.Agreed) (t : Tree) :
    ∃ s', release t s = .ok () s' ∧ Released s (s.notes.index t) s' := by
  obtain ⟨⟨⟩, s', h⟩ : Returns (release t) s := by
    refine returns_release_of_resolve hs.nodup ?_
    intro i hi
    obtain ⟨k, hk, -⟩ := (hs.active_iff i).mp hi
    exact ⟨k, hk⟩
  obtain ⟨kept, s₁, hsifted, rfl⟩ := release_cases h
  exact ⟨_, h, hsifted.released hs.nodup⟩

namespace Released

section

variable (h : Released s pos s')
include h

theorem mem_active : i ∈ s'.active ↔ i ∈ s.active ∧ ¬ s.Over pos i := by
  rw [h.active_eq, List.mem_filter, decide_eq_true_iff]

theorem interval_of_not (hi : ¬ (i ∈ s.active ∧ s.Over pos i)) : s'.interval i = s.interval i := by
  rw [h.interval_eq, if_neg hi]

theorem livesIn_iff : s'.LivesIn i k ↔ ¬ (i ∈ s.active ∧ s.Over pos i) ∧ s.LivesIn i k := by
  rw [LivesIn, LivesIn, h.size_eq]
  by_cases hi : i ∈ s.active ∧ s.Over pos i
  · rw [h.interval_eq, if_pos hi]
    simp [hi, Position.resolve?]
  · rw [h.interval_of_not hi]
    simp [hi]

/-- A register that is still occupied was not emptied. -/
theorem not_livesIn {j : IntervalId} (hoccupied : s'.registers[k]? = some (some j))
    (hi : i ∈ s.active) (hover : s.Over pos i) : ¬ s.LivesIn i k := by
  intro hk
  rw [h.cleared i hi hover k hk] at hoccupied
  cases hoccupied

/-- The registers of the intervals that are kept are left alone. -/
theorem agreed (hs : s.Agreed) : s'.Agreed where
  active_iff i := by
    rw [h.mem_active]
    constructor
    · rintro ⟨hi, hover⟩
      obtain ⟨k, hk, hoccupied⟩ := (hs.active_iff i).mp hi
      refine ⟨k, h.livesIn_iff.mpr ⟨fun hi => hover hi.2, hk⟩, ?_⟩
      rw [h.untouched k, hoccupied]
      intro j hj hoverj hjk
      exact hover (hs.eq_of_livesIn hi hj hk hjk ▸ hoverj)
    · rintro ⟨k, hk, hoccupied⟩
      obtain ⟨hnot, hk⟩ := h.livesIn_iff.mp hk
      have hi : i ∈ s.active := by
        refine (hs.active_iff i).mpr ⟨k, hk, ?_⟩
        rwa [← h.untouched k fun j => h.not_livesIn hoccupied]
      exact ⟨hi, fun hover => hnot ⟨hi, hover⟩⟩
  distinct := by
    have hsub : s'.active.Sublist s.active := h.active_eq ▸ List.filter_sublist
    refine (hs.distinct.sublist hsub).imp_of_mem ?_
    intro i j hi hj hne
    rw [h.interval_of_not fun hi' => (h.mem_active.mp hi).2 hi'.2,
      h.interval_of_not fun hj' => (h.mem_active.mp hj).2 hj'.2]
    exact hne

theorem tenanted (hs : s.Tenanted) : s'.Tenanted := by
  intro k j hoccupied
  have hold : s.LivesIn j k := by
    apply hs
    rwa [← h.untouched k fun i => h.not_livesIn hoccupied]
  exact h.livesIn_iff.mpr ⟨fun hj => h.not_livesIn hoccupied hj.1 hj.2 hold, hold⟩

theorem index_eq : s'.notes.index = s.notes.index := by
  rw [h.rest_eq]
  rfl

/-- Whether an interval is over does not depend on where intervals live. -/
theorem over_iff (reuse : Bool) {pos' : Nat} :
    (s'.withReuse reuse).Over pos' i ↔ (s.withReuse reuse).Over pos' i := by
  have hlife : (s'.interval i).lastRead = (s.interval i).lastRead ∧
      (s'.interval i).uses = (s.interval i).uses ∧
      (s'.interval i).writes = (s.interval i).writes := by
    rw [h.interval_eq]
    split <;> exact ⟨rfl, rfl, rfl⟩
  have hblock : s'.block = s.block := by rw [h.rest_eq]
  obtain ⟨hlast, huses, hwrites⟩ := hlife
  rw [Allocator.interval, Allocator.interval] at hlast huses hwrites
  simp only [Over, withReuse, Allocator.interval, Notes.nextUse, Notes.nextWrite, hlast, huses,
    hwrites, h.index_eq, hblock]
  exact Iff.rfl

end

end Released

theorem releaseEach_of_forall_not_over (h : ∀ i ∈ is, ¬ s.Over pos i) :
    releaseEach pos is s = .ok is s := by
  induction is with
  | nil => rfl
  | cons i is ih =>
      have hexpired : s.expired pos i = false := by
        rw [← Bool.not_eq_true, expired_iff]
        exact h i (by simp)
      rw [releaseEach, bind_apply_of_ok (get_apply s), hexpired]
      simp only [Bool.false_eq_true, if_false]
      rw [bind_apply_of_ok (ih fun j hj => h j (by simp [hj]))]
      rfl

/-- A second release changes nothing. -/
theorem Released.release_again (h : Released s (s.notes.index t) s') :
    release t s' = .ok () s' := by
  have hreuse : s'.reuse = s.reuse := by rw [h.rest_eq]
  have hnone : ∀ i ∈ s'.active, ¬ s'.Over (s'.notes.index t) i := by
    intro i hi hover
    rw [h.index_eq] at hover
    have hover' := (h.over_iff s'.reuse).mp hover
    rw [hreuse] at hover'
    exact (h.mem_active.mp hi).2 hover'
  rw [release, bind_apply_of_ok (get_apply s'),
    bind_apply_of_ok (releaseEach_of_forall_not_over hnone)]
  rfl

/-! ## With and without the registers of operands -/

theorem over_of_not_reuse (h : (s.withReuse false).Over pos i) : (s.withReuse true).Over pos i := by
  rcases h with hlast | ⟨hreuse, -⟩ | hwritten
  · exact Or.inl hlast
  · cases hreuse
  · exact Or.inr (Or.inr hwritten)

theorem agreed_withReuse (hs : s.Agreed) (reuse : Bool) : (s.withReuse reuse).Agreed :=
  ⟨hs.active_iff, hs.distinct⟩

/-- The registers of operands may be released on their own, after the others: together this is
one release. -/
theorem Released.trans {s₁ : Allocator} (h : Released (s.withReuse false) pos s₁)
    (h' : Released (s₁.withReuse true) pos s') : Released (s.withReuse true) pos s' := by
  have hover : ∀ i, (s₁.withReuse true).Over pos i ↔ (s.withReuse true).Over pos i :=
    fun i => h.over_iff true
  have hmem : ∀ i, i ∈ s₁.active ↔ i ∈ s.active ∧ ¬ (s.withReuse false).Over pos i :=
    fun i => h.mem_active
  refine ⟨h'.size_eq.trans h.size_eq, ?_, ?_, ?_, ?_, ?_⟩
  · have hfirst : (s₁.withReuse true).active = _ := h.active_eq
    rw [h'.active_eq, hfirst, List.filter_filter]
    refine List.filter_congr fun i _ => ?_
    rw [Bool.eq_iff_iff, Bool.and_eq_true, decide_eq_true_iff, decide_eq_true_iff,
      decide_eq_true_iff, hover]
    exact ⟨And.left, fun hnot => ⟨hnot, fun hearly => hnot (over_of_not_reuse hearly)⟩⟩
  · intro i hi hlate k hk
    by_cases hearly : (s.withReuse false).Over pos i
    · have hnone : s₁.registers[k]? = some none := h.cleared i hi hearly k hk
      by_cases hagain : ∃ j ∈ s₁.active, (s₁.withReuse true).Over pos j ∧
          (s₁.withReuse true).LivesIn j k
      · obtain ⟨j, hj, hjover, hjk⟩ := hagain
        exact h'.cleared j hj hjover k hjk
      · rw [h'.untouched k fun j hj hjover hjk => hagain ⟨j, hj, hjover, hjk⟩]
        exact hnone
    · refine h'.cleared i ((hmem i).mpr ⟨hi, hearly⟩) ((hover i).mpr hlate) k ?_
      exact h.livesIn_iff.mpr ⟨fun hboth => hearly hboth.2, hk⟩
  · intro k hlive
    rw [h'.untouched k]
    · exact h.untouched k fun i hi hearly => hlive i hi (over_of_not_reuse hearly)
    · intro i hi hlate hk
      exact hlive i ((hmem i).mp hi).1 ((hover i).mp hlate) (h.livesIn_iff.mp hk).2
  · intro i
    have hfirst : (s₁.withReuse true).interval i = _ := h.interval_eq i
    have hlate : i ∈ (s₁.withReuse true).active ∧ (s₁.withReuse true).Over pos i ↔
        (i ∈ s.active ∧ ¬ (s.withReuse false).Over pos i) ∧ (s.withReuse true).Over pos i :=
      and_congr (hmem i) (hover i)
    have hearly : i ∈ (s.withReuse false).active ∧ (s.withReuse false).Over pos i →
        i ∈ s.active ∧ (s.withReuse true).Over pos i :=
      fun hi => ⟨hi.1, over_of_not_reuse hi.2⟩
    rw [h'.interval_eq, hfirst]
    by_cases hi : i ∈ (s.withReuse false).active ∧ (s.withReuse false).Over pos i
    · rw [if_pos hi, if_neg fun hagain => (hlate.mp hagain).1.2 hi.2]
      exact (if_pos (hearly hi)).symm
    · rw [if_neg hi]
      exact if_congr (hlate.trans ⟨fun hboth => ⟨hboth.1.1, hboth.2⟩,
        fun hboth => ⟨⟨hboth.1, fun hover => hi ⟨hboth.1, hover⟩⟩, hboth.2⟩⟩) rfl rfl
  · have hsecond := h'.rest_eq
    rw [h.rest_eq] at hsecond
    exact hsecond

/-- In a state whose records agree, the release at a tree returns with reuse and without.  Either
way it keeps the active intervals that are not over, in their order, empties the registers of the
others and changes nothing else; the records still agree, and releasing again changes nothing.
What it releases without reuse it also releases with, and the second release adds up with the
first. -/
theorem release_exact (hs : s.Agreed) (t : Tree) :
    ∃ after : Bool → Allocator,
      (∀ reuse, release t (s.withReuse reuse) = .ok () (after reuse) ∧
        Released (s.withReuse reuse) (s.notes.index t) (after reuse) ∧ (after reuse).Agreed ∧
        (s.Tenanted → (after reuse).Tenanted) ∧
        release t (after reuse) = .ok () (after reuse)) ∧
      (∀ i ∈ s.active, i ∉ (after false).active → i ∉ (after true).active) ∧
      ∃ s', release t ((after false).withReuse true) = .ok () s' ∧
        Released (s.withReuse true) (s.notes.index t) s' := by
  have hreturns : ∀ reuse, ∃ s', release t (s.withReuse reuse) = .ok () s' ∧
      Released (s.withReuse reuse) (s.notes.index t) s' :=
    fun reuse => exists_released (agreed_withReuse hs reuse) t
  choose after hafter using hreturns
  have hagreed : ∀ reuse, (after reuse).Agreed :=
    fun reuse => (hafter reuse).2.agreed (agreed_withReuse hs reuse)
  refine ⟨after, fun reuse => ?_, ?_, ?_⟩
  · exact ⟨(hafter reuse).1, (hafter reuse).2, hagreed reuse, (hafter reuse).2.tenanted,
      (hafter reuse).2.release_again⟩
  · intro i hi hdropped hkept
    refine (hafter true).2.mem_active.mp hkept |>.2 (over_of_not_reuse ?_)
    by_contra hnot
    exact hdropped ((hafter false).2.mem_active.mpr ⟨hi, hnot⟩)
  · obtain ⟨s', hrelease, hreleased⟩ := exists_released (agreed_withReuse (hagreed false) true) t
    have hindex : ((after false).withReuse true).notes.index t = s.notes.index t :=
      congrFun (hafter false).2.index_eq t
    rw [hindex] at hreleased
    exact ⟨s', hrelease, (hafter false).2.trans hreleased⟩

/-- The records that a scan keeps are such, up to the first request that slips: a release at the
end of any step returns, and drops what is over. -/
theorem release_of_mem_steps {p : Program} {settings : Settings} {k : Nat}
    (hslips : ∀ x ∈ (p.steps settings).take k, ¬ x.Slips) {x : Step}
    (hx : x ∈ (p.steps settings).take k) (t : Tree) :
    ∃ s', release t x.after = .ok () s' ∧ Released x.after (x.after.notes.index t) s' :=
  exists_released (((p.steps_steady settings).take_iff k).mpr hslips x hx).agreed t

end Alloc

namespace Samples

/-- Four registers, all of them occupied.  At index 2 the first interval has been read for the
last time, the second is read for the last time, the third is written at index 3 and read at
index 4, and the fourth is read at index 3. -/
def ageing : Allocator where
  notes := (((((({} : Notes).number 0
      [leaf 0 1, leaf 1 2, leaf 2 3, leaf 3 4, leaf 4 1]).addInterval
      { lastRead := 1, liveIn := some 1 }).addInterval
      { lastRead := 2, liveIn := some (-1) }).addInterval
      { uses := [leaf 4 1], writes := [leaf 3 4], lastRead := 9, liveIn := some 0 }).addInterval
      { uses := [leaf 3 4], lastRead := 9, liveIn := some 2 })
  registers := [some 2, some 0, some 3, some 1]
  active := [0, 1, 2, 3]
  block := some 0

theorem agreed_ageing : ageing.Agreed where
  active_iff := by
    intro (i : Nat)
    by_cases hi : i < 4
    · have hcases : i = 0 ∨ i = 1 ∨ i = 2 ∨ i = 3 := by omega
      rcases hcases with rfl | rfl | rfl | rfl
      · exact iff_of_true (by decide) ⟨1, rfl, rfl⟩
      · exact iff_of_true (by decide) ⟨3, rfl, rfl⟩
      · exact iff_of_true (by decide) ⟨0, rfl, rfl⟩
      · exact iff_of_true (by decide) ⟨2, rfl, rfl⟩
    · have hnone : ageing.interval i = default := by
        have hne : 0 ≠ i ∧ 1 ≠ i ∧ 2 ≠ i ∧ 3 ≠ i := by omega
        simp [ageing, Allocator.interval, Notes.interval, Notes.addInterval, Notes.number,
          Notes.modifyTree, Table.get_set, Table.get_empty, hne]
      refine iff_of_false ?_ ?_
      · intro hmem
        have hlt : ∀ j ∈ ageing.active, j < 4 := by decide
        exact hi (hlt i hmem)
      · rintro ⟨k, hk, -⟩
        rw [Allocator.LivesIn, hnone] at hk
        cases hk
  distinct := by decide +kernel

end Samples

/-- Without reuse the second interval is kept, with reuse it is released as well. -/
theorem Alloc.release_exact_ageing :
    Samples.ageing.Agreed ∧ ∃ after : Bool → Allocator,
      (∀ reuse, Alloc.release (Samples.leaf 2 3) (Samples.ageing.withReuse reuse) =
        .ok () (after reuse)) ∧
      (after false).active = [1, 3] ∧ (after true).active = [3] ∧
      (after true).registers[3]? = some none := by
  obtain ⟨after, hafter, -⟩ := Alloc.release_exact Samples.agreed_ageing (Samples.leaf 2 3)
  refine ⟨Samples.agreed_ageing, after, fun reuse => (hafter reuse).1, ?_, ?_, ?_⟩
  · rw [(hafter false).2.1.active_eq]
    decide +kernel
  · rw [(hafter true).2.1.active_eq]
    decide +kernel
  · refine (hafter true).2.1.cleared 1 (by decide) ?_ 3 rfl
    decide +kernel

end LinearScan
