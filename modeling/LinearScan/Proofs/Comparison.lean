import LinearScan.Alike
import LinearScan.Proofs.Steps
import Mathlib.Data.List.Basic

/-!
# Comparing intervals

Intervals are compared part by part, but among the intervals that an allocator makes
only the same interval is ever found alike: two local variables differ in their
owner, and two temporaries are compared through the places of their uses, which
refer back to the pair that is being compared.  Taking an interval off a list
therefore takes off that very interval, if it does not stop with a fault.
-/

namespace LinearScan

/-- Each local variable has one interval, and each temporary has a use. -/
structure Notes.Identified (n : Notes) : Prop where
  slot_inj : ∀ {i j : Nat} {k : Int}, i < n.intervalCount → j < n.intervalCount →
    (n.interval i).owner = .slot k → (n.interval j).owner = .slot k → i = j
  temp_uses : ∀ {i : Nat} {t : Tree}, i < n.intervalCount →
    (n.interval i).owner = .temp t → (n.interval i).uses ≠ []

section Compare

variable {g : Graph} {n : Notes} {i j : IntervalId}

/-- A pair of intervals that is being compared has no verdict. -/
theorem compareFrom_pending (hij : i ≠ j) (fuel : Nat) (pending : List (Entity × Entity)) :
    Entity.compareFrom g n fuel ((.interval i, .interval j) :: pending)
      (.interval i) (.interval j) = .circular := by
  cases fuel with
  | zero => rfl
  | succ fuel => simp [Entity.compareFrom, Entity.same, hij]

/-- Two intervals with as many uses have no verdict, since their first uses belong to them. -/
theorem compare_uses
    (hij : i ≠ j) (fuel : Nat) {uses : List Tree} (huses : uses ≠ []) (uses' : List Tree) :
    (Part.list (uses.map (Part.ofPlace "UsePos" i))).compare
      (Entity.compareFrom g n fuel [(.interval i, .interval j)])
      (Part.list (uses'.map (Part.ofPlace "UsePos" j))) =
        if uses.length = uses'.length then .circular else .different := by
  cases uses with
  | nil => exact absurd rfl huses
  | cons t uses =>
      cases uses' with
      | nil => simp [Part.compare]
      | cons t' uses' =>
          have hback := compareFrom_pending (g := g) (n := n) hij fuel []
          simp [Part.compareAll, Part.ofPlace, Part.compare, Part.compareFields, Part.ofInterval,
            hback]

/-- A variable is told apart from any other interval by the owners, which come first. -/
theorem alike_of_slot (howner : (n.interval i).owner ≠ (n.interval j).owner)
    (hslot : (n.interval i).owner.isTemp = false ∨ (n.interval j).owner.isTemp = false) :
    alike g n (.interval i) (.interval j) = .ok false := by
  have hij : i ≠ j := by
    rintro rfl
    exact howner rfl
  have hsame : (Entity.interval i).same (.interval j) = false := by
    simpa [Entity.same] using hij
  have hverdict : Entity.compare g n (.interval i) (.interval j) = .different := by
    rw [Entity.compare, Entity.compareFrom, hsame]
    simp only [Bool.false_eq_true, if_false, List.any_nil, Entity.record, Part.compare,
      Part.compareFields, if_true]
    cases hownerI : (n.interval i).owner with
    | slot k =>
        cases hownerJ : (n.interval j).owner with
        | slot l =>
            have hkl : k ≠ l := by
              rintro rfl
              exact howner (hownerI.trans hownerJ.symm)
            simp [Part.ofOwner, Part.compare, hkl]
        | temp u => simp [Part.ofOwner, Part.ofTree, Part.compare]
    | temp t =>
        cases hownerJ : (n.interval j).owner with
        | slot l => simp [Part.ofOwner, Part.ofTree, Part.compare]
        | temp u => simp [hownerI, hownerJ, Owner.isTemp] at hslot
  rw [alike, hverdict]

/-- Different intervals of an allocator are not found alike. -/
theorem alike_ne_true
    (hn : n.Identified) (hi : i < n.intervalCount) (hj : j < n.intervalCount) (hij : i ≠ j) :
    alike g n (.interval i) (.interval j) ≠ .ok true := by
  intro halike
  have hne_of_slot : ∀ k, (n.interval i).owner = .slot k → (n.interval j).owner ≠ .slot k :=
    fun k hownerI hownerJ => hij (hn.slot_inj hi hj hownerI hownerJ)
  cases hownerI : (n.interval i).owner with
  | slot k =>
      rw [alike_of_slot (by rw [hownerI]; exact (hne_of_slot k hownerI).symm)
        (Or.inl (by rw [hownerI]; rfl))] at halike
      cases halike
  | temp t =>
      cases hownerJ : (n.interval j).owner with
      | slot l =>
          rw [alike_of_slot (by simp [hownerI, hownerJ]) (Or.inr (by rw [hownerJ]; rfl))] at halike
          cases halike
      | temp u =>
          have hverdict : Entity.compare g n (.interval i) (.interval j) = .alike := by
            rw [alike] at halike
            split at halike
            · assumption
            · cases halike
            · cases halike
          have hsame : (Entity.interval i).same (.interval j) = false := by
            simpa [Entity.same] using hij
          rw [Entity.compare, Entity.compareFrom, hsame] at hverdict
          simp only [Bool.false_eq_true, if_false, List.any_nil, Entity.record, Part.compare,
            Part.compareFields, if_true] at hverdict
          -- The owners are the first parts, the uses the second ones.
          have huses := compare_uses (g := g) (n := n) hij
            (Entity.count g n * Entity.count g n) (hn.temp_uses hi hownerI) (n.interval j).uses
          split at hverdict
          · split at hverdict
            · next h =>
                have hne := huses.symm.trans h
                split at hne <;> cases hne
            · next h => exact h hverdict
          · next h => exact h hverdict

theorem alike_self : alike g n (.interval i) (.interval i) = .ok true := by
  simp [alike, Entity.compare, Entity.compareFrom, Entity.same]

/-- Taking an interval off a list takes off that very interval. -/
theorem removeAlike_cases
    (hn : n.Identified) (hi : i < n.intervalCount) {is rest : List IntervalId}
    (his : ∀ j ∈ is, j < n.intervalCount) (h : removeAlike g n i is = .ok rest) :
    i ∈ is ∧ rest = is.erase i := by
  induction is generalizing rest with
  | nil => cases h
  | cons j is ih =>
      obtain ⟨found, halike, h⟩ := exists_of_bind_eq_ok h
      by_cases hji : j = i
      · subst hji
        rw [alike_self] at halike
        injection halike with halike
        subst halike
        injection h with h
        simp [h]
      · have hfound : found = false := by
          by_contra hne
          rw [Bool.not_eq_false] at hne
          exact alike_ne_true hn (his j (by simp)) hi hji (hne ▸ halike)
        subst hfound
        obtain ⟨tail, htail, h⟩ := exists_of_bind_eq_ok h
        injection h with h
        obtain ⟨hmem, rfl⟩ := ih (fun m hm => his m (by simp [hm])) htail
        refine ⟨List.mem_cons_of_mem j hmem, ?_⟩
        rw [← h, List.erase_cons_tail (by simpa using hji)]

/-- An interval can be taken off a list if the others on it are told apart from it. -/
theorem removeAlike_of_mem {is : List IntervalId} (hi : i ∈ is)
    (hothers : ∀ j ∈ is, j ≠ i → alike g n (.interval j) (.interval i) = .ok false) :
    removeAlike g n i is = .ok (is.erase i) := by
  induction is with
  | nil => cases hi
  | cons j is ih =>
      by_cases hji : j = i
      · subst hji
        rw [removeAlike, alike_self, List.erase_cons_head]
        rfl
      · have hmem : i ∈ is := (List.mem_cons.mp hi).resolve_left (Ne.symm hji)
        rw [removeAlike, hothers j (by simp) hji,
          ih hmem fun k hk => hothers k (List.mem_cons_of_mem j hk),
          List.erase_cons_tail (by simpa using hji)]
        rfl

/-- A search for an interval among restores looks for that very interval. -/
theorem restoresAlike_cases
    (hn : n.Identified) (hi : i < n.intervalCount) {restores : List Restore} {found : Bool}
    (hrestores : ∀ r ∈ restores, r.interval < n.intervalCount)
    (h : restoresAlike g n i restores = .ok found) :
    found = true ↔ ∃ r ∈ restores, r.interval = i := by
  induction restores with
  | nil =>
      injection h with h
      simp [← h]
  | cons r restores ih =>
      obtain ⟨same, halike, h⟩ := exists_of_bind_eq_ok h
      by_cases hri : r.interval = i
      · rw [hri, alike_self] at halike
        injection halike with halike
        subst halike
        injection h with h
        simp [← h, hri]
      · have hsame : same = false := by
          by_contra hne
          rw [Bool.not_eq_false] at hne
          exact alike_ne_true hn (hrestores r (by simp)) hi hri (hne ▸ halike)
        subst hsame
        have hrest := ih (fun q hq => hrestores q (by simp [hq])) h
        simpa [hri] using hrest

end Compare
end LinearScan
