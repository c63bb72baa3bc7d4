import LinearScan.Scan.Basic
import LinearScan.Proofs.Order
import LinearScan.Proofs.Orderly

/-!
# Where blocks start and end

What the steps do that stand between the scans of trees: the survey of the variables,
the start of a block, which empties the registers and puts in what a predecessor left,
and its end, which drops the temporaries and notes what is left.
-/

namespace LinearScan
namespace Alloc

open Allocator

variable {g : Graph} {b : BlockId} {s s' : Allocator}

/-! ## The start of a block -/

theorem forget_apply (is : List IntervalId) (s : Allocator) :
    forget is s = .ok () { s with notes := s.notes.evacuate is } := by
  induction is generalizing s with
  | nil => rfl
  | cons i is ih =>
      rw [forget, bind_apply_of_ok (setLiveIn_apply i none s), ih]
      rfl

/-- The state with empty registers. -/
def cleared (s : Allocator) : Allocator :=
  { s with
    registers := s.registers.map fun _ => none
    notes := s.notes.evacuate s.active
    active := [] }

theorem block_cleared (s : Allocator) (b c : BlockId) :
    (cleared { s with block := some b }).notes.block c = s.notes.block c := by
  simp [cleared]

theorem clear_apply (s : Allocator) : clear s = .ok () (cleared s) := by
  rw [clear, bind_apply_of_ok (modify_apply _ s), bind_apply_of_ok (get_apply _),
    bind_apply_of_ok (forget_apply _ _), modify_apply]
  rfl

/-- The state after intervals were put into the registers they come in. -/
inductive Seated : List Crossing → Allocator → Allocator → Prop
  | nil (s : Allocator) : Seated [] s s
  | cons {c : Crossing} {cs : List Crossing} {s s' : Allocator} {k : Nat}
      (hk : Position.resolve? s.registers.length c.reg = .ok k)
      (hrest : Seated cs
        { s with
          registers := s.registers.set k (some c.interval)
          notes := s.notes.place c.interval c.reg
          active := s.active ++ [c.interval] } s') :
      Seated (c :: cs) s s'

theorem seat_cases {cs : List Crossing} (h : seat cs s = .ok () s') : Seated cs s s' := by
  induction cs generalizing s with
  | nil =>
      obtain ⟨-, rfl⟩ := pure_cases h
      exact .nil s'
  | cons c cs ih =>
      obtain ⟨⟨⟩, s₁, hoccupy, hplace⟩ := exists_of_bind_apply_eq_ok h
      obtain ⟨k, hk, rfl⟩ := occupy_cases hoccupy
      obtain ⟨⟨⟩, s₁, hset, hpush⟩ := exists_of_bind_apply_eq_ok hplace
      obtain rfl := setLiveIn_cases hset
      obtain ⟨⟨⟩, s₁, hactive, hrest⟩ := exists_of_bind_apply_eq_ok hpush
      obtain rfl := pushActive_cases hactive
      exact .cons hk (ih hrest)

/-- The first exit set only depends on what is noted about blocks. -/
theorem firstExit_congr {n n' : Notes} (h : ∀ b, n'.block b = n.block b) (bs : List BlockId) :
    n'.firstExit bs = n.firstExit bs := by
  induction bs with
  | nil => rfl
  | cons b bs ih => simp only [Notes.firstExit, h, ih]

/-- Note that the block `b` starts with `crossings`. -/
def withEntry (n : Notes) (b : BlockId) (crossings : Crossings) : Notes :=
  n.modifyBlock b fun note => { note with entry := some crossings }

theorem enter_cases (h : enter b s = .ok () s') :
    ((s.notes.block b).predecessors = [] ∧ s' = cleared { s with block := some b }) ∨
      ∃ crossings s₁, (s.notes.block b).predecessors ≠ [] ∧
        s.notes.firstExit (s.notes.block b).predecessors = some crossings ∧
        Seated crossings.members (cleared { s with block := some b }) s₁ ∧
        s' = { s₁ with notes := withEntry s₁.notes b crossings } := by
  have hblock := block_cleared s b
  rw [enter, bind_apply_of_ok (modify_apply _ s), bind_apply_of_ok (clear_apply _)] at h
  have hbody := get_bind_cases h
  simp only [hblock, firstExit_congr hblock] at hbody
  cases hpredecessors : (s.notes.block b).predecessors with
  | nil =>
      simp only [hpredecessors] at hbody
      exact Or.inl ⟨rfl, (pure_cases hbody).2⟩
  | cons p ps =>
      simp only [hpredecessors] at hbody
      cases hexit : s.notes.firstExit (p :: ps) with
      | none =>
          simp only [hexit] at hbody
          cases hbody
      | some crossings =>
          simp only [hexit] at hbody
          obtain ⟨⟨⟩, s₁, hseat, hentry⟩ := exists_of_bind_apply_eq_ok hbody
          obtain rfl := modifyNotes_cases hentry
          exact Or.inr ⟨crossings, s₁, by simp, rfl, seat_cases hseat, rfl⟩

/-! ## The end of a block -/

theorem dropTemps_cases {is kept : List IntervalId} (h : dropTemps is s = .ok kept s') :
    Sifted (fun i => (s.interval i).owner.isTemp) is s kept s' := by
  induction is generalizing s kept with
  | nil =>
      obtain ⟨rfl, rfl⟩ := pure_cases h
      exact .nil _
  | cons i is ih =>
      have hbody := interval_bind_cases h
      cases htemp : (s.interval i).owner.isTemp with
      | true =>
          simp only [htemp, if_true] at hbody
          obtain ⟨⟨⟩, s₁, hoccupy, hplace⟩ := exists_of_bind_apply_eq_ok hbody
          obtain ⟨k, hk, rfl⟩ := occupy_cases hoccupy
          obtain ⟨⟨⟩, s₁, hset, hrest⟩ := exists_of_bind_apply_eq_ok hplace
          obtain rfl := setLiveIn_cases hset
          refine .drop htemp hk ?_
          simpa [Allocator.interval] using ih hrest
      | false =>
          simp only [htemp, Bool.false_eq_true, if_false] at hbody
          obtain ⟨rest, s₁, hrest, hpure⟩ := exists_of_bind_apply_eq_ok hbody
          obtain ⟨rfl, rfl⟩ := pure_cases hpure
          exact .keep htemp (ih hrest)

/-- The intervals with the registers that hold them. -/
def crossingsOf (n : Notes) (is : List IntervalId) : List Crossing :=
  is.map fun i => ⟨(n.interval i).liveIn, i⟩

theorem depart_cases (h : depart b s = .ok () s') :
    ∃ kept s₁, Sifted (fun i => (s.interval i).owner.isTemp) s.active s kept s₁ ∧
      s' = { s₁ with
        active := kept
        notes := s₁.notes.setExit b (crossingsOf s₁.notes kept) } := by
  obtain ⟨kept, s₁, hdrop, hset⟩ := exists_of_bind_apply_eq_ok (get_bind_cases h)
  injection hset with _ hset
  exact ⟨kept, s₁, dropTemps_cases hdrop, hset.symm⟩

theorem scanBlock_cases (h : scanBlock g b s = .ok () s') :
    ∃ s₁ s₂, enter b s = .ok () s₁ ∧ scanTrees g (g.treesOf b) s₁ = .ok () s₂ ∧
      depart b s₂ = .ok () s' := by
  obtain ⟨⟨⟩, s₁, henter, hrest⟩ := exists_of_bind_apply_eq_ok h
  obtain ⟨⟨⟩, s₂, htrees, hdepart⟩ := exists_of_bind_apply_eq_ok hrest
  exact ⟨s₁, s₂, henter, htrees, hdepart⟩

end Alloc
end LinearScan
