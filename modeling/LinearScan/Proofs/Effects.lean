import LinearScan.Scan.Step
import LinearScan.Proofs.Comparison

/-!
# What the steps of the allocator do

For each step that returned, the state it returned with.  Later modules only use
these equations and never look into a step again.
-/

namespace LinearScan

namespace Notes

/-- The notes when the interval `i` is in `reg`. -/
def place (n : Notes) (i : IntervalId) (reg : Option Int) : Notes :=
  n.modifyInterval i fun iv => { iv with liveIn := reg }

section Place

variable (n : Notes) (i j : IntervalId) (reg : Option Int)

theorem interval_place :
    (n.place i reg).interval j =
      if i = j then { n.interval j with liveIn := reg } else n.interval j :=
  n.interval_modifyInterval i j _

@[simp]
theorem liveIn_place_self : ((n.place i reg).interval i).liveIn = reg := by
  simp [interval_place]

theorem liveIn_place_of_ne (h : i ≠ j) :
    ((n.place i reg).interval j).liveIn = (n.interval j).liveIn := by
  simp [interval_place, h]

@[simp]
theorem owner_place : ((n.place i reg).interval j).owner = (n.interval j).owner := by
  rw [interval_place]
  split <;> rfl

@[simp]
theorem uses_place : ((n.place i reg).interval j).uses = (n.interval j).uses := by
  rw [interval_place]
  split <;> rfl

@[simp]
theorem writes_place : ((n.place i reg).interval j).writes = (n.interval j).writes := by
  rw [interval_place]
  split <;> rfl

@[simp]
theorem lastRead_place : ((n.place i reg).interval j).lastRead = (n.interval j).lastRead := by
  rw [interval_place]
  split <;> rfl

@[simp]
theorem tree_place (t : Tree) : (n.place i reg).tree t = n.tree t :=
  rfl

@[simp]
theorem block_place (b : BlockId) : (n.place i reg).block b = n.block b :=
  rfl

@[simp]
theorem intervalCount_place : (n.place i reg).intervalCount = n.intervalCount :=
  rfl

end Place

/-- The notes when none of the intervals `is` is in a register. -/
def evacuate (n : Notes) (is : List IntervalId) : Notes :=
  is.foldl (fun n i => n.place i none) n

section Evacuate

variable (n : Notes) (is : List IntervalId)

theorem evacuate_cons (i : IntervalId) :
    n.evacuate (i :: is) = (n.place i none).evacuate is :=
  rfl

theorem liveIn_evacuate (j : IntervalId) :
    ((n.evacuate is).interval j).liveIn = if j ∈ is then none else (n.interval j).liveIn := by
  induction is generalizing n with
  | nil => simp [evacuate]
  | cons i is ih =>
      rw [evacuate_cons, ih]
      by_cases hij : i = j
      · subst hij
        simp
      · simp [liveIn_place_of_ne n i j none hij, Ne.symm hij]

@[simp]
theorem tree_evacuate (t : Tree) : (n.evacuate is).tree t = n.tree t := by
  induction is generalizing n with
  | nil => rfl
  | cons i is ih => rw [evacuate_cons, ih, tree_place]

@[simp]
theorem intervalCount_evacuate : (n.evacuate is).intervalCount = n.intervalCount := by
  induction is generalizing n with
  | nil => rfl
  | cons i is ih => rw [evacuate_cons, ih, intervalCount_place]

@[simp]
theorem block_evacuate (b : BlockId) : (n.evacuate is).block b = n.block b := by
  induction is generalizing n with
  | nil => rfl
  | cons i is ih => rw [evacuate_cons, ih, block_place]

end Evacuate
end Notes

namespace Alloc

variable {g : Graph} {t : Tree} {i : IntervalId} {s s' : Allocator}

/-! ## Primitive steps -/

theorem ofExcept_cases {α : Type} {x : Except Fault α} {a : α}
    (h : ofExcept x s = .ok a s') : x = .ok a ∧ s' = s := by
  cases x with
  | error fault => cases h
  | ok b =>
      injection h with hb hs
      exact ⟨by rw [hb], hs.symm⟩

theorem occupy_cases {reg : Option Int} {content : Option IntervalId}
    (h : occupy reg content s = .ok () s') :
    ∃ k, Position.resolve? s.registers.length reg = .ok k ∧
      s' = { s with registers := s.registers.set k content } := by
  rw [occupy_apply] at h
  split at h
  · next k hk =>
      injection h with _ h
      exact ⟨k, hk, h.symm⟩
  · cases h

theorem dropActive_cases (h : dropActive g i s = .ok () s') :
    ∃ rest, removeAlike g s.notes i s.active = .ok rest ∧ s' = { s with active := rest } := by
  rw [dropActive_apply] at h
  split at h
  · next rest hrest =>
      injection h with _ h
      exact ⟨rest, hrest, h.symm⟩
  · cases h

theorem occupant_cases {reg : Option Int} {content : Option IntervalId}
    (h : occupant reg s = .ok content s') :
    ∃ k, Position.resolve? s.registers.length reg = .ok k ∧
      content = (s.registers[k]?).join ∧ s' = s := by
  obtain ⟨s₁, s₂, hget, h⟩ := exists_of_bind_apply_eq_ok h
  injection hget with hs₁ hs₂
  subst hs₁ hs₂
  obtain ⟨k, s₂, hk, h⟩ := exists_of_bind_apply_eq_ok h
  obtain ⟨hk, rfl⟩ := ofExcept_cases hk
  injection h with hcontent hs
  exact ⟨k, hk, hcontent.symm, hs.symm⟩

theorem interval_apply (i : IntervalId) (s : Allocator) :
    Alloc.interval i s = .ok (s.interval i) s :=
  rfl

theorem get_bind_cases {α : Type} {f : Allocator → Alloc α} {a : α}
    (h : (get >>= f) s = .ok a s') : f s s = .ok a s' :=
  h

theorem interval_bind_cases {α : Type} {f : Interval → Alloc α} {a : α}
    (h : (Alloc.interval i >>= f) s = .ok a s') : f (s.interval i) s = .ok a s' :=
  h

theorem setLiveIn_cases {reg : Option Int} (h : setLiveIn i reg s = .ok () s') :
    s' = { s with notes := s.notes.place i reg } := by
  injection h with _ h
  exact h.symm

theorem recordSpill_cases {spill : Spill} (h : recordSpill t spill s = .ok () s') :
    s' = { s with notes := s.notes.addSpill t spill } := by
  injection h with _ h
  exact h.symm

theorem recordRestore_cases {restore : Restore} (h : recordRestore t restore s = .ok () s') :
    s' = { s with notes := s.notes.addRestore t restore } := by
  injection h with _ h
  exact h.symm

theorem pushActive_cases (h : pushActive i s = .ok () s') :
    s' = { s with active := s.active ++ [i] } := by
  injection h with _ h
  exact h.symm

theorem modifyNotes_cases {f : Notes → Notes} (h : modifyNotes f s = .ok () s') :
    s' = { s with notes := f s.notes } := by
  injection h with _ h
  exact h.symm

/-! ## Spilling -/

/-- The notes after `i` was spilled from `reg` at the tree `t`.  A temporary is to be
restored at `use`. -/
def spillNotes (n : Notes) (t : Tree) (i : IntervalId) (reg : Int) (use : Option Tree) : Notes :=
  let n := n.addSpill t { reg := some reg, interval := i }
  let n :=
    match use with
    | some use => n.addRestore use { reg := some (-1), interval := i }
    | none => n
  n.place i none

theorem spill_cases {reg : Int} (h : spill g t i s = .ok reg s') :
    ∃ use k rest,
      (s.interval i).liveIn = some reg ∧
      (if (s.interval i).owner.isTemp then
        use = s.notes.nextUse i (s.notes.index t) ∧ use ≠ none else use = none) ∧
      removeAlike g (spillNotes s.notes t i reg use) i s.active = .ok rest ∧
      Position.resolve s.registers.length reg = .ok k ∧
      s' = { s with
        notes := spillNotes s.notes t i reg use
        active := rest
        registers := s.registers.set k none } := by
  have h := get_bind_cases h
  cases hlive : (s.interval i).liveIn with
  | none =>
      simp only [hlive] at h
      cases h
  | some old =>
      simp only [hlive] at h
      obtain ⟨⟨⟩, s₁, hspill, h⟩ := exists_of_bind_apply_eq_ok h
      obtain rfl := recordSpill_cases hspill
      have hend : ∀ (use : Option Tree) {s₁ : Allocator},
          s₁.notes.place i none = spillNotes s.notes t i old use →
          s₁ = { s with notes := s₁.notes } →
          (do
            setLiveIn i none
            dropActive g i
            occupy (some old) none
            return old : Alloc Int) s₁ = .ok reg s' →
          ∃ k rest, old = reg ∧
            removeAlike g (spillNotes s.notes t i reg use) i s.active = .ok rest ∧
            Position.resolve s.registers.length reg = .ok k ∧
            s' = { s with
              notes := spillNotes s.notes t i reg use
              active := rest
              registers := s.registers.set k none } := by
        intro use s₁ hnotes hs₁ h
        obtain ⟨⟨⟩, s₂, hplace, h⟩ := exists_of_bind_apply_eq_ok h
        obtain rfl := setLiveIn_cases hplace
        rw [hnotes] at h
        obtain ⟨⟨⟩, s₂, hdrop, h⟩ := exists_of_bind_apply_eq_ok h
        obtain ⟨rest, hrest, rfl⟩ := dropActive_cases hdrop
        obtain ⟨⟨⟩, s₂, hoccupy, h⟩ := exists_of_bind_apply_eq_ok h
        obtain ⟨k, hk, rfl⟩ := occupy_cases hoccupy
        obtain ⟨rfl, rfl⟩ := pure_cases h
        rw [hs₁] at hrest hk ⊢
        exact ⟨k, rest, rfl, hrest, hk, rfl⟩
      cases htemp : (s.interval i).owner.isTemp with
      | false =>
          simp only [htemp, Bool.false_eq_true, if_false] at h
          obtain ⟨k, rest, rfl, hrest, hk, hs'⟩ := hend none (by simp only [spillNotes]) rfl h
          exact ⟨none, k, rest, rfl, by simp, hrest, hk, hs'⟩
      | true =>
          simp only [htemp, if_true] at h
          cases huse : s.notes.nextUse i (s.notes.index t) with
          | none =>
              simp only [huse] at h
              obtain ⟨⟨⟩, s₁, hthrow, h⟩ := exists_of_bind_apply_eq_ok h
              cases hthrow
          | some use =>
              simp only [huse] at h
              obtain ⟨⟨⟩, s₁, hrestore, h⟩ := exists_of_bind_apply_eq_ok h
              obtain rfl := recordRestore_cases hrestore
              obtain ⟨k, rest, rfl, hrest, hk, hs'⟩ :=
                hend (some use) (by simp only [spillNotes]) rfl h
              exact ⟨some use, k, rest, rfl, by simp, hrest, hk, hs'⟩

/-! ## Activating -/

theorem resolve_natCast_cases {size number k : Nat}
    (h : Position.resolve size (number : Int) = .ok k) : k = number ∧ number < size := by
  have hneg : ¬ (number : Int) < 0 := by omega
  simp only [Position.resolve, if_neg hneg] at h
  split at h
  · next hin =>
      injection h with h
      omega
  · split at h <;> cases h

/-- What the notes are after the reload of `i` into `reg` at the tree `t` was recorded,
if it had to be. -/
def Reloaded (g : Graph) (t : Tree) (i : IntervalId) (reg : Nat) (n n' : Notes) : Prop :=
  if (n.interval i).owner.isResultOf t then
    n' = n
  else
    ∃ found, restoresAlike g n i (n.tree t).restores = .ok found ∧
      n' = if found then n else n.addRestore t { reg := some reg, interval := i }

/-- One restore is recorded, or nothing. -/
theorem Reloaded.notes_cases {reg : Nat} {n n' : Notes} (h : Reloaded g t i reg n n') :
    n' = n ∨ (n.interval i).owner.isResultOf t = false ∧
      n' = n.addRestore t { reg := some reg, interval := i } := by
  rw [Reloaded] at h
  split at h
  · exact Or.inl h
  · next hresult =>
      obtain ⟨found, -, rfl⟩ := h
      cases found with
      | true => exact Or.inl rfl
      | false => exact Or.inr ⟨Bool.eq_false_iff.mpr hresult, rfl⟩

theorem Reloaded.interval_eq {reg : Nat} {n n' : Notes} (h : Reloaded g t i reg n n')
    (j : IntervalId) : n'.interval j = n.interval j := by
  rcases h.notes_cases with rfl | ⟨-, rfl⟩ <;> rfl

theorem recordReload_cases {reg : Nat} (h : recordReload g t i reg s = .ok () s') :
    ∃ n, Reloaded g t i reg s.notes n ∧ s' = { s with notes := n } := by
  have h := get_bind_cases h
  cases hresult : (s.interval i).owner.isResultOf t with
  | true =>
      simp only [hresult, Bool.not_true, Bool.false_eq_true, if_false] at h
      obtain ⟨-, rfl⟩ := pure_cases h
      have hresult' : (s'.notes.interval i).owner.isResultOf t = true := hresult
      exact ⟨s'.notes, by simp [Reloaded, hresult'], rfl⟩
  | false =>
      simp only [hresult, Bool.not_false, if_true] at h
      obtain ⟨found, s₁, hfound, h⟩ := exists_of_bind_apply_eq_ok h
      obtain ⟨hfound, rfl⟩ := ofExcept_cases hfound
      have hresult' : (s₁.notes.interval i).owner.isResultOf t = false := hresult
      cases found with
      | true =>
          obtain ⟨-, rfl⟩ := pure_cases h
          exact ⟨s'.notes, by simp [Reloaded, hresult', hfound], rfl⟩
      | false =>
          obtain rfl := recordRestore_cases h
          exact ⟨_, by simp [Reloaded, hresult', hfound], rfl⟩

/-- The ways in which `i` comes into a register at the tree `t`. -/
inductive Activated (g : Graph) (t : Tree) (i : IntervalId) (s : Allocator) : Allocator → Prop
  /-- It was in one already. -/
  | already (reg : Int) (hlive : (s.interval i).liveIn = some reg) : Activated g t i s s
  /-- An empty register is left. -/
  | free (number filled : Nat) (n : Notes)
      (hlive : (s.interval i).liveIn = none)
      (hchoose : s.choose (s.notes.index t) i = .ok (some (number, filled)))
      (hreload : Reloaded g t i number s.notes n)
      (hfilled : filled < s.registers.length) :
      Activated g t i s { s with
        notes := n.place i (some number)
        registers := s.registers.set filled (some i)
        active := s.active ++ [i] }
  /-- Another interval is spilled for it. -/
  | evicted (use : Tree) (v : IntervalId) (reg : Int) (k : Nat) (s₁ : Allocator)
      (hlive : (s.interval i).liveIn = none)
      (hchoose : s.choose (s.notes.index t) i = .ok none)
      (huse : s.notes.nextUse i (s.notes.index t) = some use)
      (hvictim : s.victim (s.notes.index t) (s.notes.index use) none s.active = some v)
      (hspill : spill g t v s = .ok reg s₁)
      (hk : Position.resolve s₁.registers.length reg = .ok k) :
      Activated g t i s { s₁ with
        notes := s₁.notes.place i (some reg)
        registers := s₁.registers.set k (some i)
        active := s₁.active ++ [i] }

theorem tryActivate_cases {done : Bool} (h : tryActivate g t i s = .ok done s') :
    (done = false ∧ s.choose (s.notes.index t) i = .ok none ∧ s' = s) ∨
      done = true ∧ ∃ number filled n,
        s.choose (s.notes.index t) i = .ok (some (number, filled)) ∧
        Reloaded g t i number s.notes n ∧ filled < s.registers.length ∧
        s' = { s with
          notes := n.place i (some number)
          registers := s.registers.set filled (some i)
          active := s.active ++ [i] } := by
  have h := get_bind_cases h
  obtain ⟨choice, s₁, hchoose, h⟩ := exists_of_bind_apply_eq_ok h
  obtain ⟨hchoose, rfl⟩ := ofExcept_cases hchoose
  cases choice with
  | none =>
      obtain ⟨rfl, rfl⟩ := pure_cases h
      exact Or.inl ⟨rfl, hchoose, rfl⟩
  | some choice =>
      obtain ⟨number, filled⟩ := choice
      obtain ⟨⟨⟩, s₂, hrecord, h⟩ := exists_of_bind_apply_eq_ok h
      obtain ⟨n, hreload, rfl⟩ := recordReload_cases hrecord
      obtain ⟨⟨⟩, s₂, hplace, h⟩ := exists_of_bind_apply_eq_ok h
      obtain rfl := setLiveIn_cases hplace
      obtain ⟨⟨⟩, s₂, hoccupy, h⟩ := exists_of_bind_apply_eq_ok h
      obtain ⟨k, hk, rfl⟩ := occupy_cases hoccupy
      obtain ⟨⟨⟩, s₂, hpush, h⟩ := exists_of_bind_apply_eq_ok h
      obtain rfl := pushActive_cases hpush
      obtain ⟨rfl, rfl⟩ := pure_cases h
      obtain ⟨rfl, hlt⟩ := resolve_natCast_cases hk
      exact Or.inr ⟨rfl, number, k, n, hchoose, hreload, hlt, rfl⟩

theorem activate_cases (h : activate g t i s = .ok () s') : Activated g t i s s' := by
  have hbody := interval_bind_cases h
  cases hlive : (s.interval i).liveIn with
  | some reg =>
      simp only [hlive, Option.isNone_some, Bool.false_eq_true, if_false] at hbody
      obtain ⟨-, rfl⟩ := pure_cases hbody
      exact .already reg hlive
  | none =>
      simp only [hlive, Option.isNone_none, if_true] at hbody
      obtain ⟨done, s₁, htry, hrest⟩ := exists_of_bind_apply_eq_ok hbody
      rcases tryActivate_cases htry with ⟨rfl, hchoose, rfl⟩ |
          ⟨rfl, number, filled, n, hchoose, hreload, hlt, rfl⟩
      · have hevict := get_bind_cases hrest
        cases huse : s₁.notes.nextUse i (s₁.notes.index t) with
        | none =>
            simp only [huse] at hevict
            cases hevict
        | some use =>
            simp only [huse] at hevict
            cases hvictim : s₁.victim (s₁.notes.index t) (s₁.notes.index use) none s₁.active with
            | none =>
                simp only [hvictim] at hevict
                cases hevict
            | some v =>
                simp only [hvictim] at hevict
                obtain ⟨reg, s₂, hspill, hseat⟩ := exists_of_bind_apply_eq_ok hevict
                obtain ⟨⟨⟩, s₃, hplace, hseat⟩ := exists_of_bind_apply_eq_ok hseat
                obtain rfl := setLiveIn_cases hplace
                obtain ⟨⟨⟩, s₃, hoccupy, hseat⟩ := exists_of_bind_apply_eq_ok hseat
                obtain ⟨k, hk, rfl⟩ := occupy_cases hoccupy
                obtain rfl := pushActive_cases hseat
                exact .evicted use v reg k s₂ hlive hchoose huse hvictim hspill hk
      · obtain ⟨-, rfl⟩ := pure_cases hrest
        exact .free number filled n hlive hchoose hreload hlt

/-! ## Releasing -/

/-- The intervals of a list for which `drop` holds lose their registers, one after the
other; the rest is kept. -/
inductive Sifted (drop : IntervalId → Bool) :
    List IntervalId → Allocator → List IntervalId → Allocator → Prop
  | nil (s : Allocator) : Sifted drop [] s [] s
  | drop {i : IntervalId} {is kept : List IntervalId} {s s' : Allocator} {k : Nat}
      (hdrop : drop i = true)
      (hk : Position.resolve? s.registers.length (s.interval i).liveIn = .ok k)
      (hrest : Sifted drop is
        { s with registers := s.registers.set k none, notes := s.notes.place i none } kept s') :
      Sifted drop (i :: is) s kept s'
  | keep {i : IntervalId} {is kept : List IntervalId} {s s' : Allocator}
      (hdrop : drop i = false) (hrest : Sifted drop is s kept s') :
      Sifted drop (i :: is) s (i :: kept) s'

theorem nextUse_place (n : Notes) (i j : IntervalId) (reg : Option Int) (pos : Int) :
    (n.place i reg).nextUse j pos = n.nextUse j pos := by
  simp only [Notes.nextUse, Notes.uses_place]
  rfl

theorem nextWrite_place (n : Notes) (i j : IntervalId) (reg : Option Int) (pos : Int) :
    (n.place i reg).nextWrite j pos = n.nextWrite j pos := by
  simp only [Notes.nextWrite, Notes.writes_place]
  rfl

/-- Whether an interval is over does not depend on the registers. -/
theorem expired_place (s : Allocator) (registers : List (Option IntervalId)) (pos : Nat)
    (i j : IntervalId) (reg : Option Int) :
    ({ s with registers, notes := s.notes.place i reg } : Allocator).expired pos j =
      s.expired pos j := by
  simp only [Allocator.expired, Allocator.interval, Notes.lastRead_place, nextUse_place,
    nextWrite_place]
  rfl

theorem vacate_cases (h : vacate i s = .ok () s') :
    ∃ k, Position.resolve? s.registers.length (s.interval i).liveIn = .ok k ∧
      s' = { s with registers := s.registers.set k none, notes := s.notes.place i none } := by
  have hbody := interval_bind_cases h
  obtain ⟨⟨⟩, s₁, hoccupy, hplace⟩ := exists_of_bind_apply_eq_ok hbody
  obtain ⟨k, hk, rfl⟩ := occupy_cases hoccupy
  obtain rfl := setLiveIn_cases hplace
  exact ⟨k, hk, rfl⟩

theorem releaseEach_cases {pos : Nat} {is kept : List IntervalId}
    (h : releaseEach pos is s = .ok kept s') :
    Sifted (s.expired pos) is s kept s' := by
  induction is generalizing s kept with
  | nil =>
      obtain ⟨rfl, rfl⟩ := pure_cases h
      exact .nil _
  | cons i is ih =>
      have hbody := get_bind_cases h
      cases hexpired : s.expired pos i with
      | true =>
          simp only [hexpired, if_true] at hbody
          obtain ⟨⟨⟩, s₁, hvacate, hrest⟩ := exists_of_bind_apply_eq_ok hbody
          obtain ⟨k, hk, rfl⟩ := vacate_cases hvacate
          have hsame : ({ s with
              registers := s.registers.set k none
              notes := s.notes.place i none } : Allocator).expired pos = s.expired pos := by
            funext j
            exact expired_place s _ pos i j none
          have hsifted := ih hrest
          rw [hsame] at hsifted
          exact .drop hexpired hk hsifted
      | false =>
          simp only [hexpired, Bool.false_eq_true, if_false] at hbody
          obtain ⟨rest, s₁, hrest, hpure⟩ := exists_of_bind_apply_eq_ok hbody
          obtain ⟨rfl, rfl⟩ := pure_cases hpure
          exact .keep hexpired (ih hrest)

theorem release_cases (h : release t s = .ok () s') :
    ∃ kept s₁, Sifted (s.expired (s.notes.index t)) s.active s kept s₁ ∧
      s' = { s₁ with active := kept } := by
  have hbody := get_bind_cases h
  obtain ⟨kept, s₁, hrelease, hset⟩ := exists_of_bind_apply_eq_ok hbody
  injection hset with _ hset
  exact ⟨kept, s₁, releaseEach_cases hrelease, hset.symm⟩

/-- What a register holds after one of them was written. -/
theorem registers_of_set {registers : List (Option IntervalId)} {k m j : Nat}
    {content : Option IntervalId}
    (h : (registers.set k content)[m]? = some (some j)) :
    content = some j ∨ registers[m]? = some (some j) := by
  rw [List.getElem?_set] at h
  split at h
  · split at h
    · injection h with h
      exact Or.inl h
    · cases h
  · exact Or.inr h

theorem registers_of_set_none {registers : List (Option IntervalId)} {k m j : Nat}
    (h : (registers.set k none)[m]? = some (some j)) : registers[m]? = some (some j) := by
  rcases registers_of_set h with h | h
  · cases h
  · exact h

namespace Sifted

variable {drop : IntervalId → Bool} {is kept : List IntervalId}

theorem registers_of {k j : Nat}
    (h : Sifted drop is s kept s') (hk : s'.registers[k]? = some (some j)) :
    s.registers[k]? = some (some j) := by
  induction h with
  | nil => exact hk
  | drop _ _ _ ih => exact registers_of_set_none (ih hk)
  | keep _ _ ih => exact ih hk

theorem kept_eq (h : Sifted drop is s kept s') : kept = is.filter fun i => !drop i := by
  induction h with
  | nil => rfl
  | drop hdrop _ _ ih => simp [hdrop, ih]
  | keep hdrop _ ih => simp [hdrop, ih]

/-- Sifting changes the file of registers and where intervals live, and nothing
else. -/
theorem state_eq (h : Sifted drop is s kept s') :
    ∃ registers, registers.length = s.registers.length ∧
      s' = { s with
        registers
        notes := s.notes.evacuate (is.filter drop) } := by
  induction h with
  | nil s => exact ⟨s.registers, rfl, rfl⟩
  | drop hdrop _ _ ih =>
      obtain ⟨registers, hlength, rfl⟩ := ih
      exact ⟨registers, by simpa using hlength, by simp [hdrop, Notes.evacuate_cons]⟩
  | keep hdrop _ ih =>
      obtain ⟨registers, hlength, rfl⟩ := ih
      exact ⟨registers, hlength, by simp [hdrop]⟩

theorem tree_eq (h : Sifted drop is s kept s') (x : Tree) : s'.notes.tree x = s.notes.tree x := by
  obtain ⟨registers, -, rfl⟩ := h.state_eq
  exact Notes.tree_evacuate _ _ x

theorem count_eq (h : Sifted drop is s kept s') :
    s'.notes.intervalCount = s.notes.intervalCount := by
  obtain ⟨registers, -, rfl⟩ := h.state_eq
  exact Notes.intervalCount_evacuate _ _

end Sifted

/-! ## What is recorded at a tree -/

theorem carrySpill_cases {sp : Spill} (h : carrySpill g sp s = .ok () s') :
    ∃ reg k rest,
      (s.interval sp.interval).liveIn = some reg ∧ sp.reg = some reg ∧
      removeAlike g s.notes sp.interval s.active = .ok rest ∧
      Position.resolve s.registers.length reg = .ok k ∧
      s' = { s with
        active := rest
        registers := s.registers.set k none
        notes := s.notes.place sp.interval none } := by
  have hbody := interval_bind_cases h
  cases hlive : (s.interval sp.interval).liveIn with
  | none =>
      simp only [hlive, Option.isNone_none, if_true] at hbody
      obtain ⟨⟨⟩, s₁, hthrow, -⟩ := exists_of_bind_apply_eq_ok hbody
      cases hthrow
  | some reg =>
      simp only [hlive, Option.isNone_some, Bool.false_eq_true, if_false] at hbody
      by_cases hreg : sp.reg = some reg
      · simp only [hreg, ne_eq, not_true_eq_false, if_false] at hbody
        obtain ⟨⟨⟩, s₃, hdrop, hbody⟩ := exists_of_bind_apply_eq_ok hbody
        obtain ⟨rest, hrest, rfl⟩ := dropActive_cases hdrop
        obtain ⟨⟨⟩, s₃, hoccupy, hplace⟩ := exists_of_bind_apply_eq_ok hbody
        obtain ⟨k, hk, rfl⟩ := occupy_cases hoccupy
        obtain rfl := setLiveIn_cases hplace
        exact ⟨reg, k, rest, rfl, hreg, hrest, hk, rfl⟩
      · simp only [hreg, ne_eq, not_false_eq_true, if_true] at hbody
        obtain ⟨⟨⟩, s₂, hthrow, -⟩ := exists_of_bind_apply_eq_ok hbody
        cases hthrow

/-- Note in place `k` of the restores of `t` that the register is `reg`. -/
def noteRestored (n : Notes) (t : Tree) (k : Nat) (reg : Option Int) : Notes :=
  n.modifyTree t fun note =>
    { note with restores := note.restores.modify k fun r => { r with reg } }

theorem carryRestore_cases {k : Nat} {r : Restore} (h : carryRestore g t k r s = .ok () s') :
    (s.interval r.interval).liveIn = none ∧
      ∃ s₁, Activated g t r.interval s s₁ ∧
        s' = { s₁ with
          notes := noteRestored s₁.notes t k (s₁.interval r.interval).liveIn } := by
  have hbody := interval_bind_cases h
  cases hlive : (s.interval r.interval).liveIn with
  | some reg =>
      simp only [hlive, Option.isSome_some, if_true] at hbody
      obtain ⟨⟨⟩, s₁, hthrow, -⟩ := exists_of_bind_apply_eq_ok hbody
      cases hthrow
  | none =>
      simp only [hlive, Option.isSome_none, Bool.false_eq_true, if_false] at hbody
      obtain ⟨⟨⟩, s₂, hactivate, hbody⟩ := exists_of_bind_apply_eq_ok hbody
      obtain rfl := modifyNotes_cases (interval_bind_cases hbody)
      exact ⟨rfl, s₂, activate_cases hactivate, rfl⟩

theorem prepare_cases (h : prepare g t s = .ok () s') :
    ∃ s₁ s₂ s₃,
      release t { s with reuse := false } = .ok () s₁ ∧
      carrySpills g (s₁.notes.tree t).spills s₁ = .ok () s₂ ∧
      carryRestores g t 0 (s₂.notes.tree t).restores s₂ = .ok () s₃ ∧
      if s.reuse then release t { s₃ with reuse := s.reuse } = .ok () s'
      else s' = { s₃ with reuse := s.reuse } := by
  have hbody := get_bind_cases h
  obtain ⟨⟨⟩, s₀, hset, hbody⟩ := exists_of_bind_apply_eq_ok hbody
  injection hset with _ hset
  subst hset
  obtain ⟨⟨⟩, s₁, hrelease, hbody⟩ := exists_of_bind_apply_eq_ok hbody
  have hbody := get_bind_cases hbody
  obtain ⟨⟨⟩, s₂, hspills, hbody⟩ := exists_of_bind_apply_eq_ok hbody
  have hbody := get_bind_cases hbody
  obtain ⟨⟨⟩, s₃, hrestores, hbody⟩ := exists_of_bind_apply_eq_ok hbody
  obtain ⟨⟨⟩, s₄, hset, hbody⟩ := exists_of_bind_apply_eq_ok hbody
  injection hset with _ hset
  subst hset
  refine ⟨s₁, s₂, s₃, hrelease, hspills, hrestores, ?_⟩
  cases hreuse : s.reuse with
  | true =>
      simp only [hreuse, if_true] at hbody ⊢
      exact hbody
  | false =>
      simp only [hreuse, Bool.false_eq_true, if_false] at hbody ⊢
      exact (pure_cases hbody).2

/-! ## Giving a tree its register -/

theorem clearFor_cases {reg : Int} (h : clearFor g t reg s = .ok () s') :
    ∃ k, Position.resolve s.registers.length reg = .ok k ∧
      (((s.registers[k]?).join = none ∧ s' = s) ∨
        ∃ j, (s.registers[k]?).join = some j ∧
          (((s.interval j).owner.isTemp = true ∧
              ∃ rest, removeAlike g s.notes j s.active = .ok rest ∧
                s' = { s with active := rest }) ∨
            (s.interval j).owner.isTemp = false ∧ ∃ old, spill g t j s = .ok old s')) := by
  obtain ⟨content, s₁, hoccupant, hbody⟩ := exists_of_bind_apply_eq_ok h
  obtain ⟨k, hk, rfl, rfl⟩ := occupant_cases hoccupant
  refine ⟨k, hk, ?_⟩
  cases hcontent : (s₁.registers[k]?).join with
  | none =>
      simp only [hcontent] at hbody
      obtain ⟨-, rfl⟩ := pure_cases hbody
      exact Or.inl ⟨rfl, rfl⟩
  | some j =>
      simp only [hcontent] at hbody
      have hbody := interval_bind_cases hbody
      refine Or.inr ⟨j, rfl, ?_⟩
      cases htemp : (s₁.interval j).owner.isTemp with
      | true =>
          simp only [htemp, if_true] at hbody
          exact Or.inl ⟨rfl, dropActive_cases hbody⟩
      | false =>
          simp only [htemp, Bool.false_eq_true, if_false] at hbody
          obtain ⟨old, s₂, hspill, hpure⟩ := exists_of_bind_apply_eq_ok hbody
          obtain ⟨-, rfl⟩ := pure_cases hpure
          exact Or.inr ⟨rfl, old, hspill⟩

/-- The state in which the local variable `i` has left the register it was in, or is
active from now on. -/
inductive Unseated (i : IntervalId) (s : Allocator) : Allocator → Prop
  | moved {old : Int} {k : Nat} (log : Array String)
      (hlive : (s.interval i).liveIn = some old)
      (hk : Position.resolve s.registers.length old = .ok k) :
      Unseated i s { s with registers := s.registers.set k none, log }
  | entered (hlive : (s.interval i).liveIn = none) :
      Unseated i s { s with active := s.active ++ [i] }

theorem settle_cases {reg : Int} (h : settle g t i reg s = .ok () s') :
    ∃ s₁ s₂ k, clearFor g t reg s = .ok () s₁ ∧ Unseated i s₁ s₂ ∧
      Position.resolve s₂.registers.length reg = .ok k ∧
      s' = { s₂ with
        notes := s₂.notes.place i (some reg)
        registers := s₂.registers.set k (some i) } := by
  obtain ⟨⟨⟩, s₁, hclear, hbody⟩ := exists_of_bind_apply_eq_ok h
  have hbody := interval_bind_cases hbody
  cases hlive : (s₁.interval i).liveIn with
  | some old =>
      simp only [hlive] at hbody
      obtain ⟨⟨⟩, s₂, hemit, hbody⟩ := exists_of_bind_apply_eq_ok hbody
      injection hemit with _ hemit
      subst hemit
      obtain ⟨⟨⟩, s₂, hoccupy, hbody⟩ := exists_of_bind_apply_eq_ok hbody
      obtain ⟨k, hk, rfl⟩ := occupy_cases hoccupy
      obtain ⟨⟨⟩, s₂, hplace, hseat⟩ := exists_of_bind_apply_eq_ok hbody
      obtain rfl := setLiveIn_cases hplace
      obtain ⟨k', hk', rfl⟩ := occupy_cases hseat
      exact ⟨s₁, _, k', hclear, .moved _ hlive hk, hk', rfl⟩
  | none =>
      simp only [hlive] at hbody
      obtain ⟨⟨⟩, s₂, hpush, hbody⟩ := exists_of_bind_apply_eq_ok hbody
      obtain rfl := pushActive_cases hpush
      obtain ⟨⟨⟩, s₂, hplace, hseat⟩ := exists_of_bind_apply_eq_ok hbody
      obtain rfl := setLiveIn_cases hplace
      obtain ⟨k', hk', rfl⟩ := occupy_cases hseat
      exact ⟨s₁, _, k', hclear, .entered hlive, hk', rfl⟩

/-- Give the tree `t` the register that `i` is in, if it is in one. -/
def withReg (n : Notes) (t : Tree) (i : IntervalId) : Notes :=
  match (n.interval i).liveIn with
  | some reg => n.modifyTree t fun note => { note with reg }
  | none => n

theorem scanLoad_cases (h : scanLoad g t s = .ok () s') :
    ∃ i s₁, s.slotOf t = .ok i ∧ Activated g t i s s₁ ∧
      s' = { s₁ with notes := withReg s₁.notes t i } := by
  obtain ⟨i, s₀, hslot, hload⟩ := exists_of_bind_apply_eq_ok (get_bind_cases h)
  obtain ⟨hslot, rfl⟩ := ofExcept_cases hslot
  obtain ⟨⟨⟩, s₁, hactivate, hbody⟩ := exists_of_bind_apply_eq_ok hload
  replace hbody := interval_bind_cases hbody
  refine ⟨i, s₁, hslot, activate_cases hactivate, ?_⟩
  cases hlive : (s₁.interval i).liveIn with
  | some reg =>
      have hlive' : (s₁.notes.interval i).liveIn = some reg := hlive
      simp only [hlive] at hbody
      obtain rfl := modifyNotes_cases hbody
      simp only [withReg, hlive']
  | none =>
      have hlive' : (s₁.notes.interval i).liveIn = none := hlive
      simp only [hlive] at hbody
      obtain ⟨-, rfl⟩ := pure_cases hbody
      simp only [withReg, hlive']

/-- The interval of the result of `t`, which the tree `p` takes. -/
def tempOf (n : Notes) (t p : Tree) : Interval :=
  { owner := .temp t, uses := [p], writes := [t]
    firstWrite := n.index t, lastRead := n.index p }

theorem scanTemp_cases {p : Tree} (h : scanTemp g t p s = .ok () s') :
    ∃ s₁,
      Activated g t s.notes.intervalCount
        { s with notes := s.notes.addInterval (tempOf s.notes t p) } s₁ ∧
      s' = { s₁ with notes := withReg s₁.notes t s.notes.intervalCount } := by
  obtain ⟨⟨⟩, s₀, hadd, htemp⟩ := exists_of_bind_apply_eq_ok (get_bind_cases h)
  obtain rfl := modifyNotes_cases hadd
  obtain ⟨⟨⟩, s₁, hactivate, hbody⟩ := exists_of_bind_apply_eq_ok htemp
  replace hbody := interval_bind_cases hbody
  refine ⟨s₁, activate_cases hactivate, ?_⟩
  cases hlive : (s₁.interval s.notes.intervalCount).liveIn with
  | some reg =>
      have hlive' : (s₁.notes.interval s.notes.intervalCount).liveIn = some reg := hlive
      simp only [hlive] at hbody
      obtain rfl := modifyNotes_cases hbody
      simp only [withReg, hlive']
  | none =>
      have hlive' : (s₁.notes.interval s.notes.intervalCount).liveIn = none := hlive
      simp only [hlive] at hbody
      obtain ⟨-, rfl⟩ := pure_cases hbody
      simp only [withReg, hlive']

theorem scanStore_cases (h : scanStore g t s = .ok () s') :
    ∃ i value rest s₁, s.slotOf t = .ok i ∧ t.subtrees = value :: rest ∧
      (if (s.interval i).liveIn = some (s.notes.reg value) then s₁ = s
        else settle g t i (s.notes.reg value) s = .ok () s₁) ∧
      s' = { s₁ with
        notes := (g.sharers t).foldl (fun n u => n.addStored u (s.notes.reg value)) s₁.notes } := by
  obtain ⟨i, s₀, hslot, hstore⟩ := exists_of_bind_apply_eq_ok (get_bind_cases h)
  obtain ⟨hslot, rfl⟩ := ofExcept_cases hslot
  cases hsubtrees : t.subtrees with
  | nil =>
      simp only [hsubtrees] at hstore
      cases hstore
  | cons value rest =>
      simp only [hsubtrees] at hstore
      have hbody := interval_bind_cases (get_bind_cases hstore)
      by_cases hlive : (s₀.interval i).liveIn = some (s₀.notes.reg value)
      · simp only [hlive, ne_eq, not_true_eq_false, if_false] at hbody
        obtain rfl := modifyNotes_cases hbody
        exact ⟨i, value, rest, s₀, hslot, rfl, by simp [hlive], rfl⟩
      · simp only [hlive, ne_eq, not_false_eq_true, if_true] at hbody
        obtain ⟨⟨⟩, s₁, hsettle, hbody⟩ := exists_of_bind_apply_eq_ok hbody
        obtain rfl := modifyNotes_cases hbody
        exact ⟨i, value, rest, s₁, hslot, rfl, by simp [hlive, hsettle], rfl⟩

theorem scanTree_cases (h : scanTree g t s = .ok () s') :
    ∃ s₁, prepare g t { s with tree := some t } = .ok () s₁ ∧ place g t s₁ = .ok () s' := by
  obtain ⟨⟨⟩, s₀, hset, hbody⟩ := exists_of_bind_apply_eq_ok h
  injection hset with _ hset
  subst hset
  obtain ⟨⟨⟩, s₁, hprepare, hplace⟩ := exists_of_bind_apply_eq_ok hbody
  exact ⟨s₁, hprepare, hplace⟩

end Alloc
end LinearScan
